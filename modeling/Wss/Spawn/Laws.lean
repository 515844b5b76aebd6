import Wss.Spawn.Backend
import Mathlib.Data.Sum.Basic

/-!
# What `spawn` relies on in a backend

`Laws B`: no job is started before its call of `submit` has passed `record_submitted`; no job is
started twice; and a worker runs its job until the body of it returns. Each backend has them
(`Backends/`) from the account of its jobs and from what its steps do to the bodies of jobs, `Turn`,
and to the calls of `submit` that have not come to their entry, `Past`.

Results:
* `Laws.running_of_finish`: a body returns only where it runs.
* `Past.step`: a call of `submit` leaves the way to its entry only by the entry.
-/

namespace Wss.Spawn

open Wss.Lib

/-- What a step does to the bodies of jobs. -/
inductive Turn {N : ℕ} (B : Backend N) (started : B.State → List ℕ) (b : B.State) (l : B.Label)
    (b' : B.State) : Prop
  | keep : B.running b' = B.running b → started b' = started b →
      (∀ w, B.bodyStep l ≠ some (.returns w)) → B.stolen b l b' = none → Turn B started b l b'
  | start {w job} : B.running b w = none →
      B.running b' = Function.update (B.running b) w (some job) →
      started b' = started b ++ [job] → (∀ w, B.bodyStep l ≠ some (.returns w)) →
      (∀ v, B.stolen b l b' = some v → v = w) → Turn B started b l b'
  | returns {w} : B.bodyStep l = some (.returns w) → B.running b w ≠ none →
      B.running b' = Function.update (B.running b) w none → started b' = started b →
      B.stolen b l b' = none → Turn B started b l b'

/-- The laws of a backend. -/
structure Laws {N : ℕ} (B : Backend N) where
  /-- The call of `submit` of a job has passed `record_submitted`. -/
  Entered : B.State → ℕ → Prop
  /-- The jobs whose body was called. -/
  started : B.State → List ℕ
  init : ∀ {b}, B.machine.init b → (∀ job, ¬ Entered b job) ∧ ∀ w, B.running b w = none
  bodyStep_finish : ∀ w, B.bodyStep (B.finish w) = some (.returns w)
  entered : ∀ {b l b'}, B.machine.Reachable b → B.machine.step b l = some b' → ∀ job,
    Entered b' job → Entered b job ∨ B.entry b l = some job
  turn : ∀ {b l b'}, B.machine.Reachable b → B.machine.step b l = some b' → Turn B started b l b'
  started_entered : ∀ {b}, B.machine.Reachable b → ∀ job ∈ started b, Entered b job
  started_nodup : ∀ {b}, B.machine.Reachable b → (started b).Nodup
  running_started : ∀ {b}, B.machine.Reachable b → ∀ {w job}, B.running b w = some job →
    job ∈ started b
  running_inj : ∀ {b}, B.machine.Reachable b → ∀ {w v job}, B.running b w = some job →
    B.running b v = some job → w = v

/-- Only a worker that runs a job returns from its body. -/
theorem Laws.running_of_finish {N : ℕ} {B : Backend N} (P : Laws B) {b : B.State} {w : Fin N}
    (hr : B.machine.Reachable b) (h : (B.machine.step b (B.finish w)).isSome = true) :
    B.running b w ≠ none := by
  obtain ⟨b', hb⟩ := Option.isSome_iff_exists.mp h
  cases P.turn hr hb with
  | keep _ _ hbody _ => exact absurd (P.bodyStep_finish w) (hbody w)
  | start _ _ _ hbody _ => exact absurd (P.bodyStep_finish w) (hbody w)
  | returns hbody hrun _ _ _ =>
    obtain rfl := BodyStep.returns.inj (Option.some.inj ((P.bodyStep_finish w).symm.trans hbody))
    exact hrun

/-! ## Calls of `submit` that have not come to their entry -/

section Calls

variable {κ ω α β τ : Type} [DecidableEq κ] [DecidableEq ω] [DecidableEq τ]
variable {next next' : ℕ} {calls calls' : τ → Option ℕ} {job : ℕ} {e : Option ℕ}

/-- The jobs of the calls of `submit` on their way to the entry, in the workers and outside. -/
def approaching (f : α → Option ℕ) (g : β → Option ℕ) (worker : κ → α) (client : ω → β) :
    κ ⊕ ω → Option ℕ :=
  Sum.elim (f ∘ worker) (g ∘ client)

theorem approaching_worker (f : α → Option ℕ) (g : β → Option ℕ) (worker : κ → α) (client : ω → β)
    (w : κ) (pc : α) : approaching f g (Function.update worker w pc) client =
      Function.update (approaching f g worker client) (.inl w) (f pc) := by
  rw [approaching, Function.comp_update, approaching, Sum.update_elim_inl]

theorem approaching_client (f : α → Option ℕ) (g : β → Option ℕ) (worker : κ → α) (client : ω → β)
    (c : ω) (call : β) : approaching f g worker (Function.update client c call) =
      Function.update (approaching f g worker client) (.inr c) (g call) := by
  rw [approaching, Function.comp_update, approaching, Sum.update_elim_inr]

/-- The job has a number, and no call of `submit` is on its way to the entry with it. -/
def Past (next : ℕ) (calls : τ → Option ℕ) (job : ℕ) : Prop :=
  job < next ∧ ∀ t, calls t ≠ some job

/-- A call leaves with an entry only, and a new number is that of a new call. -/
theorem Past.step (h : Past next' calls' job) {t : τ} {a : Option ℕ}
    (hcalls : calls' = Function.update calls t a)
    (hnext : next' = next ∨ next' = next + 1 ∧ a = some next)
    (hleave : calls t = none ∨ calls t = a ∨ calls t = e) : Past next calls job ∨ e = some job := by
  have ha : a ≠ some job := fun ha => h.2 t (by rw [hcalls, Function.update_self, ha])
  have hother : ∀ u ≠ t, calls u ≠ some job := fun u hu hc =>
    h.2 u (by rw [hcalls, Function.update_of_ne hu, hc])
  have hlt : job < next := by
    rcases hnext with rfl | ⟨rfl, rfl⟩
    · exact h.1
    · refine lt_of_le_of_ne (Nat.lt_succ_iff.mp h.1) ?_
      rintro rfl
      exact ha rfl
  by_cases ht : calls t = some job
  · rcases hleave with hl | hl | hl
    · exact absurd (hl.symm.trans ht) (by simp)
    · exact absurd (hl.symm.trans ht) ha
    · exact .inr (hl.symm.trans ht)
  · refine .inl ⟨hlt, fun u hu => ?_⟩
    rcases eq_or_ne u t with rfl | hne
    · exact ht hu
    · exact hother u hne hu

end Calls

end Wss.Spawn
