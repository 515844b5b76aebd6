import Wss.Lib.Shared
import Wss.Spawn.Outcome

/-!
# Cancellable tasks

Model of `include/wss/cancellation.hpp` and of `spawn_cancellable` over the machine of `Model.lean`:
one flag, the tokens `τ` that share it, and the tasks that were spawned with one of them.

* A token can be copied and destroyed at any time. A task that is spawned with a token has a context
  of its own in its closure, which is destroyed with it after its body has returned. The parameters
  and the locals of `spawn_cancellable` are gone when it returns, and are not modelled.
* `cancel` stores to the flag, `is_cancelled` loads it: one step each.
* The code of a task polls its context as often as it likes. It can also have tokens of its own.

Results:
* `path_guarded`: the holders of the flag are counted along every run.
* `path_below`: the flag changes nothing of the run below.
* `observe_answers`: `is_cancelled` answers as a flag does that only `cancel` sets.
* `cancellation_sound`: a poll never touches a flag that was freed, and answers as an abstract flag
  would; and cancelling a task changes nothing of what a scheduler does with it.
-/

namespace Wss.Spawn

open Wss.Lib

/-- Who shares the flag. -/
inductive Holder (τ : Type)
  | token (t : τ)
  /-- The context in the closure of a job. -/
  | context (job : ℕ)
  deriving DecidableEq

variable {N : ℕ} {B : Backend N} {P : Laws B} {E V ρ τ : Type}

/-- The schedulers with the flag of a token. `shared` has the owners of the flag: the tokens that
threads hold and the contexts of tasks. -/
structure Cancellable {N : ℕ} (B : Backend N) (E V ρ τ : Type) where
  spawn : State B E V ρ
  cancelled : Bool
  shared : Shared (Holder τ)
  /-- The jobs that were spawned with a token. -/
  contexts : List ℕ

/-- What the threads do. -/
inductive CancelLabel {N : ℕ} (B : Backend N) (E V ρ τ : Type)
  /-- A step of `Model.lean`. -/
  | spawn (l : Label B E V ρ)
  /-- A thread spawns a task with its token: `l` is the step that begins the call of `submit`. -/
  | spawnCancellable (t : τ) (l : B.Label)
  | copy (t u : τ)
  | drop (t : τ)
  | cancel (t : τ)
  | isCancelled (t : τ)
  /-- The code of the task that worker `w` runs looks at its context. -/
  | poll (w : Fin N)
  /-- The closure of a job that has run is destroyed. -/
  | destroy (job : ℕ)

/-- A step that follows the pointer to the flag. -/
def CancelLabel.touches : CancelLabel B E V ρ τ → Bool
  | .spawn _ => false
  | .spawnCancellable _ _ | .copy _ _ | .drop _ | .cancel _ | .isCancelled _ | .poll _
  | .destroy _ => true

/-- The labels of the machine below. -/
def CancelLabel.below : CancelLabel B E V ρ τ → List (Label B E V ρ)
  | .spawn l => [l]
  | .spawnCancellable _ l => [.base l]
  | .copy _ _ | .drop _ | .cancel _ | .isCancelled _ | .poll _ | .destroy _ => []

/-- The answers of `is_cancelled` along a run. -/
def answers (s : Cancellable B E V ρ τ) : CancelLabel B E V ρ τ → List Bool
  | .isCancelled _ | .poll _ => [s.cancelled]
  | .spawn _ | .spawnCancellable _ _ | .copy _ _ | .drop _ | .cancel _ | .destroy _ => []

/-- What a flag answers that `cancel` sets and nothing resets. -/
def flagAnswers (cancelled : Bool) : List (CancelLabel B E V ρ τ) → List Bool
  | [] => []
  | .cancel _ :: ls => flagAnswers true ls
  | .isCancelled _ :: ls | .poll _ :: ls => cancelled :: flagAnswers cancelled ls
  | .spawn _ :: ls | .spawnCancellable _ _ :: ls | .copy _ _ :: ls | .drop _ :: ls
  | .destroy _ :: ls => flagAnswers cancelled ls

variable [DecidableEq ρ] [DecidableEq τ]

/-- Whether the body of a job has returned. -/
def Returned (P : Laws B) (b : B.State) (job : ℕ) : Prop :=
  job ∈ P.started b ∧ ∀ w, B.running b w ≠ some job

instance (b : B.State) : DecidablePred (Returned P b) := fun _ =>
  inferInstanceAs (Decidable (_ ∧ _))

/-- One step: only who owns the flag follows the pointer to it. -/
def stepCancellable (Q : PoolLaws P) (what : E → Option String) (s : Cancellable B E V ρ τ) :
    CancelLabel B E V ρ τ → Option (Cancellable B E V ρ τ)
  | .spawn l => (step what s.spawn l).map fun spawn => { s with spawn }
  | .spawnCancellable t l =>
    if .token t ∈ s.shared.owners then
      (step what s.spawn (.base l)).bind fun spawn =>
        let job := Q.next s.spawn.base
        if Q.next spawn.base = job + 1 then
          some { s with
            spawn, shared := s.shared.copy (.context job), contexts := s.contexts ++ [job] }
        else none
    else none
  | .copy t u =>
    if .token t ∈ s.shared.owners ∧ .token u ∉ s.shared.owners then
      some { s with shared := s.shared.copy (.token u) }
    else none
  | .drop t =>
    if .token t ∈ s.shared.owners then some { s with shared := s.shared.drop (.token t) } else none
  | .cancel t => if .token t ∈ s.shared.owners then some { s with cancelled := true } else none
  | .isCancelled t => if .token t ∈ s.shared.owners then some s else none
  | .poll w =>
    match B.running s.spawn.base w with
    | some job => if (s.spawn.task w).isBody ∧ job ∈ s.contexts then some s else none
    | none => none
  | .destroy job =>
    if .context job ∈ s.shared.owners ∧ Returned P s.spawn.base job then
      some { s with shared := s.shared.drop (.context job) }
    else none

/-- The schedulers with a flag of token `t`. -/
def cancellable (Q : PoolLaws P) (what : E → Option String) (V ρ τ : Type) [DecidableEq ρ]
    [DecidableEq τ] : Machine (Cancellable B E V ρ τ) (CancelLabel B E V ρ τ) where
  init s := ∃ spawn t, (machine B what V ρ).init spawn ∧
    s = ⟨spawn, false, .make {.token t}, []⟩
  step := stepCancellable Q what

variable {Q : PoolLaws P} {what : E → Option String} {s s' s₀ : Cancellable B E V ρ τ}
  {x : CancelLabel B E V ρ τ} {tr : List (CancelLabel B E V ρ τ)} {b b' : B.State} {l : B.Label}
  {job : ℕ}

/-! ## The machine below -/

/-- What a step does below. -/
theorem stepCancellable_below (h : stepCancellable Q what s x = some s') :
    x.below = [] ∧ s'.spawn = s.spawn ∨
      ∃ l, x.below = [l] ∧ step what s.spawn l = some s'.spawn := by
  cases x with
  | spawn l =>
    obtain ⟨spawn, hst, rfl⟩ := Option.map_eq_some_iff.mp h
    exact .inr ⟨l, rfl, hst⟩
  | spawnCancellable t l =>
    obtain ⟨-, h⟩ := Option.ite_none_right_eq_some.mp h
    obtain ⟨spawn, hst, h⟩ := Option.bind_eq_some_iff.mp h
    obtain ⟨-, h⟩ := Option.ite_none_right_eq_some.mp h
    obtain rfl := Option.some.inj h
    exact .inr ⟨.base l, rfl, hst⟩
  | poll w =>
    simp only [stepCancellable] at h
    split at h
    · obtain ⟨-, h⟩ := Option.ite_none_right_eq_some.mp h
      exact .inl ⟨rfl, (Option.some.inj h) ▸ rfl⟩
    · exact absurd h (by simp)
  | copy t u | drop t | cancel t | isCancelled t | destroy job =>
    obtain ⟨-, h⟩ := Option.ite_none_right_eq_some.mp h
    exact .inl ⟨rfl, (Option.some.inj h) ▸ rfl⟩

/-- **The flag changes nothing below.** -/
theorem path_below (h : (cancellable Q what V ρ τ).Path Machine.Free s₀ tr s) :
    (machine B what V ρ).Path Machine.Free s₀.spawn (tr.flatMap CancelLabel.below) s.spawn := by
  induction h with
  | nil => exact .nil
  | @snoc tr t t' x _ _ hst ih =>
    rw [List.flatMap_append]
    rcases stepCancellable_below hst with ⟨hx, hsame⟩ | ⟨l, hx, hl⟩
    · rw [List.flatMap_singleton, hx, List.append_nil, hsame]
      exact ih
    · rw [List.flatMap_singleton, hx]
      exact ih.snoc trivial hl

/-! ## The answers -/

theorem answers_step (h : stepCancellable Q what s x = some s')
    (ls : List (CancelLabel B E V ρ τ)) :
    answers s x ++ flagAnswers s'.cancelled ls = flagAnswers s.cancelled (x :: ls) := by
  cases x with
  | spawn l =>
    obtain ⟨spawn, -, rfl⟩ := Option.map_eq_some_iff.mp h
    rfl
  | spawnCancellable t l =>
    obtain ⟨-, h⟩ := Option.ite_none_right_eq_some.mp h
    obtain ⟨spawn, -, h⟩ := Option.bind_eq_some_iff.mp h
    obtain ⟨-, h⟩ := Option.ite_none_right_eq_some.mp h
    obtain rfl := Option.some.inj h
    rfl
  | poll w =>
    simp only [stepCancellable] at h
    split at h
    · obtain ⟨-, h⟩ := Option.ite_none_right_eq_some.mp h
      obtain rfl := Option.some.inj h
      rfl
    · exact absurd h (by simp)
  | copy t u | drop t | cancel t | isCancelled t | destroy job =>
    obtain ⟨-, h⟩ := Option.ite_none_right_eq_some.mp h
    obtain rfl := Option.some.inj h
    rfl

/-- **`is_cancelled` answers as a flag does that only `cancel` sets.** -/
theorem observe_answers : ∀ {tr : List (CancelLabel B E V ρ τ)} {s₀ : Cancellable B E V ρ τ},
    (cancellable Q what V ρ τ).exec s₀ tr = some s →
      (cancellable Q what V ρ τ).observe answers s₀ tr = flagAnswers s₀.cancelled tr
  | [], _, _ => rfl
  | x :: ls, s₀, h => by
    obtain ⟨s₁, hst, h⟩ := Option.bind_eq_some_iff.mp h
    rw [Machine.observe, hst, Option.elim_some, observe_answers h]
    exact answers_step hst ls

/-! ## The contexts -/

/-- Nobody takes back that a body has returned. -/
theorem Returned.step (hr : Returned P b job) (hb : B.machine.Reachable b)
    (hst : B.machine.step b l = some b') : Returned P b' job := by
  obtain ⟨hstarted, hrun⟩ := hr
  cases P.turn hb hst with
  | keep hrun' hs _ _ => exact ⟨hs ▸ hstarted, fun w => hrun' ▸ hrun w⟩
  | @start w job' hw hrun' hs _ _ =>
    -- a job that has started is not started again
    have hnodup := P.started_nodup (hb.next hst)
    rw [hs] at hnodup
    refine ⟨hs ▸ List.mem_append_left _ hstarted, fun v hv => ?_⟩
    rw [hrun'] at hv
    by_cases hvw : v = w
    · rw [hvw, Function.update_self] at hv
      obtain rfl := Option.some.inj hv
      exact (List.nodup_append.mp hnodup).2.2 _ hstarted _ (List.mem_singleton_self _) rfl
    · rw [Function.update_of_ne hvw] at hv
      exact hrun v hv
  | @returns w _ _ hrun' hs _ =>
    refine ⟨hs ▸ hstarted, fun v hv => ?_⟩
    rw [hrun'] at hv
    by_cases hvw : v = w
    · rw [hvw, Function.update_self] at hv
      exact absurd hv (by simp)
    · rw [Function.update_of_ne hvw] at hv
      exact hrun v hv

/-- The holders of the flag are counted, and a task that was spawned with a token has its context
until its body has returned. -/
structure Guarded (Q : PoolLaws P) (s : Cancellable B E V ρ τ) : Prop where
  base : B.machine.Reachable s.spawn.base
  sound : s.shared.Sound
  lt : ∀ job ∈ s.contexts, job < Q.next s.spawn.base
  mem : ∀ job, .context job ∈ s.shared.owners → job ∈ s.contexts
  kept : ∀ job ∈ s.contexts, .context job ∈ s.shared.owners ∨ Returned P s.spawn.base job

omit [DecidableEq ρ] [DecidableEq τ] in
/-- A task that runs has its context. -/
theorem Guarded.running (hg : Guarded Q s) {w : Fin N} (hrun : B.running s.spawn.base w = some job)
    (hjob : job ∈ s.contexts) : .context job ∈ s.shared.owners :=
  (hg.kept job hjob).resolve_right fun h => h.2 w hrun

/-- Whoever follows the pointer to the flag shares it. -/
theorem Guarded.alive (hg : Guarded Q s) (h : stepCancellable Q what s x = some s')
    (hx : x.touches = true) : s.shared.frees = 0 := by
  cases x with
  | spawn l => exact absurd hx Bool.false_ne_true
  | poll w =>
    simp only [stepCancellable] at h
    split at h
    · rename_i job hrun
      obtain ⟨⟨-, hjob⟩, -⟩ := Option.ite_none_right_eq_some.mp h
      exact hg.sound.alive (hg.running hrun hjob)
    · exact absurd h (by simp)
  | copy t u | destroy job => exact hg.sound.alive (Option.ite_none_right_eq_some.mp h).1.1
  | spawnCancellable t l | drop t | cancel t | isCancelled t =>
    exact hg.sound.alive (Option.ite_none_right_eq_some.mp h).1

omit [DecidableEq τ] in
/-- A step below. -/
theorem Guarded.spawn (hg : Guarded Q s) {lab : Label B E V ρ} {u : State B E V ρ}
    (hst : step what s.spawn lab = some u) : Guarded Q { s with spawn := u } := by
  rcases step_base hst with ⟨hbase, -⟩ | ⟨l, -, hl, -⟩
  · exact ⟨hbase ▸ hg.base, hg.sound, fun job hjob => hbase ▸ hg.lt job hjob, hg.mem,
      fun job hjob => hbase ▸ hg.kept job hjob⟩
  · refine ⟨hg.base.next hl, hg.sound, fun job hjob => ?_, hg.mem, fun job hjob => ?_⟩
    · have hlt := hg.lt job hjob
      show job < Q.next u.base
      cases Q.handed hg.base hl with
      | same hn => omega
      | new hn => omega
    · exact (hg.kept job hjob).imp_right fun hr => hr.step hg.base hl

/-- **Every step leaves the holders counted, and each task its context.** -/
theorem Guarded.step (hg : Guarded Q s) (h : stepCancellable Q what s x = some s') :
    Guarded Q s' := by
  cases x with
  | spawn l =>
    obtain ⟨u, hst, rfl⟩ := Option.map_eq_some_iff.mp h
    exact hg.spawn hst
  | spawnCancellable t l =>
    obtain ⟨ht, h⟩ := Option.ite_none_right_eq_some.mp h
    obtain ⟨u, hst, h⟩ := Option.bind_eq_some_iff.mp h
    obtain ⟨hnext, h⟩ := Option.ite_none_right_eq_some.mp h
    obtain rfl := Option.some.inj h
    have hu := hg.spawn hst
    have hnew : .context (Q.next s.spawn.base) ∉ s.shared.owners := fun hc =>
      lt_irrefl _ (hg.lt _ (hg.mem _ hc))
    refine ⟨hu.base, hg.sound.copy ht hnew, fun job hjob => ?_, fun job hjob => ?_,
      fun job hjob => ?_⟩
    · rcases List.mem_append.mp hjob with hold | hjob
      · exact hu.lt job hold
      · show job < Q.next u.base
        rw [List.mem_singleton.mp hjob, hnext]
        exact Nat.lt_succ_self _
    · rcases Finset.mem_insert.mp hjob with he | hold
      · rw [Holder.context.inj he]
        exact List.mem_append_right _ (List.mem_singleton_self _)
      · exact List.mem_append_left _ (hg.mem job hold)
    · rcases List.mem_append.mp hjob with hold | hjob
      · exact (hu.kept job hold).imp_left Finset.mem_insert_of_mem
      · rw [List.mem_singleton.mp hjob]
        exact .inl (Finset.mem_insert_self _ _)
  | copy t u =>
    obtain ⟨⟨ht, hu⟩, h⟩ := Option.ite_none_right_eq_some.mp h
    obtain rfl := Option.some.inj h
    refine ⟨hg.base, hg.sound.copy ht hu, hg.lt, fun job hjob => ?_, fun job hjob => ?_⟩
    · exact hg.mem job (Finset.mem_of_mem_insert_of_ne hjob (by simp))
    · exact (hg.kept job hjob).imp_left Finset.mem_insert_of_mem
  | drop t =>
    obtain ⟨ht, h⟩ := Option.ite_none_right_eq_some.mp h
    obtain rfl := Option.some.inj h
    refine ⟨hg.base, hg.sound.drop ht, hg.lt, fun job hjob => ?_, fun job hjob => ?_⟩
    · exact hg.mem job (Finset.mem_of_mem_erase hjob)
    · exact (hg.kept job hjob).imp_left fun hc => Finset.mem_erase.mpr ⟨by simp, hc⟩
  | destroy job =>
    obtain ⟨⟨hjob, hret⟩, h⟩ := Option.ite_none_right_eq_some.mp h
    obtain rfl := Option.some.inj h
    refine ⟨hg.base, hg.sound.drop hjob, hg.lt, fun j hj => ?_, fun j hj => ?_⟩
    · exact hg.mem j (Finset.mem_of_mem_erase hj)
    · rcases eq_or_ne j job with rfl | hne
      · exact .inr hret
      · exact (hg.kept j hj).imp_left fun hc => Finset.mem_erase.mpr ⟨by simpa using hne, hc⟩
  | poll w =>
    simp only [stepCancellable] at h
    split at h
    · obtain ⟨-, h⟩ := Option.ite_none_right_eq_some.mp h
      exact Option.some.inj h ▸ hg
    · exact absurd h (by simp)
  | cancel t =>
    obtain ⟨-, h⟩ := Option.ite_none_right_eq_some.mp h
    obtain rfl := Option.some.inj h
    exact ⟨hg.base, hg.sound, hg.lt, hg.mem, hg.kept⟩
  | isCancelled t =>
    obtain ⟨-, h⟩ := Option.ite_none_right_eq_some.mp h
    exact Option.some.inj h ▸ hg

theorem path_guarded (h₀ : (cancellable Q what V ρ τ).init s₀)
    (h : (cancellable Q what V ρ τ).Path Machine.Free s₀ tr s) : Guarded Q s := by
  obtain ⟨spawn, t, ⟨b, hb, rfl⟩, rfl⟩ := h₀
  refine h.preserves (fun _ _ _ _ hst hg => hg.step hst) ⟨⟨[], b, hb, .nil⟩,
    Shared.sound_make ⟨_, Finset.mem_singleton_self _⟩, ?_, ?_, ?_⟩
  · intro job hjob
    exact absurd hjob List.not_mem_nil
  · intro job hjob
    exact absurd (Finset.mem_singleton.mp hjob) (by simp)
  · intro job hjob
    exact absurd hjob List.not_mem_nil

/-- **Cancellation is sound, and nothing to the scheduler.** On each backend, in every run: whoever
cancels, asks or shares the flag finds it not freed, though all tokens may be gone while tasks run;
it is freed once, with its last holder; a task that runs has the context it was spawned with; the
answers are those of a flag that `cancel` sets for good; and below, it is a run of the scheduler. -/
theorem cancellation_sound [NeZero N] {ω : Type} [Fintype ω] [DecidableEq ω] {k : Kind}
    {s₀ s : Cancellable (backend N ω k) E V ρ τ} {tr : List (CancelLabel (backend N ω k) E V ρ τ)}
    (h₀ : (cancellable (poolLaws N ω k) what V ρ τ).init s₀)
    (h : (cancellable (poolLaws N ω k) what V ρ τ).Path Machine.Free s₀ tr s) :
    (cancellable (poolLaws N ω k) what V ρ τ).Path
        (fun s x => x.touches = true → s.shared.frees = 0) s₀ tr s ∧
      s.shared.frees = (if s.shared.owners = ∅ then 1 else 0) ∧
      (∀ w job, (backend N ω k).running s.spawn.base w = some job → job ∈ s.contexts →
        .context job ∈ s.shared.owners) ∧
      (cancellable (poolLaws N ω k) what V ρ τ).observe answers s₀ tr = flagAnswers false tr ∧
      (machine (backend N ω k) what V ρ).Path Machine.Free s₀.spawn
        (tr.flatMap CancelLabel.below) s.spawn := by
  have hg := path_guarded h₀ h
  refine ⟨?_, ?_, fun w job => hg.running, ?_, path_below h⟩
  · clear hg
    induction h with
    | nil => exact .nil
    | snoc hpath _ hst ih => exact ih.snoc ((path_guarded h₀ hpath).alive hst) hst
  · rw [hg.sound.freed, hg.sound.count]
    simp only [Finset.card_eq_zero]
  · rw [observe_answers h.exec]
    obtain ⟨spawn, t, -, rfl⟩ := h₀
    rfl

/-- A task is cancelled while it runs, and the token is gone before it asks again. -/
def cancelOne : List (CancelLabel OneWorker Unit Unit Unit Unit) :=
  let w : Fin 1 := ⟨0, Nat.one_pos⟩
  let call : Monitor.Label 1 Unit := .client () ⟨.normal, none⟩
  let finish : Monitor.Label 1 Unit := .finish w
  .spawnCancellable () call :: submitOne.tail.map .spawn ++
    [.poll w, .cancel (), .drop (), .poll w] ++ throwOne.map .spawn ++
    [.spawn (.base finish), .destroy 0]

theorem cancellation_sound_one : ∃ s : Cancellable OneWorker Unit Unit Unit Unit,
    (cancellable (poolLaws 1 Unit .globalQueue) (fun _ : Unit => none) Unit Unit Unit).observe
      answers ⟨initialOne, false, .make {.token ()}, []⟩ cancelOne = [false, true] ∧
    s.contexts = [0] ∧ s.shared.frees = 1 := by
  let M := cancellable (poolLaws 1 Unit .globalQueue) (fun _ : Unit => none) Unit Unit Unit
  let s₀ : Cancellable OneWorker Unit Unit Unit Unit := ⟨initialOne, false, .make {.token ()}, []⟩
  let s := (M.exec s₀ cancelOne).get (by decide +kernel)
  have hpath : M.Path Machine.Free s₀ cancelOne s := Machine.exec_path (Option.some_get _).symm
  obtain ⟨-, hfrees, -, hanswers, -⟩ := cancellation_sound ⟨_, (), initialOne_init, rfl⟩ hpath
  have hnone : s.shared.owners = ∅ := by decide +kernel
  exact ⟨s, hanswers.trans (by rfl), by decide +kernel, hfrees.trans (if_pos hnone)⟩

end Wss.Spawn
