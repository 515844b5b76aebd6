import Wss.Fair.Step

/-!
# What a step of `FairScheduler` does to the tables

A step is seen through three windows: the class that it looks up in `find_or_create_class_locked`
(`lookup`), the entry that it takes from `ready_` (`dispatched`) and the job that it accounts for
(`completed`). `Effect s l t` lists what a step can do to the tables together with what is seen of
it. `lookups`, `dispatches` and `completions` are what is seen along a run.

Results:
* `step_effect`: a step takes one entry at most, accounts for one job at most, and changes the
  tables as this needs.
-/

namespace Wss.Fair

open Wss.Lib

variable {R : Type} {N : ℕ} {ω : Type}

section Seen

variable [One R] [Zero R] [LT R] [DecidableLT R]

/-- What a call of `submit` is about to hand to `find_or_create_class_locked`. -/
def SubmitPc.lookup : SubmitPc R → List (String × R)
  | .enqueue _ opts => [(opts.name, opts.classWeight)]
  | .count .. | .ring _ | .done _ => []

/-- The name and the weight that a step hands to `find_or_create_class_locked`. -/
def lookup (s : State R N ω) : Label R N ω → List (String × R)
  | .register name weight => [(name, weight)]
  | .clientStep c => (s.client c).elim [] SubmitPc.lookup
  | .worker w =>
    match s.worker w with
    | .body _ _ (some call) => call.lookup
    | _ => []
  | _ => []

/-- A weight comes from `register_class`, or from `submit`. -/
theorem mem_lookup {s : State R N ω} {l : Label R N ω} {x : String × R} (h : x ∈ lookup s l) :
    l = .register x.1 x.2 ∨ ∃ opts : SubmitOptions R, x = (opts.name, opts.classWeight) := by
  have hcall : ∀ {call : SubmitPc R}, x ∈ call.lookup →
      ∃ opts : SubmitOptions R, x = (opts.name, opts.classWeight) := by
    intro call hx
    cases call with
    | enqueue job opts => exact ⟨opts, List.mem_singleton.mp hx⟩
    | count | ring | done => exact absurd hx List.not_mem_nil
  unfold lookup at h
  split at h
  · obtain rfl := List.mem_singleton.mp h
    exact .inl rfl
  · rename_i c
    cases hc : s.client c with
    | none =>
      rw [hc] at h
      exact absurd h List.not_mem_nil
    | some call =>
      rw [hc] at h
      exact .inr (hcall h)
  · split at h
    · exact .inr (hcall h)
    · exact absurd h List.not_mem_nil
  · exact absurd h List.not_mem_nil

end Seen

/-- The entry that a step takes from `ready_`. -/
def dispatched (s : State R N ω) : Label R N ω → List (R × ClassId)
  | .worker w =>
    match s.worker w with
    | .dispatch _ => s.tables.ready.take 1
    | _ => []
  | _ => []

/-- The class of the job that a step accounts for, and the time it took. -/
def completed (s : State R N ω) : Label R N ω → List (ClassId × R)
  | .account w elapsed =>
    match s.worker w with
    | .account id _ => [(id, elapsed)]
    | _ => []
  | _ => []

/-- The entry taken is the first one. -/
theorem dispatched_head {s : State R N ω} {l : Label R N ω} {key : R} {id : ClassId}
    (h : dispatched s l = [(key, id)]) : ∃ ready, s.tables.ready = (key, id) :: ready := by
  unfold dispatched at h
  split at h
  · split at h
    · rw [List.take_one] at h
      exact List.head?_eq_some_iff.mp (Option.toList_eq_singleton_iff.mp h)
    · exact absurd h.symm (List.cons_ne_nil _ _)
  · exact absurd h.symm (List.cons_ne_nil _ _)

/-- A job is accounted for by the worker that ran it. -/
theorem mem_completed {s : State R N ω} {l : Label R N ω} {x : ClassId × R}
    (h : x ∈ completed s l) : ∃ w, l = .account w x.2 := by
  unfold completed at h
  split at h
  · split at h
    · obtain rfl := List.mem_singleton.mp h
      exact ⟨_, rfl⟩
    · exact absurd h List.not_mem_nil
  · exact absurd h List.not_mem_nil

variable [Zero R] [One R] [Add R] [Div R] [LE R] [DecidableLE R] [LT R] [DecidableLT R]

/-- What a step does to the tables. -/
inductive Effect (s : State R N ω) (l : Label R N ω) : Tables R → Prop
  | quiet : lookup s l = [] → dispatched s l = [] → completed s l = [] → Effect s l s.tables
  | register {name weight t} : lookup s l = [(name, weight)] → dispatched s l = [] →
      completed s l = [] → Change s.tables (.create name weight) t → Effect s l t
  | file {job name weight t₁ t id} : lookup s l = [(name, weight)] → dispatched s l = [] →
      completed s l = [] → t₁ = s.tables ∨ Change s.tables (.create name weight) t₁ →
      t₁.nameToId name = some id → Change t₁ (.push id job) t → Effect s l t
  | take {key id job t} : lookup s l = [] → dispatched s l = [(key, id)] → completed s l = [] →
      s.tables.ready.head? = some (key, id) → Change s.tables (.take id job) t → Effect s l t
  | account {id elapsed t} : lookup s l = [] → dispatched s l = [] →
      completed s l = [(id, elapsed)] → Change s.tables (.account id elapsed) t → Effect s l t

variable {s s' : State R N ω} {l : Label R N ω}

omit [One R] [DecidableLE R] in
/-- A job is taken with the first entry. -/
theorem Change.take_head {t t' : Tables R} {id : ClassId} {job : ℕ}
    (h : Change t (.take id job) t') : ∃ key, t.ready.head? = some (key, id) := by
  cases h with
  | take hr | drain hr => exact ⟨_, by rw [hr]; rfl⟩

omit [DecidableLE R] in
/-- A step of a call of `submit`, made by label `l`. -/
theorem Submitting.effect {call : SubmitPc R} {call' : Option (SubmitPc R)}
    (h : Submitting s call s' call') (hl : lookup s l = call.lookup) (hd : dispatched s l = [])
    (hc : completed s l = []) : Effect s l s'.tables := by
  cases h with
  | enqueue h1 h2 h3 => exact .file hl hd hc h1 h2 h3
  | count | ring | done => exact .quiet hl hd hc

variable [DecidableEq ω]

omit [DecidableLE R] in
/-- **A step takes at most one entry, accounts for at most one job, and changes the tables as this
needs.** -/
theorem Move.effect (h : Move s l s') : Effect s l s'.tables := by
  cases h with
  | client | nested | finish | join | shutdown | store | controlRing | joinWorker =>
    exact .quiet rfl rfl rfl
  | clientStep hcl hsub => exact hsub.effect (by simp [lookup, hcl]) rfl rfl
  | nestedStep hw hsub =>
    exact hsub.effect (by simp [lookup, hw]) (by simp [dispatched, hw]) rfl
  | register hc => exact .register rfl rfl rfl hc
  | noJob hw hr =>
    exact .quiet (by simp [lookup, hw]) (by simp [dispatched, hw, hr]) rfl
  | @take w gen id job t hw hc =>
    obtain ⟨key, hr⟩ := hc.take_head
    have hd : s.tables.ready.take 1 = [(key, id)] := by
      rw [List.take_one, hr]
      rfl
    exact .take (by simp [lookup, hw]) (by simp [dispatched, hw, hd]) rfl hr hc
  | account hw hc => exact .account rfl rfl (by simp [completed, hw]) hc
  | current hw | deliver hw | uncount hw | ring hw | flag hw | noFlag hw | noPending hw
  | pending hw | wake hw =>
    exact .quiet (by simp [lookup, hw]) (by simp [dispatched, hw]) rfl

theorem step_effect (h : step s l = some s') : Effect s l s'.tables := (step_move h).effect

omit [DecidableLE R] in
/-- A job is filed by a call of `submit`, which creates its class if it is new. -/
theorem Move.files {id : ClassId} {job : ℕ} (h : Move s l s')
    (he : s'.enqueued = s.enqueued ++ [(id, job)]) :
    ∃ t₁, (t₁ = s.tables ∨ ∃ name weight, Change s.tables (.create name weight) t₁) ∧
      Change t₁ (.push id job) s'.tables := by
  have hsame : ∀ {s' : State R N ω}, s'.enqueued = s.enqueued →
      s'.enqueued ≠ s.enqueued ++ [(id, job)] := fun heq h => by
    simpa using heq.symm.trans h
  have hsub : ∀ {call call'} {s₁ : State R N ω}, Submitting s call s₁ call' →
      s₁.enqueued = s.enqueued ++ [(id, job)] →
      ∃ t₁, (t₁ = s.tables ∨ ∃ name weight, Change s.tables (.create name weight) t₁) ∧
        Change t₁ (.push id job) s₁.tables := by
    intro call call' s₁ h he
    cases h with
    | count | ring | done => exact absurd he (hsame rfl)
    | @enqueue job' opts t₁ t id' h1 _ h3 =>
      obtain ⟨rfl, rfl⟩ := Prod.mk.inj (List.singleton_inj.mp (List.append_cancel_left he))
      exact ⟨t₁, h1.imp id fun h => ⟨_, _, h⟩, h3⟩
  cases h with
  | clientStep _ h | nestedStep _ h => exact (hsub h he :)
  | _ => exact absurd he (hsame rfl)

/-- The classes looked up along a run. -/
def lookups (s : State R N ω) (tr : List (Label R N ω)) : List (String × R) :=
  (machine R N ω).observe lookup s tr

/-- The entries taken along a run. -/
def dispatches (s : State R N ω) (tr : List (Label R N ω)) : List (R × ClassId) :=
  (machine R N ω).observe dispatched s tr

/-- The jobs accounted for along a run. -/
def completions (s : State R N ω) (tr : List (Label R N ω)) : List (ClassId × R) :=
  (machine R N ω).observe completed s tr

end Wss.Fair
