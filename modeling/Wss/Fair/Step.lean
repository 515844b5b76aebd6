import Wss.Fair.Model

/-!
# What a step of `FairScheduler` can do

`Move s l s'` lists the steps, with the critical sections as changes of the tables.

Results:
* `step_move`: every step of the code is one of them.
* `reachable_ok`: the tables agree with each other in every reachable state.
-/

namespace Wss.Fair

open Wss.Lib

variable {R : Type} {N : ℕ} {ω : Type}
variable [Zero R] [One R] [Add R] [Div R] [LE R] [DecidableLE R] [LT R] [DecidableLT R]

/-- The steps of a call of `submit`. -/
inductive Submitting (s : State R N ω) :
    SubmitPc R → State R N ω → Option (SubmitPc R) → Prop
  | count {job opts} :
      Submitting s (.count job opts) { s with pending := s.pending + 1 } (some (.enqueue job opts))
  | enqueue {job opts t₁ t id} :
      t₁ = s.tables ∨ Change s.tables (.create opts.name opts.classWeight) t₁ →
      t₁.nameToId opts.name = some id → Change t₁ (.push id job) t →
      Submitting s (.enqueue job opts)
        { s with tables := t, enqueued := s.enqueued ++ [(id, job)] } (some (.ring job))
  | ring {job} : Submitting s (.ring job) { s with gen := s.gen + 1 } (some (.done job))
  | done {job} : Submitting s (.done job) s none

variable {s s' : State R N ω}

theorem stepSubmit_submitting {call : SubmitPc R} {call' : Option (SubmitPc R)}
    (h : stepSubmit s call = some (s', call')) : Submitting s call s' call' := by
  cases call with
  | enqueue job opts =>
    obtain ⟨⟨t, id⟩, ht, he⟩ := Option.map_eq_some_iff.mp h
    obtain ⟨rfl, rfl⟩ := Prod.mk.inj he
    obtain ⟨t₁, h1, h2, h3⟩ := enqueue_change ht
    exact .enqueue h1 h2 h3
  | count | ring | done =>
    obtain ⟨rfl, rfl⟩ := Prod.mk.inj (Option.some.inj h)
    constructor

omit [DecidableLE R] in
/-- A step of `submit` leaves the program counters to its caller. -/
theorem Submitting.frame {call : SubmitPc R} {call' : Option (SubmitPc R)}
    (h : Submitting s call s' call') :
    s'.worker = s.worker ∧ s'.client = s.client ∧ s'.control = s.control ∧
      s'.shutdownFlag = s.shutdownFlag ∧ s'.next = s.next ∧ s'.dispatched = s.dispatched ∧
      s'.finished = s.finished ∧ s'.delivered = s.delivered ∧ s'.joined = s.joined ∧
      s'.accounted = s.accounted := by
  cases h <;> exact ⟨rfl, rfl, rfl, rfl, rfl, rfl, rfl, rfl, rfl, rfl⟩

variable [DecidableEq ω]

/-- The steps of the scheduler, by what they do. -/
inductive Move (s : State R N ω) : Label R N ω → State R N ω → Prop
  | client {c opts} : s.client c = none → Move s (.client c opts)
      { s with
        client := Function.update s.client c (some (.count s.next opts)), next := s.next + 1 }
  | clientStep {c call call' s₁} : s.client c = some call → Submitting s call s₁ call' →
      Move s (.clientStep c) { s₁ with client := Function.update s₁.client c call' }
  | register {name weight t} : Change s.tables (.create name weight) t →
      Move s (.register name weight) { s with tables := t }
  | nested {w opts id job} : s.worker w = .body id job none → Move s (.nested w opts)
      { s.setWorker w (.body id job (some (.count s.next opts))) with next := s.next + 1 }
  | nestedStep {w id job call call' s₁} : s.worker w = .body id job (some call) →
      Submitting s call s₁ call' → Move s (.worker w) (s₁.setWorker w (.body id job call'))
  | finish {w id job} : s.worker w = .body id job none → Move s (.finish w)
      { s.setWorker w (.deliver id job) with finished := s.finished ++ [job] }
  | current {w} : s.worker w = .current →
      Move s (.worker w) (s.setWorker w (.dispatch (s.gen % 2 ^ 64)))
  | noJob {w gen} : s.worker w = .dispatch gen → s.tables.ready = [] →
      Move s (.worker w) (s.setWorker w (.loadFlag gen))
  | take {w gen id job t} : s.worker w = .dispatch gen → Change s.tables (.take id job) t →
      Move s (.worker w) ({ s with
        tables := t, dispatched := s.dispatched ++ [(id, job)] }.setWorker w (.body id job none))
  | deliver {w id job} : s.worker w = .deliver id job → Move s (.worker w)
      ({ s with delivered := s.delivered ++ [(id, job)] }.setWorker w (.uncount id job))
  | uncount {w id job} : s.worker w = .uncount id job →
      Move s (.worker w) ({ s with pending := s.pending - 1 }.setWorker w (.ring id job))
  | ring {w id job} : s.worker w = .ring id job →
      Move s (.worker w) ({ s with gen := s.gen + 1 }.setWorker w (.account id job))
  | account {w id job elapsed t} : s.worker w = .account id job →
      Change s.tables (.account id elapsed) t → Move s (.account w elapsed)
      ({ s with
        tables := t, accounted := s.accounted ++ [(id, job, elapsed)] }.setWorker w .current)
  | flag {w gen} : s.worker w = .loadFlag gen → s.shutdownFlag = true →
      Move s (.worker w) (s.setWorker w (.loadPending gen))
  | noFlag {w gen} : s.worker w = .loadFlag gen → s.shutdownFlag = false →
      Move s (.worker w) (s.setWorker w (.wait gen))
  | noPending {w gen} : s.worker w = .loadPending gen → s.pending = 0 →
      Move s (.worker w) (s.setWorker w .exited)
  | pending {w gen} : s.worker w = .loadPending gen → s.pending ≠ 0 →
      Move s (.worker w) (s.setWorker w (.wait gen))
  | wake {w gen} : s.worker w = .wait gen → s.gen % 2 ^ 64 ≠ gen →
      Move s (.worker w) (s.setWorker w .current)
  | join {id job} : (id, job) ∈ s.delivered → (id, job) ∉ s.joined →
      Move s (.join id job) { s with joined := s.joined ++ [(id, job)] }
  | shutdown : s.control = .idle ∨ s.control = .returned →
      Move s .shutdown { s with control := .store }
  | store : s.control = .store →
      Move s .control { s with shutdownFlag := true, control := .ring }
  | controlRing : s.control = .ring →
      Move s .control { s with gen := s.gen + 1, control := joinNext N 0 }
  | joinWorker {k} (h : k < N) : s.control = .join k → s.worker ⟨k, h⟩ = .exited →
      Move s .control { s with control := joinNext N (k + 1) }

omit [Zero R] [One R] [Add R] [Div R] [LE R] [DecidableLE R] [LT R] [DecidableLT R]
  [DecidableEq ω] in
theorem hasExited_iff {w : Fin N} : s.hasExited w = true ↔ s.worker w = .exited := by
  unfold State.hasExited
  split <;> simp_all

/-- **Every step of the code is a `Move`.** -/
theorem step_move {l : Label R N ω} (h : step s l = some s') : Move s l s' := by
  cases l with
  | client c opts =>
    simp only [step] at h
    split at h
    · rename_i hc
      obtain rfl := Option.some.inj h
      exact .client hc
    · exact absurd h (by simp)
  | clientStep c =>
    simp only [step] at h
    split at h
    · exact absurd h (by simp)
    · rename_i call hc
      obtain ⟨⟨s₁, call'⟩, h₁, rfl⟩ := Option.map_eq_some_iff.mp h
      exact .clientStep hc (stepSubmit_submitting h₁)
  | register name weight =>
    obtain ⟨t, ht, rfl⟩ := Option.map_eq_some_iff.mp h
    exact .register (registerClass_change ht)
  | nested w opts =>
    simp only [step] at h
    split at h
    · rename_i id job hpc
      obtain rfl := Option.some.inj h
      exact .nested hpc
    · exact absurd h (by simp)
  | finish w =>
    simp only [step] at h
    split at h
    · rename_i id job hpc
      obtain rfl := Option.some.inj h
      exact .finish hpc
    · exact absurd h (by simp)
  | account w elapsed =>
    simp only [step] at h
    split at h
    · rename_i id job hpc
      obtain ⟨t, ht, rfl⟩ := Option.map_eq_some_iff.mp h
      exact .account hpc (account_change ht)
    · exact absurd h (by simp)
  | join id job =>
    simp only [step] at h
    split_ifs at h with hj
    obtain rfl := Option.some.inj h
    exact .join hj.1 hj.2
  | shutdown =>
    simp only [step] at h
    split at h
    · rename_i hc
      obtain rfl := Option.some.inj h
      exact .shutdown (.inl hc)
    · rename_i hc
      obtain rfl := Option.some.inj h
      exact .shutdown (.inr hc)
    · exact absurd h (by simp)
  | control =>
    simp only [step, stepControl] at h
    split at h
    · exact absurd h (by simp)
    · exact absurd h (by simp)
    · rename_i hc
      obtain rfl := Option.some.inj h
      exact .store hc
    · rename_i hc
      obtain rfl := Option.some.inj h
      exact .controlRing hc
    · rename_i k hc
      split_ifs at h with hk hw
      obtain rfl := Option.some.inj h
      exact .joinWorker hk hc (hasExited_iff.mp hw)
  | worker w =>
    simp only [step, stepWorker] at h
    split at h
    · rename_i hpc
      obtain rfl := Option.some.inj h
      exact .current hpc
    · rename_i gen hpc
      obtain ⟨⟨t, r⟩, ht, rfl⟩ := Option.map_eq_some_iff.mp h
      rcases dispatch_change ht with ⟨rfl, hr, rfl⟩ | ⟨id, job, rfl, hc⟩
      · exact .noJob hpc hr
      · exact .take hpc hc
    · exact absurd h (by simp)
    · rename_i id job call hpc
      obtain ⟨⟨s₁, call'⟩, h₁, rfl⟩ := Option.map_eq_some_iff.mp h
      exact .nestedStep hpc (stepSubmit_submitting h₁)
    · rename_i id job hpc
      obtain rfl := Option.some.inj h
      exact .deliver hpc
    · rename_i id job hpc
      obtain rfl := Option.some.inj h
      exact .uncount hpc
    · rename_i id job hpc
      obtain rfl := Option.some.inj h
      exact .ring hpc
    · exact absurd h (by simp)
    · rename_i gen hpc
      split_ifs at h with hf
      · obtain rfl := Option.some.inj h
        exact .flag hpc hf
      · obtain rfl := Option.some.inj h
        exact .noFlag hpc (by simpa using hf)
    · rename_i gen hpc
      split_ifs at h with hp
      · obtain rfl := Option.some.inj h
        exact .noPending hpc hp
      · obtain rfl := Option.some.inj h
        exact .pending hpc hp
    · rename_i gen hpc
      split_ifs at h with hg
      obtain rfl := Option.some.inj h
      exact .wake hpc hg
    · exact absurd h (by simp)

/-! ## The tables along a run -/

section Preserves

variable {P : Tables R → Prop} (hP : ∀ {t o t'}, Change t o t' → P t → P t')
include hP

omit [DecidableLE R] [DecidableEq ω] in
theorem Submitting.preserves {call : SubmitPc R} {call' : Option (SubmitPc R)}
    (h : Submitting s call s' call') (hp : P s.tables) : P s'.tables := by
  cases h with
  | enqueue h1 _ h3 => exact hP h3 (h1.elim (fun h => h ▸ hp) fun h => hP h hp)
  | count | ring | done => exact hp

omit [DecidableLE R] in
/-- What every change of the tables keeps, a step keeps. -/
theorem Move.preserves {l : Label R N ω} (h : Move s l s') (hp : P s.tables) : P s'.tables := by
  cases h with
  | clientStep _ h | nestedStep _ h => exact (h.preserves hP hp :)
  | register h | take _ h | account _ h => exact hP h hp
  | _ => exact hp

end Preserves

/-- **The tables agree with each other in every reachable state.** -/
theorem reachable_ok (h : (machine R N ω).Reachable s) : s.tables.Ok := by
  refine h.invariant (I := fun s => s.tables.Ok) (fun s hs => ?_)
    fun _ _ _ _ _ hst ht => (step_move hst).preserves Change.ok ht
  simp only [machine, construct] at hs
  split_ifs at hs
  obtain rfl := Option.some.inj hs
  exact Tables.emptyTables_ok

end Wss.Fair
