import Wss.Lib.Mutex
import Wss.Monitor.Model

/-!
# What a step of a backend on condition variables can do

`Move L s l s'` lists the steps.

Results:
* `step_move`: every step of the code is one of them.
* `reachable_owned`: every mutex is held by the thread that is inside its critical section, and by
  no other.
-/

namespace Wss.Monitor

open Wss.Lib

variable {N K : ℕ} {Q ω : Type} (L : Layout N K Q)

/-- The steps of a call of `submit` by thread `t`. -/
inductive Submitting (s : State N K Q ω) (t : Thread N ω) :
    SubmitPc K → State N K Q ω → Option (SubmitPc K) → Prop
  | ticket {job p} : Submitting s t (.ticket job p)
      { s with next := s.next + 1, tickets := s.tickets ++ [job] }
      (some (.lock job (L.ticketed (s.next % 2 ^ 64)) p))
  | lock {job k p} : s.holder k = none →
      Submitting s t (.lock job k p) (s.setHolder k (some t)) (some (.push job k p))
  | push {job k p} : Submitting s t (.push job k p)
      (s.setQueues k (L.push p job (s.queues k)) (.enqueue p job)) (some (.unlock job k))
  | unlock {job k} :
      Submitting s t (.unlock job k) (s.setHolder k none) (some (.notify job k))
  | notifyNone {job k} : (∀ w, L.core w = k → s.worker w ≠ .waiting) →
      Submitting s t (.notify job k) s (some (.done job))
  | notify {job k w} : L.core w = k → s.worker w = .waiting →
      Submitting s t (.notify job k) (s.setWorker w .lock) (some (.done job))
  | done {job} : Submitting s t (.done job) { s with returned := s.returned ++ [job] } none

/-- The steps of the scheduler, by what they do. -/
inductive Move [DecidableEq ω] (s : State N K Q ω) : Label N ω → State N K Q ω → Prop
  | client {c opts} : s.client c = none → Move s (.client c opts)
      { s with
        client := Function.update s.client c (some (enter L s.submitted.length opts))
        submitted := s.submitted ++ [opts] }
  | clientStep {c wakes call call' s₁} : s.client c = some call →
      Submitting L s (.inr c) call s₁ call' →
      Move s (.clientStep c wakes) { s₁ with client := Function.update s₁.client c call' }
  | nested {w opts job} : s.worker w = .body job none → Move s (.nested w opts)
      { s.setWorker w (.body job (some (enter L s.submitted.length opts))) with
        submitted := s.submitted ++ [opts] }
  | nestedStep {w wakes job call call' s₁} : s.worker w = .body job (some call) →
      Submitting L s (.inl w) call s₁ call' →
      Move s (.worker w wakes) (s₁.setWorker w (.body job call'))
  | finish {w job} : s.worker w = .body job none → Move s (.finish w)
      { s.setWorker w .lock with finished := s.finished ++ [(w, job)] }
  | lock {w wakes} : s.worker w = .lock → s.holder (L.core w) = none →
      Move s (.worker w wakes) ((s.setHolder (L.core w) (some (.inl w))).setWorker w .search)
  | take {w wakes job q} : s.worker w = .search → L.pop (s.queues (L.core w)) = some (job, q) →
      Move s (.worker w wakes)
        ((s.setQueues (L.core w) q (.dequeue w job)).setWorker w (.unlock job))
  | noJob {w wakes} : s.worker w = .search → L.pop (s.queues (L.core w)) = none →
      Move s (.worker w wakes) (s.setWorker w .loadFlag)
  | flag {w wakes} : s.worker w = .loadFlag → s.shutdownFlag = true →
      Move s (.worker w wakes) (s.setWorker w .leave)
  | noFlag {w wakes} : s.worker w = .loadFlag → s.shutdownFlag = false →
      Move s (.worker w wakes) (s.setWorker w .wait)
  | wait {w wakes} : s.worker w = .wait →
      Move s (.worker w wakes) ((s.setHolder (L.core w) none).setWorker w .waiting)
  | unlock {w wakes job} : s.worker w = .unlock job → Move s (.worker w wakes)
      { (s.setHolder (L.core w) none).setWorker w (.body job none) with
        started := s.started ++ [(w, job)] }
  | leave {w wakes} : s.worker w = .leave →
      Move s (.worker w wakes) ((s.setHolder (L.core w) none).setWorker w .exited)
  | spurious {w} : s.worker w = .waiting → Move s (.spurious w) (s.setWorker w .lock)
  | shutdown : s.control = .idle ∨ s.control = .returned →
      Move s .shutdown { s with control := .store }
  | store : s.control = .store →
      Move s .control { s with shutdownFlag := true, control := notifyNext N K 0 }
  | notifyAll {k} (h : k < K) : s.control = .notify k →
      Move s .control { notifyAll L s ⟨k, h⟩ with control := notifyNext N K (k + 1) }
  | join {k} (h : k < N) : s.control = .join k → s.worker ⟨k, h⟩ = .exited →
      Move s .control { s with control := joinNext N (k + 1) }

variable {L} {s s' : State N K Q ω} {t : Thread N ω}

theorem acquire_eq {k : Fin K} (h : s.acquire k t = some s') :
    s.holder k = none ∧ s' = s.setHolder k (some t) := by
  unfold State.acquire at h
  split at h
  · rename_i hk
    exact ⟨hk, (Option.some.inj h).symm⟩
  · exact absurd h (by simp)

theorem stepSubmit_submitting {call : SubmitPc K} {call' : Option (SubmitPc K)}
    {wakes : Option (Fin N)} (h : stepSubmit L s t wakes call = some (s', call')) :
    Submitting L s t call s' call' := by
  cases call with
  | lock job k p =>
    obtain ⟨s₁, h₁, he⟩ := Option.map_eq_some_iff.mp h
    obtain ⟨hk, rfl⟩ := acquire_eq h₁
    obtain ⟨rfl, rfl⟩ := Prod.mk.inj he
    exact .lock hk
  | notify job k =>
    obtain ⟨s₁, h₁, he⟩ := Option.map_eq_some_iff.mp h
    obtain ⟨rfl, rfl⟩ := Prod.mk.inj he
    cases wakes with
    | none =>
      simp only [notifyOne] at h₁
      split_ifs at h₁ with hw
      obtain rfl := Option.some.inj h₁
      exact .notifyNone fun w hk hwait => hw ⟨w, hk, hwait⟩
    | some w =>
      simp only [notifyOne] at h₁
      split_ifs at h₁ with hw
      obtain rfl := Option.some.inj h₁
      exact .notify hw.1 hw.2
  | ticket | push | unlock | done =>
    obtain ⟨rfl, rfl⟩ := Prod.mk.inj (Option.some.inj h)
    constructor

variable [DecidableEq ω]

/-- **Every step of the code is a `Move`.** -/
theorem step_move {l : Label N ω} (h : step L s l = some s') : Move L s l s' := by
  cases l with
  | client c opts =>
    simp only [step] at h
    split at h
    · rename_i hc
      obtain rfl := Option.some.inj h
      exact .client hc
    · exact absurd h (by simp)
  | clientStep c wakes =>
    simp only [step] at h
    split at h
    · exact absurd h (by simp)
    · rename_i call hc
      obtain ⟨⟨s₁, call'⟩, h₁, rfl⟩ := Option.map_eq_some_iff.mp h
      exact .clientStep hc (stepSubmit_submitting h₁)
  | nested w opts =>
    simp only [step] at h
    split at h
    · rename_i job hpc
      obtain rfl := Option.some.inj h
      exact .nested hpc
    · exact absurd h (by simp)
  | finish w =>
    simp only [step] at h
    split at h
    · rename_i job hpc
      obtain rfl := Option.some.inj h
      exact .finish hpc
    · exact absurd h (by simp)
  | spurious w =>
    simp only [step] at h
    split_ifs at h with hpc
    obtain rfl := Option.some.inj h
    exact .spurious hpc
  | shutdown =>
    simp only [step] at h
    split at h
    · rename_i hc
      obtain rfl := Option.some.inj h
      exact .shutdown (.inl hc)
    · rename_i hc
      obtain rfl := Option.some.inj h
      exact .shutdown (.inr hc)
    · exact absurd h (by simp)
  | control =>
    simp only [step, stepControl] at h
    split at h
    · exact absurd h (by simp)
    · exact absurd h (by simp)
    · rename_i hc
      obtain rfl := Option.some.inj h
      exact .store hc
    · rename_i k hc
      split_ifs at h with hk
      obtain rfl := Option.some.inj h
      exact .notifyAll hk hc
    · rename_i k hc
      split_ifs at h with hk hw
      obtain rfl := Option.some.inj h
      exact .join hk hc hw
  | worker w wakes =>
    simp only [step, stepWorker] at h
    split at h
    · rename_i hpc
      obtain ⟨s₁, h₁, rfl⟩ := Option.map_eq_some_iff.mp h
      obtain ⟨hk, rfl⟩ := acquire_eq h₁
      exact .lock hpc hk
    · rename_i hpc
      split at h
      · rename_i job q hq
        obtain rfl := Option.some.inj h
        exact .take hpc hq
      · rename_i hq
        obtain rfl := Option.some.inj h
        exact .noJob hpc hq
    · rename_i hpc
      obtain rfl := Option.some.inj h
      split_ifs with hf
      · exact .flag hpc hf
      · exact .noFlag hpc (by simpa using hf)
    · rename_i hpc
      obtain rfl := Option.some.inj h
      exact .wait hpc
    · exact absurd h (by simp)
    · rename_i job hpc
      obtain rfl := Option.some.inj h
      exact .unlock hpc
    · rename_i hpc
      obtain rfl := Option.some.inj h
      exact .leave hpc
    · exact absurd h (by simp)
    · rename_i job call hpc
      obtain ⟨⟨s₁, call'⟩, h₁, rfl⟩ := Option.map_eq_some_iff.mp h
      exact .nestedStep hpc (stepSubmit_submitting h₁)
    · exact absurd h (by simp)

/-! ## Who has the mutexes -/

/-- The mutex that a call of `submit` has. -/
def SubmitPc.holds : SubmitPc K → Option (Fin K)
  | .push _ k _ | .unlock _ k => some k
  | _ => none

/-- The mutex that a worker at core `k` has. -/
def WorkerPc.holds (k : Fin K) : WorkerPc K → Option (Fin K)
  | .search | .loadFlag | .wait | .unlock _ | .leave => some k
  | .body _ call => call.bind SubmitPc.holds
  | _ => none

/-- The mutex that a thread has. -/
def State.holds (L : Layout N K Q) (s : State N K Q ω) : Thread N ω → Option (Fin K)
  | .inl w => (s.worker w).holds (L.core w)
  | .inr c => (s.client c).bind SubmitPc.holds

omit [DecidableEq ω] in
/-- A call of `submit` starts without a mutex. -/
theorem holds_enter (job : ℕ) (opts : SubmitOptions) : (enter L job opts).holds = none := by
  unfold enter
  split <;> rfl

omit [DecidableEq ω] in
theorem holds_of_worker {w : Fin N} {pc : WorkerPc K}
    (hw : s'.worker = Function.update s.worker w pc) (hc : s'.client = s.client) :
    ∀ u, u ≠ .inl w → s'.holds L u = s.holds L u
  | .inl u, hu => by
    have hne : u ≠ w := fun e => hu (congrArg Sum.inl e)
    simp only [State.holds, hw, Function.update_of_ne hne]
  | .inr _, _ => by simp only [State.holds, hc]

theorem holds_of_client {c : ω} {call : Option (SubmitPc K)} (hw : s'.worker = s.worker)
    (hc : s'.client = Function.update s.client c call) :
    ∀ u, u ≠ .inr c → s'.holds L u = s.holds L u
  | .inl _, _ => by simp only [State.holds, hw]
  | .inr d, hu => by
    have hne : d ≠ c := fun e => hu (congrArg Sum.inr e)
    simp only [State.holds, hc, Function.update_of_ne hne]

omit [DecidableEq ω] in
/-- Waking workers changes the mutex of no thread. -/
theorem holds_of_wake (hw : ∀ u, s'.worker u = s.worker u ∨
      s.worker u = .waiting ∧ s'.worker u = .lock) (hc : s'.client = s.client) :
    ∀ u, s'.holds L u = s.holds L u
  | .inl u => by
    rcases hw u with h | ⟨h, h'⟩
    · simp only [State.holds, h]
    · simp only [State.holds, h, h']
      rfl
  | .inr _ => by simp only [State.holds, hc]

omit [DecidableEq ω] in
theorem notifyAll_apply (s : State N K Q ω) (k : Fin K) (u : Fin N) :
    (notifyAll L s k).worker u =
      if L.core u = k ∧ s.worker u = .waiting then .lock else s.worker u :=
  rfl

omit [DecidableEq ω] in
theorem notifyAll_worker (s : State N K Q ω) (k : Fin K) (u : Fin N) :
    (notifyAll L s k).worker u = s.worker u ∨
      s.worker u = .waiting ∧ (notifyAll L s k).worker u = .lock := by
  rw [notifyAll_apply]
  split_ifs with hw
  · exact .inr ⟨hw.2, rfl⟩
  · exact .inl rfl

omit [DecidableEq ω] in
/-- A step of `submit` wakes workers at most, and leaves the other program counters to its
caller. -/
theorem Submitting.frame {call : SubmitPc K} {call' : Option (SubmitPc K)}
    (h : Submitting L s t call s' call') :
    (∀ u, s'.worker u = s.worker u ∨ s.worker u = .waiting ∧ s'.worker u = .lock) ∧
      s'.client = s.client ∧ s'.control = s.control ∧ s'.shutdownFlag = s.shutdownFlag ∧
      s'.submitted = s.submitted ∧ s'.started = s.started ∧ s'.finished = s.finished := by
  cases h with
  | @notify job k w hk hw =>
    refine ⟨fun u => ?_, rfl, rfl, rfl, rfl, rfl, rfl⟩
    by_cases hu : u = w
    · subst hu
      exact .inr ⟨hw, setWorker_self _ _ _⟩
    · exact .inl (setWorker_of_ne _ _ hu)
  | _ => exact ⟨fun _ => .inl rfl, rfl, rfl, rfl, rfl, rfl, rfl⟩

omit [DecidableEq ω] in
/-- A step of `submit` keeps the mutexes with their holders. -/
theorem Submitting.owned {call : SubmitPc K} {call' : Option (SubmitPc K)} {s₁ : State N K Q ω}
    (h : Submitting L s t call s₁ call') (ho : Owned s.holder (s.holds L))
    (ht : s.holds L t = call.holds) (hholder : s'.holder = s₁.holder)
    (hself : s'.holds L t = call'.bind SubmitPc.holds)
    (hother : ∀ u, u ≠ t → s'.holds L u = s.holds L u) : Owned s'.holder (s'.holds L) := by
  rw [hholder]
  cases h with
  | lock hfree => exact ho.acquire hfree ht hself hother
  | unlock => exact ho.release ht hself hother
  | ticket | push | notifyNone | notify | done =>
    refine ho.stay fun u => ?_
    by_cases hu : u = t
    · rw [hu, hself, ht]
      rfl
    · exact hother u hu

/-- **Every step keeps the mutexes with their holders.** -/
theorem Move.owned {l : Label N ω} (ho : Owned s.holder (s.holds L)) (h : Move L s l s') :
    Owned s'.holder (s'.holds L) := by
  cases h with
  | shutdown | store | join => exact ho
  | notifyAll hk hc =>
    exact ho.stay (holds_of_wake (notifyAll_worker s _) rfl)
  | @client c opts hc =>
    refine ho.stay fun u => ?_
    by_cases hu : u = .inr c
    · subst hu
      simp [State.holds, hc, holds_enter]
    · exact holds_of_client (by rfl) (by rfl) u hu
  | @clientStep c wakes call call' s₁ hc hsub =>
    obtain ⟨hwk, hcl, -⟩ := hsub.frame
    refine hsub.owned ho (by simp [State.holds, hc]) rfl (by simp [State.holds]) fun u hu => ?_
    exact (holds_of_client (s := s₁) (by rfl) (by rfl) u hu).trans (holds_of_wake hwk hcl u)
  | @nestedStep w wakes job call call' s₁ hpc hsub =>
    obtain ⟨hwk, hcl, -⟩ := hsub.frame
    refine hsub.owned ho (by simp [State.holds, hpc, WorkerPc.holds]) rfl
      (by simp [State.holds, WorkerPc.holds]) fun u hu => ?_
    exact (holds_of_worker (s := s₁) (by rfl) (by rfl) u hu).trans (holds_of_wake hwk hcl u)
  | @lock w wakes hpc hfree =>
    exact ho.acquire hfree (by simp [State.holds, hpc, WorkerPc.holds])
      (by simp [State.holds, WorkerPc.holds]) (holds_of_worker (by rfl) (by rfl))
  | @wait w wakes hpc | @leave w wakes hpc | @unlock w wakes job hpc =>
    refine ho.release (t := .inl w) (by simp [State.holds, hpc, WorkerPc.holds]) ?_
      (holds_of_worker (by rfl) (by rfl))
    simp [State.holds, State.setWorker, WorkerPc.holds]
  | @nested w _ _ hpc | @finish w _ hpc | @take w _ _ _ hpc | @noJob w _ hpc | @flag w _ hpc
  | @noFlag w _ hpc | @spurious w hpc =>
    refine ho.stay fun u => ?_
    by_cases hu : u = .inl w
    · subst hu
      simp [State.holds, State.setWorker, hpc, WorkerPc.holds, holds_enter]
    · exact holds_of_worker (by rfl) (by rfl) u hu

/-- **Every mutex has the one holder that is inside its critical section.** -/
theorem reachable_owned (h : (machine L ω).Reachable s) : Owned s.holder (s.holds L) := by
  refine h.invariant (I := fun s => Owned s.holder (s.holds L)) (fun s hs => ?_)
    fun _ _ _ _ _ hst ho => (step_move hst).owned ho
  simp only [machine, construct] at hs
  split_ifs at hs
  obtain rfl := Option.some.inj hs
  exact Owned.free.stay fun | .inl _ => rfl | .inr _ => rfl

end Wss.Monitor
