import Wss.Monitor.GlobalQueue
import Wss.Monitor.Supply
import Wss.Monitor.ThreadPerCore

/-!
# `notify_one` loses no capacity

What the supply of a core says about the two backends.

Results:
* `no_capacity_lost`: while a worker of `GlobalQueueScheduler` is in the wait set, there are no more
  jobs in the queue than workers awake and idle and calls that have still to notify.
* `no_core_forgotten`: while a core of `ThreadPerCoreScheduler` sleeps, there is a call of `submit`
  that has still to notify it for every job in its queues.
-/

namespace Wss.Monitor

open Wss.Lib

/-- The call has pushed its job and has not notified. -/
def SubmitPc.owes {K : ℕ} : SubmitPc K → Bool
  | .unlock _ _ | .notify _ _ => true
  | .ticket _ _ | .lock _ _ _ | .push _ _ _ | .done _ => false

/-- Awake in `worker_loop`, and not running a job. -/
def WorkerPc.awake {K : ℕ} : WorkerPc K → Bool
  | .lock | .search | .loadFlag | .wait | .unlock _ | .leave => true
  | .waiting | .body _ _ | .exited => false

theorem WorkerPc.awake_of_coming {K : ℕ} {pc : WorkerPc K} (h : pc.coming = true) :
    pc.awake = true := by
  cases pc with
  | lock | search | loadFlag | wait | unlock | leave => rfl
  | waiting | body | exited => exact absurd h Bool.false_ne_true

/-- With one core, a call owes its notification to that one. -/
theorem SubmitPc.owesTo_eq_owes (k : Fin 1) : SubmitPc.owesTo k = SubmitPc.owes := by
  funext call
  cases call with
  | unlock | notify => exact decide_eq_true (Subsingleton.elim _ _)
  | ticket | lock | push | done => rfl

variable {N : ℕ} {ω : Type}

/-- **`notify_one` loses no capacity.** In every reachable state of `GlobalQueueScheduler`, while a
worker is in the wait set, the jobs in the queue are at most as many as the workers that are awake
and run no job, and the calls of `submit` that have pushed theirs and have still to notify. -/
theorem no_capacity_lost [Fintype ω] [DecidableEq ω] {s : State N 1 (List ℕ) ω}
    (h : (machine (globalQueue N) ω).Reachable s) (hw : ∃ w, s.worker w = .waiting) :
    (s.queues ⟨0, Nat.one_pos⟩).length ≤
      (Finset.univ.filter fun w => (s.worker w).awake = true).card +
      (Finset.univ.filter fun t => (s.call t).any SubmitPc.owes = true).card := by
  have hs := reachable_suppliedAt (globalQueue_lawful N) h ⟨0, Nat.one_pos⟩
  have hle := hs.length_le (hw.imp fun _ h => ⟨Subsingleton.elim _ _, h⟩)
  rw [SubmitPc.owesTo_eq_owes] at hle
  refine hle.trans (Nat.add_le_add_right (Finset.card_le_card fun w hmem => ?_) _)
  rw [Finset.mem_filter] at hmem ⊢
  exact ⟨hmem.1, WorkerPc.awake_of_coming hmem.2.2⟩

/-- One of two workers sleeps and the other one is on its way to the queue when a job is pushed. -/
def pushWhileAsleep : List (Label 2 Unit) :=
  List.flatten [List.replicate 4 (.worker ⟨0, Nat.two_pos⟩ none),
    .client () ⟨.normal, none⟩ :: List.replicate 2 (.clientStep () none)]

theorem no_capacity_lost_two : ∃ s : State 2 1 (List ℕ) Unit,
    (machine (globalQueue 2) Unit).Reachable s ∧ (s.queues ⟨0, Nat.one_pos⟩).length = 1 ∧
      1 ≤ (Finset.univ.filter fun w => (s.worker w).awake = true).card +
        (Finset.univ.filter fun t => (s.call t).any SubmitPc.owes = true).card := by
  let s₀ : State 2 1 (List ℕ) Unit := (construct (globalQueue 2) Unit).get (by decide)
  let s := ((machine (globalQueue 2) Unit).exec s₀ pushWhileAsleep).get (by decide +kernel)
  have h : (machine (globalQueue 2) Unit).Reachable s :=
    Machine.reachable_of_exec (s := s₀) (Option.some_get _).symm (Option.some_get _).symm
  have hlen : (s.queues ⟨0, Nat.one_pos⟩).length = 1 := by decide +kernel
  have hle := no_capacity_lost h ⟨⟨0, Nat.two_pos⟩, by decide +kernel⟩
  rw [hlen] at hle
  exact ⟨s, h, hlen, hle⟩

/-- **No core of `ThreadPerCoreScheduler` is forgotten.** In every reachable state, while the worker
of a core is in the wait set, there are at least as many calls of `submit` that have pushed to this
core and have not notified it yet as jobs in its queues. So where none is left the queues of a
sleeping core are empty. -/
theorem no_core_forgotten [NeZero N] [Fintype ω] [DecidableEq ω] {s : State N N CoreQueues ω}
    (h : (machine (threadPerCore N) ω).Reachable s) {k : Fin N} (hk : s.worker k = .waiting) :
    (coreItems (s.queues k)).length ≤
      (Finset.univ.filter fun t => (s.call t).any (SubmitPc.owesTo k) = true).card := by
  have hs := reachable_suppliedAt (threadPerCore_lawful N) h k
  refine hs.length_le_owed ⟨k, rfl, hk⟩ fun w hw => ?_
  have hw : w = k := hw
  rw [hw, hk]
  rfl

/-- Both cores sleep when a job is pushed to the second one. -/
def pushToSecond : List (Label 2 Unit) :=
  let first : Fin 2 := ⟨0, Nat.two_pos⟩
  let second : Fin 2 := ⟨1, Nat.one_lt_two⟩
  List.flatten [List.replicate 4 (.worker first none), List.replicate 4 (.worker second none),
    .client () ⟨.normal, some 1⟩ :: List.replicate 2 (.clientStep () none)]

theorem no_core_forgotten_two : ∃ s : State 2 2 CoreQueues Unit,
    (machine (threadPerCore 2) Unit).Reachable s ∧
      s.worker ⟨1, Nat.one_lt_two⟩ = .waiting ∧
      (coreItems (s.queues ⟨1, Nat.one_lt_two⟩)).length = 1 ∧
      1 ≤ (Finset.univ.filter fun t =>
        (s.call t).any (SubmitPc.owesTo ⟨1, Nat.one_lt_two⟩) = true).card := by
  let s₀ : State 2 2 CoreQueues Unit := (construct (threadPerCore 2) Unit).get (by decide)
  let s := ((machine (threadPerCore 2) Unit).exec s₀ pushToSecond).get (by decide +kernel)
  have h : (machine (threadPerCore 2) Unit).Reachable s :=
    Machine.reachable_of_exec (s := s₀) (Option.some_get _).symm (Option.some_get _).symm
  have hlen : (coreItems (s.queues ⟨1, Nat.one_lt_two⟩)).length = 1 := by decide +kernel
  have hwait : s.worker ⟨1, Nat.one_lt_two⟩ = .waiting := by decide +kernel
  have hle := no_core_forgotten h hwait
  rw [hlen] at hle
  exact ⟨s, h, hwait, hlen, hle⟩

end Wss.Monitor
