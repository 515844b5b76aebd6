import Wss.Monitor.GlobalQueue
import Mathlib.Data.Fintype.Card

/-!
# Jobs of `GlobalQueueScheduler` that join jobs

The machine of `GlobalQueueScheduler`, whose jobs also call `JoinHandle::join` of
`include/wss/join_handle.hpp`. A body delivers the result of its job to the handle and returns; in
between it does nothing else. A `join` blocks until the result is there, and takes it away. Where a
handle goes is up to the jobs: any job may join any other whose `submit` has returned.

A worker leaves as soon as it sees the flag and an empty queue, whatever the jobs that still run may
submit. What is pushed after that is left to the workers that are still there, and the job that has
pushed it may be about to wait for it.

Results:
* `reachable_manned`: if nothing is pushed once a worker has left (`Closed`), the queue is empty
  from then on.
* `never_stuck`: then, with fewer than `N` jobs blocked at a time, a queue with jobs in it has a
  worker that can get to it.
* `stuck_nested`: a job that submits a child and joins it may do so too late.
-/

namespace Wss.Monitor.Nested

open Wss.Lib

/-- The scheduler, with what its jobs and their handles are at. -/
structure State (N : ℕ) (ω : Type) where
  base : Monitor.State N 1 (List ℕ) ω
  /-- The job that the job of a worker has called `join` on. -/
  joining : Fin N → Option ℕ
  /-- Jobs whose result was delivered to their handle. -/
  delivered : List ℕ
  /-- Jobs whose result `join` has taken. -/
  joined : List ℕ

/-- What the threads do. -/
inductive Label (N : ℕ) (ω : Type)
  /-- A step of the scheduler. -/
  | base (l : Monitor.Label N ω)
  /-- The result of the job of worker `w` is delivered. -/
  | deliver (w : Fin N)
  /-- The job of worker `w` calls `join` on the handle of `job`. -/
  | join (w : Fin N) (job : ℕ)
  /-- That call returns. -/
  | joined (w : Fin N)

variable {N : ℕ} {ω : Type}

/-- The job of a worker that is in its own code, outside `submit`. -/
def inside {K : ℕ} : WorkerPc K → Option ℕ
  | .body job none => some job
  | _ => none

namespace State

variable (s : State N ω)

/-- The worker is in the code of a job that has not delivered its result. -/
def atWork (w : Fin N) : Bool :=
  (s.joining w).isNone && (inside (s.base.worker w)).any (· ∉ s.delivered)

/-- The body of a job does what `l` says. -/
def ready : Monitor.Label N ω → Bool
  | .nested w _ => s.atWork w
  | .finish w => (s.joining w).isNone && (inside (s.base.worker w)).any (· ∈ s.delivered)
  | _ => true

/-- The result of a job is in its handle. -/
def available (job : ℕ) : Bool := job ∈ s.delivered ∧ job ∉ s.joined

end State

/-- `GlobalQueueScheduler(N)`: `none` where the constructor throws. -/
def construct (N : ℕ) (ω : Type) : Option (State N ω) :=
  (Monitor.construct (globalQueue N) ω).map fun b =>
    { base := b, joining := fun _ => none, delivered := [], joined := [] }

variable [DecidableEq ω]

/-- What each label does. -/
def step (s : State N ω) : Label N ω → Option (State N ω)
  | .base l =>
    if s.ready l then (Monitor.step (globalQueue N) s.base l).map fun b => { s with base := b }
    else none
  | .deliver w =>
    match inside (s.base.worker w) with
    | some job => if s.atWork w then some { s with delivered := s.delivered ++ [job] } else none
    | none => none
  | .join w job =>
    if s.atWork w ∧ job ∈ s.base.returned then
      some { s with joining := Function.update s.joining w (some job) }
    else none
  | .joined w =>
    match s.joining w with
    | some job =>
      if s.available job then
        some { s with joining := Function.update s.joining w none, joined := s.joined ++ [job] }
      else none
    | none => none

/-- `GlobalQueueScheduler(N)` with jobs that join, and every interleaving on it. -/
def machine (N : ℕ) (ω : Type) [DecidableEq ω] : Machine (State N ω) (Label N ω) where
  init s := construct N ω = some s
  step := step

/-! ## Workers that can get to the queue -/

namespace State

variable (s : State N ω)

/-- The workers whose job is blocked in `join`. -/
def blocked : Finset (Fin N) :=
  Finset.univ.filter fun w => (s.joining w).any fun job => !s.available job

/-- The worker has not left, and is not in a `join` on a job that has not started. -/
def Active (w : Fin N) : Prop :=
  s.base.worker w ≠ .exited ∧ ∀ job ∈ s.joining w, job ∈ s.base.started.map Prod.snd

instance (w : Fin N) : Decidable (s.Active w) := inferInstanceAs (Decidable (_ ∧ _))

/-- The queue has a job in it that no worker can get to. -/
def Stuck : Prop := s.base.queues ⟨0, Nat.one_pos⟩ ≠ [] ∧ ∀ w, ¬ s.Active w

instance : Decidable s.Stuck := inferInstanceAs (Decidable (_ ∧ _))

/-- Some worker has left. -/
def SomeLeft : Prop := ∃ w, s.base.worker w = .exited

instance : Decidable s.SomeLeft := inferInstanceAs (Decidable (∃ _, _))

end State

/-- Fewer than `N` jobs are blocked at the same time. -/
def Few (s : State N ω) (l : Label N ω) : Prop := ∀ s' ∈ step s l, s'.blocked.card < N

instance (s : State N ω) (l : Label N ω) : Decidable (Few s l) :=
  inferInstanceAs (Decidable (∀ _ ∈ _, _))

/-- A call of `submit` is about to push its job. -/
def pushing : Option (SubmitPc 1) → Bool
  | some (.push _ _ _) => true
  | _ => false

/-- Once a worker has left, nothing is pushed, by a running job or by a thread outside the pool. -/
def Closed (s : State N ω) : Label N ω → Prop
  | .base (.worker w _) => pushing (s.base.worker w).call = true → ¬ s.SomeLeft
  | .base (.clientStep c _) => pushing (s.base.client c) = true → ¬ s.SomeLeft
  | _ => True

instance (s : State N ω) : DecidablePred (Closed s)
  | .base (.worker _ _) | .base (.clientStep _ _) => inferInstanceAs (Decidable (_ → _))
  | .base (.client _ _) | .base (.nested _ _) | .base (.finish _) | .base (.spurious _)
  | .base .shutdown | .base .control | .deliver _ | .join _ _ | .joined _ => isTrue trivial

/-! ## Steps of the scheduler -/

section Moves

variable {K : ℕ} {Q : Type} {L : Layout N K Q} {s s' : Monitor.State N K Q ω}
variable {l : Monitor.Label N ω}

/-- A worker leaves in a step that leaves the queues alone. -/
theorem exited_or_leave (h : Move L s l s') {u : Fin N} (hu : s'.worker u = .exited) :
    s.worker u = .exited ∨ s.worker u = .leave ∧ s'.queues = s.queues := by
  have hwake : ∀ {s₁ : Monitor.State N K Q ω}, (∀ v, s₁.worker v = s.worker v ∨
      s.worker v = .waiting ∧ s₁.worker v = .lock) → s₁.worker u = .exited →
      s.worker u = .exited := fun {s₁} hw h₁ => by
    rcases hw u with h | ⟨-, h⟩
    · exact h.symm.trans h₁
    · exact absurd (h₁.symm.trans h) (by simp)
  have hset : ∀ (s₁ : Monitor.State N K Q ω) {w pc}, s'.worker = Function.update s₁.worker w pc →
      pc ≠ .exited → s₁.worker u = .exited := fun s₁ {w pc} hw hpc => by
    rw [hw] at hu
    rcases eq_or_ne u w with rfl | hne
    · rw [Function.update_self] at hu
      exact absurd hu hpc
    · rwa [Function.update_of_ne hne] at hu
  cases h with
  | client | shutdown | store | join => exact .inl hu
  | notifyAll => exact .inl (hwake (notifyAll_worker s _) hu)
  | clientStep hc hsub => exact .inl (hwake hsub.frame.1 hu)
  | nestedStep hpc hsub => exact .inl (hwake hsub.frame.1 (hset _ rfl nofun))
  | @leave w wakes hpc =>
    rcases eq_or_ne u w with rfl | hne
    · exact .inr ⟨hpc, rfl⟩
    · exact .inl ((setWorker_of_ne _ _ hne).symm.trans hu)
  | nested | finish | lock | take | noJob | flag | noFlag | wait | unlock | spurious =>
    exact .inl (hset s rfl nofun)

theorem started_subset (h : Move L s l s') : s.started ⊆ s'.started := by
  cases h with
  | clientStep hc hsub | nestedStep hpc hsub =>
    obtain ⟨-, -, -, -, -, hst, -⟩ := hsub.frame
    exact fun _ hx => hst ▸ hx
  | unlock => exact List.subset_append_left _ _
  | _ => exact List.Subset.refl _

/-- The empty queue gets a job by a push. -/
theorem filled {s s' : Monitor.State N 1 (List ℕ) ω} (h : Move (globalQueue N) s l s') {k : Fin 1}
    (hq : s.queues k = []) (hq' : s'.queues k ≠ []) :
    (∃ w wakes, l = .worker w wakes ∧ pushing (s.worker w).call = true) ∨
      ∃ c wakes, l = .clientStep c wakes ∧ pushing (s.client c) = true := by
  cases h with
  | @nestedStep w wakes job call call' s₁ hpc hsub =>
    refine .inl ⟨w, wakes, rfl, ?_⟩
    rw [hpc]
    cases hsub with
    | push => rfl
    | ticket | lock | unlock | notifyNone | notify | done => exact absurd hq hq'
  | @clientStep c wakes call call' s₁ hc hsub =>
    refine .inr ⟨c, wakes, rfl, ?_⟩
    rw [hc]
    cases hsub with
    | push => rfl
    | ticket | lock | unlock | notifyNone | notify | done => exact absurd hq hq'
  | @take w wakes job q hpc hpop =>
    have hk : (globalQueue N).core w = k := Subsingleton.elim _ _
    rw [hk, hq] at hpop
    exact absurd hpop (by simp [globalQueue])
  | _ => exact absurd hq hq'

end Moves

/-! ## Every step -/

variable {s s' : State N ω} {l : Label N ω}

/-- What is left of the queue once a worker has left, and who is blocked. -/
structure Manned (s : State N ω) : Prop where
  base : (Monitor.machine (globalQueue N) ω).Reachable s.base
  delivered : ∀ job ∈ s.delivered, job ∈ s.base.started.map Prod.snd
  few : s.blocked.card < N
  left : s.SomeLeft → s.base.queues ⟨0, Nat.one_pos⟩ = []

/-- Where no worker has left, one can get to the queue. -/
theorem Manned.active (hm : Manned s) (hleft : ¬ s.SomeLeft) : ∃ w, s.Active w := by
  have hex : ∃ w, w ∉ s.blocked := by
    by_contra! hall
    have huniv : s.blocked = Finset.univ := Finset.eq_univ_iff_forall.mpr hall
    have hfew := hm.few
    rw [huniv, Finset.card_univ, Fintype.card_fin] at hfew
    exact absurd hfew (lt_irrefl N)
  obtain ⟨w, hw⟩ := hex
  refine ⟨w, fun h => hleft ⟨w, h⟩, fun job hjob => hm.delivered job ?_⟩
  have hjob : s.joining w = some job := hjob
  by_contra hnot
  refine hw (Finset.mem_filter.mpr ⟨Finset.mem_univ w, ?_⟩)
  simp [hjob, State.available, hnot]

/-- A step of the scheduler. -/
theorem Manned.base_step (hm : Manned s) {l : Monitor.Label N ω} {b : Monitor.State N 1 (List ℕ) ω}
    (hst : Monitor.step (globalQueue N) s.base l = some b) (hclosed : Closed s (.base l)) :
    Manned { s with base := b } := by
  have hmove : Move (globalQueue N) s.base l b := step_move hst
  refine ⟨hm.base.next hst, fun job hjob => ?_, hm.few, ?_⟩
  · exact (List.map_subset _ (started_subset hmove)) (hm.delivered job hjob)
  · rintro ⟨u, hu⟩
    obtain hleft | ⟨hleave, hq⟩ := exited_or_leave hmove hu
    · by_contra hq'
      rcases filled hmove (hm.left ⟨u, hleft⟩) hq' with ⟨w, wakes, rfl, hpush⟩ |
        ⟨c, wakes, rfl, hpush⟩
      · exact hclosed hpush ⟨u, hleft⟩
      · exact hclosed hpush ⟨u, hleft⟩
    · -- a worker that leaves has seen the queue empty
      have hpop := reachable_looked hm.base u (by rw [hleave]; trivial)
      exact (congrFun hq _).trans ((globalQueue_lawful N).pop_none _ hpop)

section Step

variable [Fintype ω]

/-- **Every step leaves the queue empty once a worker has left.** -/
theorem Manned.step (hm : Manned s) (hfew : Few s l) (hclosed : Closed s l)
    (hst : Nested.step s l = some s') : Manned s' := by
  have hfew' := hfew s' hst
  cases l with
  | base l =>
    simp only [Nested.step] at hst
    split_ifs at hst
    obtain ⟨b, hb, rfl⟩ := Option.map_eq_some_iff.mp hst
    exact hm.base_step hb hclosed
  | deliver w =>
    simp only [Nested.step] at hst
    split at hst
    · rename_i job hin
      split_ifs at hst
      obtain rfl := Option.some.inj hst
      refine { hm with few := hfew', delivered := fun j hj => ?_ }
      rcases List.mem_append.mp hj with h | h
      · exact hm.delivered j h
      · rw [List.mem_singleton.mp h]
        have hrun : (s.base.worker w).running = some job := by
          unfold inside at hin
          split at hin
          · rename_i hpc
            rw [hpc, ← hin]
            rfl
          · exact absurd hin (by simp)
        have hmem : job ∈ valuesAt w s.base.started := by
          rw [(reachable_account hm.base).running w, hrun]
          exact List.mem_append_right _ (List.mem_singleton_self _)
        exact List.mem_map_of_mem (mem_valuesAt.mp hmem)
    · exact absurd hst (by simp)
  | join w job =>
    simp only [Nested.step] at hst
    split_ifs at hst
    obtain rfl := Option.some.inj hst
    exact ⟨hm.base, hm.delivered, hfew', hm.left⟩
  | joined w =>
    simp only [Nested.step] at hst
    split at hst
    · split_ifs at hst
      obtain rfl := Option.some.inj hst
      exact ⟨hm.base, hm.delivered, hfew', hm.left⟩
    · exact absurd hst (by simp)

theorem reachable_manned
    (h : (machine N ω).ReachableUnder (fun s l => Few s l ∧ Closed s l) s) : Manned s := by
  refine h.invariant (fun s hs => ?_) fun _ _ _ _ hok hst hm => hm.step hok.1 hok.2 hst
  obtain ⟨b, hb, rfl⟩ := Option.map_eq_some_iff.mp hs
  have hinit := hb
  unfold Monitor.construct at hb
  split_ifs at hb with hN
  obtain rfl := Option.some.inj hb
  exact
    { base := ⟨[], _, hinit, .nil⟩
      delivered := fun _ h => absurd h List.not_mem_nil
      few := by simpa [State.blocked] using Nat.pos_of_ne_zero hN
      left := fun ⟨_, h⟩ => absurd h (by simp) }

end Step

/-! ## Results -/

/-- **Joins inside jobs survive `shutdown`, if nothing is pushed once a worker has left.** In a run
in which fewer than `N` jobs are blocked at a time and in which, once a worker has left, neither a
running job nor a thread outside the pool pushes a job, no state is stuck. -/
theorem never_stuck [Fintype ω]
    (h : (machine N ω).ReachableUnder (fun s l => Few s l ∧ Closed s l) s) : ¬ s.Stuck := by
  rintro ⟨hq, hnone⟩
  have hm := reachable_manned h
  obtain ⟨w, hw⟩ := hm.active fun hleft => hq (hm.left hleft)
  exact hnone w hw

/-- Two workers; a job runs on the first, and the second waits for jobs. -/
def runParent : List (Label 2 Unit) :=
  let client : Monitor.Label 2 Unit := .clientStep () none
  let first : Monitor.Label 2 Unit := .worker ⟨0, Nat.two_pos⟩ none
  let second : Monitor.Label 2 Unit := .worker ⟨1, Nat.one_lt_two⟩ none
  List.flatten
    [List.replicate 4 (.base second), [.base (.client () ⟨.normal, none⟩)],
      List.replicate 3 (.base client), [.base (.clientStep () (some ⟨1, Nat.one_lt_two⟩))],
      List.replicate 1 (.base client), List.replicate 3 (.base first)]

/-- `shutdown` sets the flag and notifies. -/
def callShutdown : List (Label 2 Unit) := [.base .shutdown, .base .control, .base .control]

/-- The second worker leaves. -/
def leaveSecond : List (Label 2 Unit) :=
  List.replicate 4 (.base (.worker ⟨1, Nat.one_lt_two⟩ none))

/-- The job submits a child and joins it. -/
def joinChild : List (Label 2 Unit) :=
  let first : Monitor.Label 2 Unit := .worker ⟨0, Nat.two_pos⟩ none
  .base (.nested ⟨0, Nat.two_pos⟩ ⟨.normal, none⟩) :: List.replicate 5 (.base first) ++
    [.join ⟨0, Nat.two_pos⟩ 1]

/-- The second worker runs the child, and the job goes on. -/
def runChild : List (Label 2 Unit) :=
  List.replicate 3 (.base (.worker ⟨1, Nat.one_lt_two⟩ none)) ++
    [.deliver ⟨1, Nat.one_lt_two⟩, .base (.finish ⟨1, Nat.one_lt_two⟩), .joined ⟨0, Nat.two_pos⟩]

/-- The child is submitted while the second worker is there. It leaves while the job still runs. -/
theorem never_stuck_nested : ∃ s t : State 2 Unit,
    (machine 2 Unit).ReachableUnder (fun s l => Few s l ∧ Closed s l) s ∧
      s.base.shutdownFlag = true ∧ s.base.queues ⟨0, Nat.one_pos⟩ = [1] ∧
      s.blocked = {⟨0, Nat.two_pos⟩} ∧ ¬ s.Stuck ∧
      (machine 2 Unit).ReachableUnder (fun s l => Few s l ∧ Closed s l) t ∧
      t.base.finished = [(⟨1, Nat.one_lt_two⟩, 1)] ∧ t.SomeLeft ∧ ¬ t.Stuck := by
  let s₀ : State 2 Unit := (construct 2 Unit).get (by decide)
  let s := ((machine 2 Unit).execUnder (fun s l => Few s l ∧ Closed s l) s₀
    (runParent ++ callShutdown ++ joinChild)).get (by decide +kernel)
  let t := ((machine 2 Unit).execUnder (fun s l => Few s l ∧ Closed s l) s
    (runChild ++ leaveSecond)).get (by decide +kernel)
  have hs : (machine 2 Unit).ReachableUnder (fun s l => Few s l ∧ Closed s l) s :=
    ⟨_, s₀, (Option.some_get _).symm, Machine.execUnder_path (Option.some_get _).symm⟩
  have ht : (machine 2 Unit).ReachableUnder (fun s l => Few s l ∧ Closed s l) t :=
    hs.path (Machine.execUnder_path (Option.some_get _).symm)
  exact ⟨s, t, hs, by decide +kernel, by decide +kernel, by decide +kernel, never_stuck hs, ht,
    by decide +kernel, by decide +kernel, never_stuck ht⟩

/-- The child is submitted after the second worker has left. -/
theorem stuck_nested : ¬ ∀ s : State 2 Unit, (machine 2 Unit).ReachableUnder Few s → ¬ s.Stuck := by
  intro h
  let s₀ : State 2 Unit := (construct 2 Unit).get (by decide)
  let s := ((machine 2 Unit).execUnder Few s₀
    (runParent ++ callShutdown ++ leaveSecond ++ joinChild)).get (by decide +kernel)
  have hreach : (machine 2 Unit).ReachableUnder Few s :=
    ⟨_, s₀, (Option.some_get _).symm, Machine.execUnder_path (Option.some_get _).symm⟩
  exact h s hreach (by decide +kernel)

end Wss.Monitor.Nested
