import Wss.Monitor.Drain

/-!
# `ThreadPerCoreScheduler` drains, if no core is abandoned too early

Each worker decides by its own queues and the flag alone when it leaves, and a job that still runs
on another core can submit to its core after that: nobody will run what is pushed there.

Results:
* `cores_drained`: in the clean runs where this does not happen (`Served`) everything has run when
  `shutdown` returns.
* `core_abandoned`: where it does, a job may be left.
-/

namespace Wss.Monitor

open Wss.Lib

variable {N : ℕ} {ω : Type}

/-- The jobs of a core, by priority. -/
def coreItems (q : CoreQueues) : List ℕ := q .high ++ q .normal ++ q .background

/-- A `pop` takes the first job of the first queue that has one. -/
theorem popFirst_cases (q : CoreQueues) :
    (q .high = [] ∧ q .normal = [] ∧ q .background = [] ∧ popFirst q kPriorityOrder = none) ∨
      ∃ p job queue, q p = job :: queue ∧
        popFirst q kPriorityOrder = some (job, Function.update q p queue) ∧
        (p ≠ .high → q .high = []) ∧ (p = .background → q .normal = []) := by
  cases hh : q .high with
  | cons job queue => exact .inr ⟨.high, job, queue, hh, by simp [popFirst, kPriorityOrder, hh]⟩
  | nil =>
    cases hn : q .normal with
    | cons job queue =>
      exact .inr ⟨.normal, job, queue, hn, by simp [popFirst, kPriorityOrder, hh, hn]⟩
    | nil =>
      cases hb : q .background with
      | cons job queue =>
        exact .inr ⟨.background, job, queue, hb, by simp [popFirst, kPriorityOrder, hh, hn, hb]⟩
      | nil => exact .inl ⟨rfl, rfl, rfl, by simp [popFirst, kPriorityOrder, hh, hn, hb]⟩

theorem mass_coreItems_update (μ : ℕ → ℕ) (q : CoreQueues) (p : Priority) (queue : List ℕ) :
    mass μ (coreItems (Function.update q p queue)) + mass μ (q p) =
      mass μ (coreItems q) + mass μ queue := by
  cases p <;> simp [coreItems] <;> omega

theorem threadPerCore_lawful (N : ℕ) [NeZero N] : (threadPerCore N).Lawful coreItems where
  empty := rfl
  push p job q := perm_of_mass fun μ => by
    have := mass_coreItems_update μ q p (q p ++ [job])
    simp only [threadPerCore, mass_append, mass_cons, mass_nil] at this ⊢
    omega
  pop q job q' h := perm_of_mass fun μ => by
    rcases popFirst_cases q with ⟨-, -, -, hnone⟩ | ⟨p, j, queue, hq, hsome, -⟩
    · exact absurd (hnone.symm.trans h) (by simp)
    · obtain ⟨rfl, rfl⟩ := Prod.mk.inj (Option.some.inj (hsome.symm.trans h))
      have := mass_coreItems_update μ q p queue
      rw [hq, mass_cons] at this
      rw [mass_cons]
      omega
  pop_none q h := by
    rcases popFirst_cases q with ⟨hh, hn, hb, -⟩ | ⟨p, j, queue, -, hsome, -⟩
    · simp [coreItems, hh, hn, hb]
    · exact absurd (hsome.symm.trans h) (by simp)

theorem coreItems_eq_nil {q : CoreQueues} (h : coreItems q = []) (p : Priority) : q p = [] := by
  simp only [coreItems, List.append_eq_nil_iff] at h
  cases p with
  | high => exact h.1.1
  | normal => exact h.1.2
  | background => exact h.2

/-- Every job has been run once, and the queues of every core are empty. -/
def CoresDrained (s : State N N CoreQueues ω) : Prop :=
  (∀ job < s.submitted.length, (s.started.map Prod.snd).count job = 1 ∧
    (s.finished.map Prod.snd).count job = 1) ∧ ∀ k p, s.queues k p = []

/-- **`shutdown` drains every core, if no running job pushes to a core whose worker has left.** -/
theorem cores_drained [NeZero N] [Fintype ω] [DecidableEq ω] {s : State N N CoreQueues ω}
    (h : (machine (threadPerCore N) ω).ReachableUnder
      (fun s l => Clean s l ∧ Served (threadPerCore N) s l) s)
    (hret : s.control = .returned) : CoresDrained s := by
  obtain ⟨hjobs, hq⟩ := drained_run (threadPerCore_lawful N) (fun k => ⟨k, rfl⟩) h hret
  exact ⟨hjobs, fun k p => coreItems_eq_nil (hq k) p⟩

/-- On two cores: a job runs on the first, `shutdown` is called, and the worker of the second core
has nothing to do. -/
def oneRunning : List (Label 2 Unit) :=
  .client () ⟨.normal, some 0⟩ :: List.replicate 5 (.clientStep () none) ++
    List.replicate 3 (.worker ⟨0, Nat.two_pos⟩ none) ++ [.shutdown, .control, .control, .control]

/-- The job submits another one to the second core. -/
def submitNested : List (Label 2 Unit) :=
  .nested ⟨0, Nat.two_pos⟩ ⟨.normal, some 1⟩ ::
    List.replicate 5 (.worker ⟨0, Nat.two_pos⟩ none)

/-- The second worker leaves. -/
def leaveSecond : List (Label 2 Unit) :=
  List.replicate 4 (.worker ⟨1, Nat.one_lt_two⟩ none)

/-- The first job ends, and its worker leaves too. -/
def endFirst : List (Label 2 Unit) :=
  .finish ⟨0, Nat.two_pos⟩ :: List.replicate 4 (.worker ⟨0, Nat.two_pos⟩ none) ++
    [.control, .control]

/-- The nested job is pushed in time, and runs. -/
def drainedRun : List (Label 2 Unit) :=
  oneRunning ++ submitNested ++ List.replicate 3 (.worker ⟨1, Nat.one_lt_two⟩ none) ++
    [.finish ⟨1, Nat.one_lt_two⟩] ++ leaveSecond ++ endFirst

theorem cores_drained_nested : ∃ s : State 2 2 CoreQueues Unit, s.control = .returned ∧
    s.submitted.length = 2 ∧ CoresDrained s := by
  let L := threadPerCore 2
  let s₀ : State 2 2 CoreQueues Unit := (construct L Unit).get (by decide)
  let s := ((machine L Unit).execUnder (fun s l => Clean s l ∧ Served L s l) s₀ drainedRun).get
    (by decide +kernel)
  have hreach : (machine L Unit).ReachableUnder (fun s l => Clean s l ∧ Served L s l) s :=
    ⟨drainedRun, s₀, (Option.some_get _).symm, Machine.execUnder_path (Option.some_get _).symm⟩
  have hret : s.control = .returned := by decide +kernel
  exact ⟨s, hret, by decide +kernel, cores_drained hreach hret⟩

/-- The nested job is pushed after the worker of its core has left, and stays. -/
theorem core_abandoned : ¬ ∀ s : State 2 2 CoreQueues Unit,
    (machine (threadPerCore 2) Unit).ReachableUnder Clean s → s.control = .returned →
      CoresDrained s := by
  intro h
  let L := threadPerCore 2
  let s₀ : State 2 2 CoreQueues Unit := (construct L Unit).get (by decide)
  let s := ((machine L Unit).execUnder Clean s₀
    (oneRunning ++ leaveSecond ++ submitNested ++ endFirst)).get (by decide +kernel)
  have hs := h s ⟨_, s₀, (Option.some_get _).symm, Machine.execUnder_path (Option.some_get _).symm⟩
    (by decide +kernel)
  exact absurd (hs.2 ⟨1, Nat.one_lt_two⟩ .normal) (by decide +kernel)

end Wss.Monitor
