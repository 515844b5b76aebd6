import Wss.WorkStealing.Sleep
import Wss.Lib.Throwing

/-!
# `WorkStealingScheduler::submit` with a failing allocation

After `pending.fetch_add`, `submit` allocates for the closure `wrapped`, which has no buffer of its
own, and in `queue_.push_back` where the last node of the deque has no `room`; where that throws,
the queue is as it was. `wrapAndPush room fail job` is this part of it as a program that may throw,
on the queue of its injector. `submit` is a whole call that no other thread interrupts, and
`failing` the scheduler in which any call may make an allocation that fails: a call that throws is
over.

Results:
* `submit_completes`: a call that does not make the failing allocation is that of `Model.lean`.
* `submit_throws`: a call that makes it throws, and `pending` stays one too high.
* `restores_iff`: so a call of which an allocation fails leaves the scheduler as it was exactly if
  it does not make that allocation.
-/

namespace Wss.WorkStealing

open Wss.Lib

/-- The allocations of `submit`. -/
inductive Site
  | wrap
  | queue
  deriving DecidableEq

/-- The allocations that a call makes. -/
def Allocates (room : Bool) : Site → Prop
  | .wrap => True
  | .queue => room = false

/-- What `submit` does before it notifies, on the queue of its injector. -/
def wrapAndPush (room : Bool) (fail : Option Site) (job : ℕ) :
    ExceptT BadAlloc (StateM (List ℕ)) Unit := do
  alloc fail .wrap
  allocUnless room fail .queue
  modify fun queue => queue ++ [job]

variable {N : ℕ} {ω : Type}

/-- `submit`. -/
def submit (room : Bool) (fail : Option Site) (s : State N ω) (job : ℕ) (p : Priority) :
    Except BadAlloc Unit × State N ω :=
  let s := { s with pending := s.pending + 1 }
  let (r, queue) := (wrapAndPush room fail job).run.run (s.injector p)
  let s := s.setInjector p queue
  match r with
  | .error e => (.error e, s)
  | .ok () => (.ok (), { s with gen := s.gen + 1 })

/-- What the threads do where allocations may fail. -/
inductive FailLabel (N : ℕ) (ω : Type)
  | run (l : Label N ω)
  /-- The call of a thread outside the pool throws: its allocation at `site` fails. -/
  | client (c : ω) (site : Site)
  /-- The call of the job worker `w` runs throws. -/
  | nested (w : Fin N) (site : Site)

/-- A call throws in the next step of it. It makes the allocation that fails. -/
def throwSubmit (s : State N ω) (site : Site) : SubmitPc → Option (State N ω)
  | .push job p =>
    match (wrapAndPush false (some site) job).run.run (s.injector p) with
    | (.error _, queue) => some (s.setInjector p queue)
    | (.ok _, _) => none
  | _ => none

variable [DecidableEq ω]

/-- What each label does. -/
def stepFailing (s : State N ω) : FailLabel N ω → Option (State N ω)
  | .run l => step s l
  | .client c site =>
    (s.client c).bind fun call => (throwSubmit s site call).map fun s =>
      { s with client := Function.update s.client c none }
  | .nested w site =>
    match s.worker w with
    | .body job (some call) => (throwSubmit s site call).map (·.setWorker w (.body job none))
    | _ => none

/-- A scheduler whose allocations may fail. -/
def failing (N : ℕ) (ω : Type) [DecidableEq ω] : Machine (State N ω) (FailLabel N ω) where
  init s := construct N ω = some s
  step := stepFailing

/-! ## A call that throws -/

/-- A call that does not make the failing allocation pushes its job. -/
theorem wrapAndPush_completes {room : Bool} {fail : Option Site}
    (hf : ∀ site, fail = some site → ¬ Allocates room site) (job : ℕ) (queue : List ℕ) :
    (wrapAndPush room fail job).run.run queue = (.ok (), queue ++ [job]) := by
  have hwrap : fail ≠ some .wrap := fun h => hf _ h trivial
  have hqueue : room = true ∨ fail ≠ some .queue := by
    by_cases h : fail = some .queue
    · exact .inl (Bool.not_eq_false _ ▸ hf _ h)
    · exact .inr h
  unfold wrapAndPush
  rw [run_bind_ok (run_alloc_ok hwrap _), run_bind_ok (run_allocUnless_ok hqueue _)]
  rfl

/-- The queue is not touched where an allocation fails. -/
theorem wrapAndPush_throws {room : Bool} {site : Site} (h : Allocates room site) (job : ℕ)
    (queue : List ℕ) :
    (wrapAndPush room (some site) job).run.run queue = (.error .badAlloc, queue) := by
  unfold wrapAndPush
  cases site with
  | wrap => exact run_bind_error (run_alloc_fail _)
  | queue =>
    rw [run_bind_ok (run_alloc_ok (by decide) _)]
    exact run_bind_error (run_allocUnless_fail h _)

section Submit

variable {s : State N ω} {job : ℕ} {p : Priority} {site : Site} {room : Bool} {fail : Option Site}

omit [DecidableEq ω]

/-- A call that does not make the failing allocation is the call of `Model.lean`. -/
theorem submit_completes (hf : ∀ site, fail = some site → ¬ Allocates room site) :
    submit room fail s job p = (.ok (), { s.setInjector p (s.injector p ++ [job]) with
      pending := s.pending + 1, gen := s.gen + 1 }) := by
  simp only [submit, wrapAndPush_completes hf]
  rfl

/-- **A call that makes the failing allocation throws, and has counted its job.** -/
theorem submit_throws (s : State N ω) (job : ℕ) (p : Priority) (h : Allocates room site) :
    submit room (some site) s job p = (.error .badAlloc, { s with pending := s.pending + 1 }) := by
  simp only [submit, wrapAndPush_throws h]
  exact Prod.ext rfl (setInjector_self rfl)

theorem throwSubmit_push : throwSubmit s site (.push job p) = some s := by
  have h : Allocates false site := by cases site <;> trivial
  simp only [throwSubmit, wrapAndPush_throws h]
  exact congrArg some (setInjector_self rfl)

/-- A call that throws leaves the scheduler as it was. -/
def Restores (room : Bool) (s : State N ω) (job : ℕ) (p : Priority) (site : Site) : Prop :=
  ∀ s', submit room (some site) s job p = (.error .badAlloc, s') →
    s'.pending = s.pending ∧ ∀ q, job ∉ s'.injector q ∧ ∀ w, job ∉ contents (s'.deque w q)

theorem restores_iff : Restores room s job p site ↔ ¬ Allocates room site := by
  refine ⟨fun h ha => ?_, fun h s' hs => ?_⟩
  · exact absurd (h _ (submit_throws s job p ha)).1 (Nat.succ_ne_self _)
  · rw [submit_completes fun _ he => Option.some.inj he ▸ h] at hs
    exact absurd (congrArg Prod.fst hs) (by simp)

end Submit

/-- The calls that throw are runs of the scheduler. -/
theorem submit_path {s : State N ω} {c : ω} (hc : s.client c = none) (p : Priority) {room : Bool}
    {site : Site} (h : Allocates room site) :
    (failing N ω).Path Machine.Free s [.run (.client c p), .run (.clientStep c), .client c site]
      { (submit room (some site) s s.next p).2 with next := s.next + 1 } := by
  refine .cons trivial (t := { s with
    client := Function.update s.client c (some (.count s.next p)), next := s.next + 1 }) ?_
    (.cons trivial (t := { s with
      client := Function.update s.client c (some (.push s.next p)), next := s.next + 1
      pending := s.pending + 1 }) ?_ (.cons trivial ?_ .nil))
  · simp only [failing, stepFailing, step, hc]
  · simp [failing, stepFailing, step, stepSubmit]
  · simp [failing, stepFailing, throwSubmit_push, submit_throws _ _ _ h, hc]

end Wss.WorkStealing
