import Wss.Fair.Account
import Wss.Monitor.Account
import Wss.WorkStealing.Account
import Mathlib.Algebra.Order.Ring.Unbundled.Rat
import Mathlib.Data.Fintype.Defs

/-!
# The four backends behind one interface

`Backend` is what `spawn` and `metrics` of `include/wss/scheduler.hpp` see of a scheduler: its
`Machine`, and which steps of it they have to do with. `backend` has the four of them, each as its
own model has it.

`record_submitted` is the step of a call of `submit` before `Backend.entry`: the first one of
`WorkStealingScheduler`, `FairScheduler` and `GlobalQueueScheduler`; in `ThreadPerCoreScheduler` it
comes after the ticket is drawn. `record_stolen` is the step of `run_worker` between a `steal` that
has found a job and the call of that job.
-/

namespace Wss.Spawn

open Wss.Lib

/-- What the body of a job does that its scheduler can see. -/
inductive BodyStep (N : ℕ)
  /-- The job of worker `w` calls `submit`. -/
  | submits (w : Fin N)
  /-- The job of worker `w` returns. -/
  | returns (w : Fin N)
  deriving DecidableEq

/-- A scheduler with `N` workers. -/
structure Backend (N : ℕ) where
  State : Type
  Label : Type
  machine : Machine State Label
  /-- The job whose call of `submit` makes its first step after `record_submitted`. -/
  entry : State → Label → Option ℕ
  /-- The job whose body a worker runs. -/
  running : State → Fin N → Option ℕ
  /-- The job of a worker returns. -/
  finish : Fin N → Label
  bodyStep : Label → Option (BodyStep N)
  /-- The worker that has stolen the job it runs from this step on. -/
  stolen : State → Label → State → Option (Fin N)

/-! ## `WorkStealingScheduler` -/

namespace WorkStealing

open Wss.WorkStealing

variable {N : ℕ} {ω : Type}

/-- The job of a call of `submit` that comes to its `fetch_add`. -/
def entering : Option SubmitPc → Option ℕ
  | some (.count job _) => some job
  | _ => none

/-- The job that a worker runs. -/
def running : WorkerPc N → Option ℕ
  | .body job _ => some job
  | _ => none

/-- The job that enters: the caller of `submit` is a thread outside or the body of another job. -/
def entry (s : State N ω) : Label N ω → Option ℕ
  | .clientStep c => entering (s.client c)
  | .worker w => entering (s.worker w).call
  | _ => none

/-- The steps of a body. -/
def bodyStep : Label N ω → Option (BodyStep N)
  | .nested w _ => some (.submits w)
  | .finish w => some (.returns w)
  | _ => none

/-- The worker whose `steal` has found a job. -/
def stolen (s : State N ω) (l : Label N ω) (s' : State N ω) : Option (Fin N) :=
  match l with
  | .worker w =>
    match s.worker w, s'.worker w with
    | .steal _ _, .body _ _ => some w
    | _, _ => none
  | _ => none

end WorkStealing

/-- `WorkStealingScheduler` as a backend. -/
def workStealing (N : ℕ) (ω : Type) [DecidableEq ω] : Backend N where
  State := WorkStealing.State N ω
  Label := WorkStealing.Label N ω
  machine := WorkStealing.machine N ω
  entry := WorkStealing.entry
  running s w := WorkStealing.running (s.worker w)
  finish := .finish
  bodyStep := WorkStealing.bodyStep
  stolen := WorkStealing.stolen

/-! ## `FairScheduler` -/

namespace Fair

open Wss.Fair

variable {R : Type} {N : ℕ} {ω : Type}

/-- The job of a call of `submit` that comes to its `fetch_add`. -/
def entering : Option (SubmitPc R) → Option ℕ
  | some (.count job _) => some job
  | _ => none

/-- The job that a worker runs. -/
def running : WorkerPc R → Option ℕ
  | .body _ job _ => some job
  | _ => none

/-- The job that enters: the caller of `submit` is a thread outside or the body of another job. -/
def entry (s : State R N ω) : Label R N ω → Option ℕ
  | .clientStep c => entering (s.client c)
  | .worker w => entering (s.worker w).call
  | _ => none

/-- The steps of a body. -/
def bodyStep : Label R N ω → Option (BodyStep N)
  | .nested w _ => some (.submits w)
  | .finish w => some (.returns w)
  | _ => none

end Fair

/-- `FairScheduler` as a backend. Nothing is ever stolen. -/
def fair (N : ℕ) (ω : Type) [DecidableEq ω] : Backend N where
  State := Fair.State ℚ N ω
  Label := Fair.Label ℚ N ω
  machine := Fair.machine ℚ N ω
  entry := Fair.entry
  running s w := Fair.running (s.worker w)
  finish := .finish
  bodyStep := Fair.bodyStep
  stolen _ _ _ := none

/-! ## `GlobalQueueScheduler` and `ThreadPerCoreScheduler` -/

namespace Monitor

open Wss.Monitor

variable {N K : ℕ} {Q ω : Type}

/-- The job of a call of `submit` that comes to the mutex. -/
def entering : Option (SubmitPc K) → Option ℕ
  | some (.lock job _ _) => some job
  | _ => none

/-- The job that enters: the caller of `submit` is a thread outside or the body of another job. -/
def entry (s : State N K Q ω) : Label N ω → Option ℕ
  | .clientStep c _ => entering (s.client c)
  | .worker w _ => entering (s.worker w).call
  | _ => none

/-- The steps of a body. -/
def bodyStep : Label N ω → Option (BodyStep N)
  | .nested w _ => some (.submits w)
  | .finish w => some (.returns w)
  | _ => none

end Monitor

/-- `GlobalQueueScheduler` or `ThreadPerCoreScheduler` as a backend. Nothing is ever stolen. -/
def monitor {N K : ℕ} {Q : Type} (L : Monitor.Layout N K Q) (ω : Type) [DecidableEq ω] :
    Backend N where
  State := Monitor.State N K Q ω
  Label := Monitor.Label N ω
  machine := Monitor.machine L ω
  entry := Monitor.entry
  running s w := (s.worker w).running
  finish := .finish
  bodyStep := Monitor.bodyStep
  stolen _ _ _ := none

/-! ## All of them -/

/-- The backends. -/
inductive Kind
  | workStealing
  | fair
  | globalQueue
  | threadPerCore

/-- The scheduler of each kind with `N` workers and the threads `ω` outside the pool. -/
def backend (N : ℕ) [NeZero N] (ω : Type) [DecidableEq ω] : Kind → Backend N
  | .workStealing => workStealing N ω
  | .fair => fair N ω
  | .globalQueue => monitor (Monitor.globalQueue N) ω
  | .threadPerCore => monitor (Monitor.threadPerCore N) ω

end Wss.Spawn
