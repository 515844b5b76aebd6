import Wss.Spawn.Backend
import Wss.Spawn.Closure

/-!
# `spawn`, `join` and `metrics` over a backend

Model of `spawn` of `include/wss/scheduler.hpp`, `join` of `include/wss/join_handle.hpp` and
`Metrics` of `include/wss/metrics.hpp` as a `Machine` on top of that of a `Backend`. Each increment
of a counter, each of the four loads of `Metrics::snapshot` and each delivery of a result is one
step of a sequentially consistent interleaving.

* Every job is made by `spawn`. The body of a job is the closure: it runs a task of the user's, any
  number of calls of `submit` in it (`Backend.bodyStep`), until that returns or throws
  (`Label.ended`). What the closure does then are its `effects`, one step each, and the body returns
  when they are done.
* `ω` are the threads outside the pool that spawn, `ρ` those that call `metrics`.
* A handle has the result that was delivered to it until `join` has taken it.
* The counters are natural numbers: each counts calls that were made one by one.
* The model of `FairScheduler` has a delivery and a `join` of its own. They are no steps of any
  thread here.
* `recorded` and the fields after it are history: no step reads them but `submit`, whose thread has
  recorded its own job, and `join`, which looks for the result of its own job.
-/

namespace Wss.Spawn

open Wss.Lib

/-- `RuntimeMetrics`, also the counters of `Metrics`. -/
structure RuntimeMetrics where
  tasksSubmitted : ℕ
  tasksCompleted : ℕ
  tasksPanicked : ℕ
  tasksStolen : ℕ
  deriving DecidableEq

/-- Where a worker that runs a job is, in what its backend does not see. -/
inductive TaskPc (E V : Type)
  /-- Before `record_stolen`. -/
  | stolen
  /-- In the user's code, if it runs a job at all. -/
  | body
  /-- The user's code has ended, and these effects of the closure are left. -/
  | closure (rest : List (Effect E V))

/-- Where a call of `metrics` is: the next load of `Metrics::snapshot`, with the values so far. -/
inductive ReaderPc
  /-- Outside, or before the load of `submitted_`. -/
  | submitted
  | completed (tasksSubmitted : ℕ)
  | panicked (tasksSubmitted tasksCompleted : ℕ)
  | stolen (tasksSubmitted tasksCompleted tasksPanicked : ℕ)
  deriving DecidableEq

/-- A job whose handle was joined, and the result that `join` has returned. -/
abbrev Joined (E V : Type) := ℕ × Result E V

/-- The scheduler with the counters and the handles, and the calls of `metrics` in progress. -/
structure State {N : ℕ} (B : Backend N) (E V ρ : Type) where
  base : B.State
  metrics : RuntimeMetrics
  task : Fin N → TaskPc E V
  reader : ρ → ReaderPc
  /-- Jobs whose submission was recorded. -/
  recorded : List ℕ
  /-- What the closures have done, each with its job. -/
  log : List (ℕ × Effect E V)
  /-- The calls of `join` that have returned. -/
  joined : List (Joined E V)
  /-- Those that had, when the last call of `metrics` by a thread began. -/
  before : ρ → List (Joined E V)
  /-- What the calls of `metrics` have returned, each with what was joined when it began. -/
  snapshots : List (List (Joined E V) × RuntimeMetrics)

/-- What the threads do. -/
inductive Label {N : ℕ} (B : Backend N) (E V ρ : Type)
  /-- A step of the backend. -/
  | base (l : B.Label)
  /-- `record_submitted`, by the thread whose next step in the backend is `l`. -/
  | record (l : B.Label)
  /-- `record_stolen`, by worker `w`. -/
  | stolen (w : Fin N)
  /-- The user's code that worker `w` runs ends. -/
  | ended (w : Fin N) (task : Task E V)
  /-- The next effect of the closure that worker `w` runs. -/
  | closure (w : Fin N)
  /-- A `join` on the handle of a job returns. -/
  | join (job : ℕ)
  /-- The next load of `metrics`. -/
  | load (r : ρ)

namespace TaskPc

variable {E V : Type}

/-- The worker is in the user's code, if it runs a job. -/
def isBody : TaskPc E V → Bool
  | .body => true
  | .stolen | .closure _ => false

/-- The closure has nothing left to do. -/
def isDone : TaskPc E V → Bool
  | .closure [] => true
  | .stolen | .body | .closure (_ :: _) => false

end TaskPc

/-- The counters after an effect of a closure. -/
def RuntimeMetrics.count {E V : Type} (m : RuntimeMetrics) : Effect E V → RuntimeMetrics
  | .recordPanic => { m with tasksPanicked := m.tasksPanicked + 1 }
  | .recordCompleted => { m with tasksCompleted := m.tasksCompleted + 1 }
  | .deliver _ => m

variable {N : ℕ} {B : Backend N} {E V ρ : Type}

namespace State

variable (s : State B E V ρ)

/-- The job of worker `w` goes on. -/
def setTask (w : Fin N) (pc : TaskPc E V) : State B E V ρ :=
  { s with task := Function.update s.task w pc }

/-- Whether the thread that makes step `l` of the backend has got there. -/
def ready (l : B.Label) : Bool :=
  (B.entry s.base l).all (· ∈ s.recorded) &&
    match B.bodyStep l with
    | some (.submits w) => (s.task w).isBody
    | some (.returns w) => (s.task w).isDone
    | none => true

/-- The program counters after step `l` of the backend to `b`. -/
def taskAfter (l : B.Label) (b : B.State) : Fin N → TaskPc E V :=
  match B.bodyStep l, B.stolen s.base l b with
  | some (.returns w), _ => Function.update s.task w .body
  | _, some w => Function.update s.task w .stolen
  | _, none => s.task

/-- The result in the handle of a job. -/
def delivered (job : ℕ) : Option (Result E V) := (valuesAt job s.log).findSome? Effect.delivered

end State

/-- The initial state over that of the backend. -/
def initial (b : B.State) : State B E V ρ :=
  { base := b, metrics := ⟨0, 0, 0, 0⟩, task := fun _ => .body, reader := fun _ => .submitted
    recorded := [], log := [], joined := [], before := fun _ => [], snapshots := [] }

section Code

variable [DecidableEq ρ]

/-- The next load of `Metrics::snapshot`. -/
def stepReader (s : State B E V ρ) (r : ρ) : State B E V ρ :=
  match s.reader r with
  | .submitted => { s with
      reader := Function.update s.reader r (.completed s.metrics.tasksSubmitted)
      before := Function.update s.before r s.joined }
  | .completed submitted => { s with
      reader := Function.update s.reader r (.panicked submitted s.metrics.tasksCompleted) }
  | .panicked submitted completed => { s with
      reader := Function.update s.reader r (.stolen submitted completed s.metrics.tasksPanicked) }
  | .stolen submitted completed panicked => { s with
      reader := Function.update s.reader r .submitted
      snapshots := s.snapshots ++
        [(s.before r, ⟨submitted, completed, panicked, s.metrics.tasksStolen⟩)] }

/-- One step. Those of the backend wait for what `spawn` and the closure do before them. -/
def step (what : E → Option String) (s : State B E V ρ) : Label B E V ρ → Option (State B E V ρ)
  | .base l =>
    if s.ready l then
      (B.machine.step s.base l).map fun b => { s with base := b, task := s.taskAfter l b }
    else none
  | .record l =>
    match B.entry s.base l with
    | some job =>
      if job ∈ s.recorded then none
      else some { s with
        metrics := { s.metrics with tasksSubmitted := s.metrics.tasksSubmitted + 1 }
        recorded := s.recorded ++ [job] }
    | none => none
  | .stolen w =>
    match s.task w with
    | .stolen => some { s.setTask w .body with
        metrics := { s.metrics with tasksStolen := s.metrics.tasksStolen + 1 } }
    | _ => none
  | .ended w task =>
    if (s.task w).isBody ∧ (B.machine.step s.base (B.finish w)).isSome then
      some (s.setTask w (.closure (effects what task)))
    else none
  | .closure w =>
    match s.task w, B.running s.base w with
    | .closure (e :: rest), some job => some { s.setTask w (.closure rest) with
        metrics := s.metrics.count e, log := s.log ++ [(job, e)] }
    | _, _ => none
  | .join job =>
    match s.delivered job with
    | some result =>
      if job ∈ s.joined.map Prod.fst then none
      else some { s with joined := s.joined ++ [(job, result)] }
    | none => none
  | .load r => some (stepReader s r)

/-- A scheduler whose jobs come from `spawn`, and every interleaving on it. -/
def machine (B : Backend N) (what : E → Option String) (V ρ : Type) [DecidableEq ρ] :
    Machine (State B E V ρ) (Label B E V ρ) where
  init s := ∃ b, B.machine.init b ∧ s = initial b
  step := step what

end Code

/-- The tasks return `void`, or throw, or the moves of their values do not. -/
def Behaving (_ : State B E V ρ) : Label B E V ρ → Prop
  | .ended _ task => Behaves task
  | .base _ | .record _ | .stolen _ | .closure _ | .join _ | .load _ => True

end Wss.Spawn
