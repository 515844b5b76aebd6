import Wss.Monitor.Shutdown
import Wss.Spawn.Backend
import Mathlib.Data.List.FinRange

/-!
# The life cycle of a scheduler

Construction, use and destruction of a scheduler, on top of the `Machine` of each of the four
backends.

* The constructor starts the workers one after another, and a worker runs from then on. The creation
  of a thread may throw: then the constructor throws, and the threads started before are destroyed
  with `workers_`.
* The destructor calls `shutdown`, then the threads are destroyed with `workers_`.
* The destructor of a `jthread` that was not joined joins it. It requests a stop first, which no
  worker reads. In which order a vector destroys its elements is left open.

Whether a worker was notified is read off the worker (`Pool.notified`): it does not sleep in a wait
that nothing will end. Its notification can be lost where `shutdown` runs against a worker that is
about to sleep, and `Pool.settled` says which steps are taken at no such moment.

* `Safe`: where the destructor of a thread joins its worker, the worker was told to stop.
* `Awaited`: the workers that the `shutdown` of the destructor joins are among these.
-/

namespace Wss.Lifecycle

open Wss.Lib

/-- Who makes a step. -/
inductive Actor (N : ℕ)
  | worker (w : Fin N)
  /-- A thread that calls `shutdown`. -/
  | shutdown
  /-- A thread inside `shutdown`. -/
  | control
  /-- Any other thread outside the pool. -/
  | outside

/-- What the life cycle of a scheduler with `N` workers depends on. -/
structure Pool (N : ℕ) where
  State : Type
  Label : Type
  machine : Machine State Label
  actor : Label → Actor N
  shutdown : Label
  flag : State → Bool
  /-- `shutdown` has joined so many workers. -/
  progress : State → Option ℕ
  /-- The worker does not sleep, or has still to be woken. -/
  notified : State → Fin N → Prop
  /-- No notification is lost by the step. -/
  settled : State → Label → Bool
  /-- The worker has left its loop. -/
  exited : State → Fin N → Bool

/-! ## The four backends -/

namespace IdleSignal

/-- How many workers `shutdown` has joined. -/
def progress (N : ℕ) : ControlPc → Option ℕ
  | .join k => some k
  | .returned => some N
  | .idle | .store | .ring => none

end IdleSignal

namespace WorkStealing

variable {N : ℕ} {ω : Type}

/-- A worker that sleeps with the current generation has read that a job is pending, and the last
job has still to notify. -/
def notified (s : WorkStealing.State N ω) (w : Fin N) : Prop :=
  s.worker w = .wait (s.gen % 2 ^ 64) → s.pending ≠ 0 ∨ ∃ u, s.worker u = .ring

/-- Who makes a step of `WorkStealingScheduler`. -/
def actor : WorkStealing.Label N ω → Actor N
  | .nested w _ | .finish w | .worker w => .worker w
  | .shutdown => .shutdown
  | .control => .control
  | .client _ _ | .clientStep _ => .outside

end WorkStealing

/-- `WorkStealingScheduler`. The generation of `idle` does not come around. -/
def workStealing (N : ℕ) (ω : Type) [DecidableEq ω] : Pool N where
  State := WorkStealing.State N ω
  Label := WorkStealing.Label N ω
  machine := WorkStealing.machine N ω
  actor := WorkStealing.actor
  shutdown := .shutdown
  flag := WorkStealing.State.shutdownFlag
  progress s := IdleSignal.progress N s.control
  notified := WorkStealing.notified
  settled s _ := s.gen + 1 < 2 ^ 64
  exited s w := s.worker w = .exited

namespace Fair

variable {R : Type} {N : ℕ} {ω : Type}

/-- A worker that sleeps with the current generation has read that a job is pending, and the last
job has still to notify. -/
def notified (s : Fair.State R N ω) (w : Fin N) : Prop :=
  s.worker w = .wait (s.gen % 2 ^ 64) →
    s.pending ≠ 0 ∨ ∃ u id job, s.worker u = .ring id job

/-- Who makes a step of `FairScheduler`. -/
def actor : Fair.Label R N ω → Actor N
  | .nested w _ | .finish w | .worker w | .account w _ => .worker w
  | .shutdown => .shutdown
  | .control => .control
  | .client _ _ | .clientStep _ | .register _ _ | .join _ _ => .outside

end Fair

/-- `FairScheduler`. The generation of `idle_` does not come around. -/
def fair (N : ℕ) (ω : Type) [DecidableEq ω] : Pool N where
  State := Fair.State ℚ N ω
  Label := Fair.Label ℚ N ω
  machine := Fair.machine ℚ N ω
  actor := Fair.actor
  shutdown := .shutdown
  flag := Fair.State.shutdownFlag
  progress s := IdleSignal.progress N s.control
  notified := Fair.notified
  settled s _ := s.gen + 1 < 2 ^ 64
  exited := Fair.State.hasExited

namespace Monitor

variable {N K : ℕ} {Q ω : Type}

/-- A worker is neither in the wait set nor about to enter it. -/
def notified (s : Monitor.State N K Q ω) (w : Fin N) : Prop :=
  s.worker w ≠ .wait ∧ s.worker w ≠ .waiting

/-- Who makes a step of a backend on mutexes. -/
def actor : Monitor.Label N ω → Actor N
  | .nested w _ | .finish w | .worker w _ | .spurious w => .worker w
  | .shutdown => .shutdown
  | .control => .control
  | .client _ _ | .clientStep _ _ => .outside

/-- How many workers `shutdown` has joined. -/
def progress (N : ℕ) : Monitor.ControlPc → Option ℕ
  | .join k => some k
  | .returned => some N
  | .idle | .store | .notify _ => none

end Monitor

/-- A backend on mutexes. No `notify_all` of `shutdown` is issued while a worker is between reading
the flag and entering the wait set. -/
def monitor {N K : ℕ} {Q : Type} (L : Monitor.Layout N K Q) (ω : Type) [DecidableEq ω] :
    Pool N where
  State := Monitor.State N K Q ω
  Label := Monitor.Label N ω
  machine := Monitor.machine L ω
  actor := Monitor.actor
  shutdown := .shutdown
  flag := Monitor.State.shutdownFlag
  progress s := Monitor.progress N s.control
  notified := Monitor.notified
  settled s l := decide (Monitor.Settled L s l)
  exited s w := s.worker w = .exited

/-- The scheduler of each kind. -/
def pool (N : ℕ) [NeZero N] (ω : Type) [DecidableEq ω] : Spawn.Kind → Pool N
  | .workStealing => workStealing N ω
  | .fair => fair N ω
  | .globalQueue => monitor (Monitor.globalQueue N) ω
  | .threadPerCore => monitor (Monitor.threadPerCore N) ω

/-! ## The life cycle -/

/-- How far the life of a scheduler has come. -/
inductive Phase (N : ℕ)
  /-- In the constructor, with `k` workers started. -/
  | constructing (k : ℕ)
  /-- Constructed. -/
  | running
  /-- In the destructor, which has called `shutdown`. -/
  | destroying
  /-- In the destructor of `workers_`, which has `k` threads, with these left to destroy. -/
  | freeing (k : ℕ) (rest : List (Fin N))
  deriving DecidableEq

variable {N : ℕ}

/-- A scheduler, from the start of its constructor on. -/
structure State (P : Pool N) where
  /-- What the scheduler itself is made of. -/
  base : P.State
  phase : Phase N
  /-- The threads that `shutdown` has joined. -/
  joined : Fin N → Bool

/-- What happens in the life of a scheduler. -/
inductive Label (P : Pool N)
  /-- A step of the scheduler. -/
  | base (l : P.Label)
  /-- The constructor starts a worker. -/
  | create
  /-- The creation of a thread throws, and `workers_` is destroyed in this order. -/
  | throw (order : List (Fin N))
  /-- The destructor calls `shutdown`. -/
  | destroy
  /-- `shutdown` has returned to the destructor, and `workers_` is destroyed in this order. -/
  | free (order : List (Fin N))
  /-- The destructor of the next thread returns. -/
  | next

/-- The workers that are started first. -/
def firstWorkers (N k : ℕ) : List (Fin N) := (List.finRange N).filter fun w => w.1 < k

variable {P : Pool N}

namespace State

variable (s : State P)

/-- The thread that makes step `l` of the scheduler may be there: a worker that was started, and any
other while the scheduler is in use. -/
def allows (l : P.Label) : Bool :=
  match s.phase, P.actor l with
  | .constructing k, .worker w | .freeing k _, .worker w => w.1 < k
  | .constructing _, _ | .freeing _ _, _ => false
  | .running, _ => true
  | .destroying, .shutdown => false
  | .destroying, _ => true

/-- The threads that are joined after step `l` of the scheduler. -/
def joinedAfter (l : P.Label) : Fin N → Bool := fun w =>
  match P.actor l with
  | .control => s.joined w || P.progress s.base == some w.1
  | .worker _ | .shutdown | .outside => s.joined w

end State

/-- What each of these does. -/
def step (s : State P) : Label P → Option (State P)
  | .base l =>
    if s.allows l then
      (P.machine.step s.base l).map fun b => { s with base := b, joined := s.joinedAfter l }
    else none
  | .create =>
    match s.phase with
    | .constructing k =>
      some { s with phase := if k + 1 < N then .constructing (k + 1) else .running }
    | _ => none
  | .throw order =>
    match s.phase with
    | .constructing k =>
      if order.Perm (firstWorkers N k) then some { s with phase := .freeing k order } else none
    | _ => none
  | .destroy =>
    match s.phase with
    | .running =>
      (P.machine.step s.base P.shutdown).map fun b => { s with base := b, phase := .destroying }
    | _ => none
  | .free order =>
    match s.phase with
    | .destroying =>
      if P.progress s.base = some N ∧ order.Perm (firstWorkers N N) then
        some { s with phase := .freeing N order }
      else none
    | _ => none
  | .next =>
    match s.phase with
    | .freeing k (w :: rest) =>
      if s.joined w ∨ P.exited s.base w then some { s with phase := .freeing k rest } else none
    | _ => none

/-- A scheduler from the start of its constructor on, and every interleaving. -/
def machine (P : Pool N) : Machine (State P) (Label P) where
  init s := ∃ b, P.machine.init b ∧ s = ⟨b, .constructing 0, fun _ => false⟩
  step := step

/-! ## Who is waited for -/

/-- The destruction of `workers_` joins a worker: its thread is destroyed, and was not joined. -/
def State.Joining (s : State P) (w : Fin N) : Prop :=
  ∃ k rest, s.phase = .freeing k (w :: rest) ∧ s.joined w = false

/-- A worker was told to stop. -/
def State.Told (s : State P) (w : Fin N) : Prop :=
  P.flag s.base = true ∧ P.notified s.base w

/-- A worker that the destruction of `workers_` joins was told to stop. -/
def Safe (s : State P) : Prop := ∀ w, s.Joining w → s.Told w

/-- The tear-down waits for a worker: the destruction of `workers_` joins it, or the `shutdown` that
the destructor calls does. -/
def State.Awaited (s : State P) (w : Fin N) : Prop :=
  s.Joining w ∨ s.phase = .destroying ∧ P.progress s.base = some w.1

/-- No thread creation throws but the first. -/
def Sparing (s : State P) : Label P → Prop
  | .throw _ => s.phase = .constructing 0
  | .base _ | .create | .destroy | .free _ | .next => True

instance (s : State P) : DecidablePred (Sparing s)
  | .throw _ => inferInstanceAs (Decidable (s.phase = .constructing 0))
  | .base _ | .create | .destroy | .free _ | .next => isTrue trivial

/-- No notification is lost. -/
def Calm (s : State P) : Label P → Prop
  | .base l => P.settled s.base l = true
  | .destroy => P.settled s.base P.shutdown = true
  | .create | .throw _ | .free _ | .next => True

instance (s : State P) : DecidablePred (Calm s)
  | .base l => inferInstanceAs (Decidable (P.settled s.base l = true))
  | .destroy => inferInstanceAs (Decidable (P.settled s.base P.shutdown = true))
  | .create | .throw _ | .free _ | .next => isTrue trivial

end Wss.Lifecycle
