import Wss.Fair.Tables
import Wss.Lib.Machine
import Wss.Shutdown
import Mathlib.Algebra.Order.Ring.Nat

/-!
# `FairScheduler`: the code, one critical section or atomic operation a step

Model of `src/fair_scheduler.cpp` with `spawn` of `include/wss/scheduler.hpp` and `join` of
`include/wss/join_handle.hpp` as a `Machine`. `N` workers run `worker_loop`, the threads `ω` outside
the pool call `submit`, and one thread calls `shutdown`, possibly again after it has returned. Each
critical section of `mu_`, each atomic operation on `gen_`, `pending_` and `shutdown_flag_` and each
delivery of a result is one step of a sequentially consistent interleaving.

* Jobs are numbered in the order of the calls of `submit`. A job is made by `spawn`: its body is
  arbitrary code that may call `submit` any number of times (`Label.nested`) and returns
  (`Label.finish`), then its result is delivered to its handle. `wrap_with_bookkeeping` and
  `worker_loop` go on from there: `uncount`, `ring`, `account`.
* `Label.account w elapsed`: the time that worker `w` measured is `elapsed`.
* `Label.join`: a `join` on the handle of a job returns. It blocks until the result is there, and
  takes it away.
* `gen_` has 64 bits, so what a thread reads is the number of notifications modulo `2 ^ 64`.
  `pending_` is a natural number: it counts jobs that each occupy memory.
* `enqueued` and the fields after it are history: no step reads them but `join`, which looks for the
  result of its own job.

Out of scope here: `Metrics`, bodies that throw, and failing allocations (`Failure.lean`).
-/

namespace Wss.Fair

open Wss.Lib

/-- Where a call of `submit` is: the next step of it. -/
inductive SubmitPc (R : Type)
  /-- Before `pending_.fetch_add`. -/
  | count (job : ℕ) (opts : SubmitOptions R)
  /-- Before the critical section. -/
  | enqueue (job : ℕ) (opts : SubmitOptions R)
  /-- Before the `fetch_add` of `idle_.notify`. -/
  | ring (job : ℕ)
  /-- About to return. -/
  | done (job : ℕ)

/-- Where a worker is: the next step of `worker_loop`. -/
inductive WorkerPc (R : Type)
  /-- Before `idle_.current`. -/
  | current
  /-- Before the critical section in which it takes a job. -/
  | dispatch (gen : ℕ)
  /-- Running the body of a job, which may be inside a call of `submit`. -/
  | body (id : ClassId) (job : ℕ) (call : Option (SubmitPc R))
  /-- The body has returned: before the delivery of the result. -/
  | deliver (id : ClassId) (job : ℕ)
  /-- Before `pending_.fetch_sub`. -/
  | uncount (id : ClassId) (job : ℕ)
  /-- Before the `fetch_add` of `idle_.notify`. -/
  | ring (id : ClassId) (job : ℕ)
  /-- Before the critical section in which it accounts for the job. -/
  | account (id : ClassId) (job : ℕ)
  /-- Before `shutdown_flag_.load`. -/
  | loadFlag (gen : ℕ)
  /-- Before `pending_.load`. -/
  | loadPending (gen : ℕ)
  /-- In `idle_.wait`. -/
  | wait (gen : ℕ)
  /-- `worker_loop` has returned. -/
  | exited

/-- The scheduler, with the calls in progress on it and its history. -/
structure State (R : Type) (N : ℕ) (ω : Type) where
  tables : Tables R
  pending : ℕ
  shutdownFlag : Bool
  /-- The number of notifications so far. -/
  gen : ℕ
  worker : Fin N → WorkerPc R
  client : ω → Option (SubmitPc R)
  control : ControlPc
  /-- The number of calls of `submit` so far. -/
  next : ℕ
  /-- Jobs filed, with their class. -/
  enqueued : List (ClassId × ℕ)
  /-- Jobs taken by a worker, with their class. -/
  dispatched : List (ClassId × ℕ)
  /-- Jobs whose body has returned. -/
  finished : List ℕ
  /-- Jobs whose result is in their handle. -/
  delivered : List (ClassId × ℕ)
  /-- Jobs whose handle was joined. -/
  joined : List (ClassId × ℕ)
  /-- Jobs accounted for, with their class and the time they took. -/
  accounted : List (ClassId × ℕ × R)

/-- What the threads do. -/
inductive Label (R : Type) (N : ℕ) (ω : Type)
  /-- A thread outside the pool calls `submit`. -/
  | client (c : ω) (opts : SubmitOptions R)
  /-- The next step of its call. -/
  | clientStep (c : ω)
  /-- `register_class` returns. -/
  | register (name : String) (weight : R)
  /-- The job worker `w` runs calls `submit`. -/
  | nested (w : Fin N) (opts : SubmitOptions R)
  /-- The body of the job worker `w` runs returns. -/
  | finish (w : Fin N)
  /-- The next step of `worker_loop`, or of the `submit` its job is in. -/
  | worker (w : Fin N)
  /-- Worker `w` accounts for its job, which took `elapsed`. -/
  | account (w : Fin N) (elapsed : R)
  /-- A `join` on the handle of a job returns. -/
  | join (id : ClassId) (job : ℕ)
  /-- `shutdown` is called. -/
  | shutdown
  /-- The next step of `shutdown`. -/
  | control

variable {R : Type} {N : ℕ} {ω : Type}

/-- `FairScheduler(num_workers)`, `none` where it throws. -/
def construct (R : Type) [Zero R] (N : ℕ) (ω : Type) : Option (State R N ω) :=
  if N = 0 then none
  else some
    { tables := emptyTables, pending := 0, shutdownFlag := false, gen := 0
      worker := fun _ => .current, client := fun _ => none, control := .idle, next := 0
      enqueued := [], dispatched := [], finished := [], delivered := [], joined := []
      accounted := [] }

/-- Worker `w` goes on. -/
def State.setWorker (s : State R N ω) (w : Fin N) (pc : WorkerPc R) : State R N ω :=
  { s with worker := Function.update s.worker w pc }

@[simp] theorem setWorker_self (s : State R N ω) (w : Fin N) (pc : WorkerPc R) :
    (s.setWorker w pc).worker w = pc :=
  Function.update_self _ _ _

theorem setWorker_of_ne (s : State R N ω) {w u : Fin N} (pc : WorkerPc R) (h : u ≠ w) :
    (s.setWorker w pc).worker u = s.worker u :=
  Function.update_of_ne h _ _

section Code

variable [Zero R] [One R] [Add R] [Div R] [LE R] [DecidableLE R] [LT R] [DecidableLT R]

/-- The next step of a call of `submit`, and where it is then. -/
def stepSubmit (s : State R N ω) : SubmitPc R → Option (State R N ω × Option (SubmitPc R))
  | .count job opts => some ({ s with pending := s.pending + 1 }, some (.enqueue job opts))
  | .enqueue job opts =>
    (enqueue s.tables job opts).map fun (t, id) =>
      ({ s with tables := t, enqueued := s.enqueued ++ [(id, job)] }, some (.ring job))
  | .ring job => some ({ s with gen := s.gen + 1 }, some (.done job))
  | .done _ => some (s, none)

/-- The next step of worker `w`, but for the one that accounts for a job. -/
def stepWorker (s : State R N ω) (w : Fin N) : Option (State R N ω) :=
  match s.worker w with
  | .current => some (s.setWorker w (.dispatch (s.gen % 2 ^ 64)))
  | .dispatch gen =>
    (dispatch s.tables).map fun (t, r) =>
      match r with
      | none => { s with tables := t }.setWorker w (.loadFlag gen)
      | some (id, job) => { s with
          tables := t, dispatched := s.dispatched ++ [(id, job)] }.setWorker w (.body id job none)
  | .body _ _ none => none
  | .body id job (some call) =>
    (stepSubmit s call).map fun (s, call) => s.setWorker w (.body id job call)
  | .deliver id job =>
    some ({ s with delivered := s.delivered ++ [(id, job)] }.setWorker w (.uncount id job))
  | .uncount id job => some ({ s with pending := s.pending - 1 }.setWorker w (.ring id job))
  | .ring id job => some ({ s with gen := s.gen + 1 }.setWorker w (.account id job))
  | .account _ _ => none
  | .loadFlag gen =>
    if s.shutdownFlag then some (s.setWorker w (.loadPending gen))
    else some (s.setWorker w (.wait gen))
  | .loadPending gen =>
    if s.pending = 0 then some (s.setWorker w .exited) else some (s.setWorker w (.wait gen))
  | .wait gen => if s.gen % 2 ^ 64 = gen then none else some (s.setWorker w .current)
  | .exited => none

/-- `joinable` no more: the worker has left `worker_loop`. -/
def State.hasExited (s : State R N ω) (w : Fin N) : Bool :=
  match s.worker w with
  | .exited => true
  | _ => false

/-- The next step of `shutdown`. -/
def stepControl (s : State R N ω) : Option (State R N ω) :=
  match s.control with
  | .idle | .returned => none
  | .store => some { s with shutdownFlag := true, control := .ring }
  | .ring => some { s with gen := s.gen + 1, control := joinNext N 0 }
  | .join k =>
    if h : k < N then
      if s.hasExited ⟨k, h⟩ then some { s with control := joinNext N (k + 1) } else none
    else none

variable [DecidableEq ω]

/-- One step. -/
def step (s : State R N ω) : Label R N ω → Option (State R N ω)
  | .client c opts =>
    match s.client c with
    | none => some { s with
        client := Function.update s.client c (some (.count s.next opts)), next := s.next + 1 }
    | some _ => none
  | .clientStep c =>
    match s.client c with
    | none => none
    | some call => (stepSubmit s call).map fun (s, call) =>
        { s with client := Function.update s.client c call }
  | .register name weight =>
    (registerClass s.tables name weight).map fun t => { s with tables := t }
  | .nested w opts =>
    match s.worker w with
    | .body id job none => some { s.setWorker w (.body id job (some (.count s.next opts))) with
        next := s.next + 1 }
    | _ => none
  | .finish w =>
    match s.worker w with
    | .body id job none => some { s.setWorker w (.deliver id job) with
        finished := s.finished ++ [job] }
    | _ => none
  | .worker w => stepWorker s w
  | .account w elapsed =>
    match s.worker w with
    | .account id job => (account s.tables id elapsed).map fun t => { s with
        tables := t, accounted := s.accounted ++ [(id, job, elapsed)] }.setWorker w .current
    | _ => none
  | .join id job =>
    if (id, job) ∈ s.delivered ∧ (id, job) ∉ s.joined then
      some { s with joined := s.joined ++ [(id, job)] }
    else none
  | .shutdown =>
    match s.control with
    | .idle | .returned => some { s with control := .store }
    | _ => none
  | .control => stepControl s

/-- A scheduler with `N` workers, and every interleaving on it. -/
def machine (R : Type) [Zero R] [One R] [Add R] [Div R] [LE R] [DecidableLE R] [LT R]
    [DecidableLT R] (N : ℕ) (ω : Type) [DecidableEq ω] : Machine (State R N ω) (Label R N ω) where
  init s := construct R N ω = some s
  step := step

end Code

end Wss.Fair
