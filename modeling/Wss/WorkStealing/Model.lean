import Wss.Priority
import Wss.Shutdown
import Wss.WorkStealing.Injector

/-!
# `WorkStealingScheduler`: the code, one atomic operation a step

Model of `src/work_stealing_scheduler.cpp` and `include/wss/idle_signal.hpp` as a `Machine`. `N`
workers run `run_worker`, the threads `ω` outside the pool call `submit`, and one thread calls
`shutdown`, possibly again after it has returned. Each atomic operation of the scheduler and of the
deques and each critical section of an injector is one step of a sequentially consistent
interleaving.

* Jobs are numbered in the order of the calls of `submit`. The closure `wrapped` of a job is its
  number; running it is `WorkerPc.body`, `uncount` and `ring`.
* A job's body is arbitrary code: it may call `submit` any number of times (`Label.nested`) and then
  returns normally (`Label.finish`).
* A worker blocked in `IdleSignal::wait` moves once `gen_` differs from what it observed. `gen_`
  has 64 bits, so what a thread reads is the number of notifications modulo `2 ^ 64`.
* `pending_` is a natural number: it counts jobs that each occupy memory, so it stays below
  `2 ^ 64`.
* `rung` and the fields after it are history: no step reads them.

Out of scope here: `Metrics`, which no other part of the scheduler reads, jobs that throw, and
failing allocations (`Failure.lean`).
-/

namespace Wss.WorkStealing

open Wss.Lib ChaseLev

/-- The most jobs a worker takes from an injector at a time. -/
def kInjectorBatchSize : ℕ := 32

/-- `initial_capacity` of a deque where the code gives none. -/
def defaultCapacity : ℕ := 256

/-- Where a call of `submit` is: the next step of it. -/
inductive SubmitPc
  /-- Before `pending.fetch_add`. -/
  | count (job : ℕ) (p : Priority)
  /-- Before the critical section of `Injector::push`. -/
  | push (job : ℕ) (p : Priority)
  /-- Before the `fetch_add` of `idle.notify`. -/
  | ring (job : ℕ)
  /-- About to return. -/
  | done (job : ℕ)
  deriving DecidableEq

/-- Where a worker is: the next step of `run_worker`. -/
inductive WorkerPc (N : ℕ)
  /-- Before `idle.current`. -/
  | current
  /-- `find_task`: popping from the own deques of the priorities left. -/
  | own (gen : ℕ) (ps : List Priority)
  /-- `find_task`: before `pop_batch_into` on the injectors of the priorities left. -/
  | inject (gen : ℕ) (ps : List Priority)
  /-- `find_task`: stealing from the deques left. -/
  | steal (gen : ℕ) (ts : List (Priority × Fin N))
  /-- Running the body of a job, which may be inside a call of `submit`. -/
  | body (job : ℕ) (call : Option SubmitPc)
  /-- The job has run: before `pending.fetch_sub`. -/
  | uncount (job : ℕ)
  /-- The job has run: before the `fetch_add` of `idle.notify`. -/
  | ring
  /-- Before `shutdown_flag.load`. -/
  | loadFlag (gen : ℕ)
  /-- Before `pending.load`. -/
  | loadPending (gen : ℕ)
  /-- In `idle.wait`. -/
  | wait (gen : ℕ)
  /-- `run_worker` has returned. -/
  | exited
  deriving DecidableEq

/-- The scheduler, with the calls in progress on it and its history. -/
structure State (N : ℕ) (ω : Type) where
  deque : Fin N → Priority → ChaseLev.State (Fin N) ℕ
  injector : Priority → List ℕ
  pending : ℕ
  shutdownFlag : Bool
  /-- The number of notifications so far. -/
  gen : ℕ
  worker : Fin N → WorkerPc N
  client : ω → Option SubmitPc
  control : ControlPc
  /-- The number of calls of `submit` so far. -/
  next : ℕ
  /-- Jobs whose `submit` has notified. -/
  rung : List ℕ
  /-- Jobs whose `submit` has returned. -/
  returned : List ℕ
  /-- Jobs whose body was called. -/
  started : List ℕ
  /-- Jobs whose body has returned. -/
  finished : List ℕ
  /-- Which worker won the compare-and-swap for each index of a deque. -/
  winners : Fin N → Priority → List (Fin N)
  /-- The compare-and-swaps a worker lost in its current search: the deque and the index. -/
  lost : Fin N → List (Priority × Fin N × ℤ)

/-- `WorkStealingScheduler(num_workers)`, `none` where it throws. -/
def construct (N : ℕ) (ω : Type) : Option (State N ω) :=
  if N = 0 then none
  else (ChaseLev.construct defaultCapacity).map fun d =>
    { deque := fun _ _ => d, injector := fun _ => [], pending := 0, shutdownFlag := false, gen := 0
      worker := fun _ => .current, client := fun _ => none, control := .idle, next := 0, rung := []
      returned := [], started := [], finished := [], winners := fun _ _ => [], lost := fun _ => [] }

/-- What the threads do. -/
inductive Label (N : ℕ) (ω : Type)
  /-- A thread outside the pool calls `submit`. -/
  | client (c : ω) (p : Priority)
  /-- The next step of its call. -/
  | clientStep (c : ω)
  /-- The job worker `w` runs calls `submit`. -/
  | nested (w : Fin N) (p : Priority)
  /-- The body of the job worker `w` runs returns. -/
  | finish (w : Fin N)
  /-- The next step of `run_worker`, or of the `submit` its job is in. -/
  | worker (w : Fin N)
  /-- `shutdown` is called. -/
  | shutdown
  /-- The next step of `shutdown`. -/
  | control

variable {N : ℕ} {ω : Type}

namespace State

variable (s : State N ω)

/-- Worker `w` goes on. -/
def setWorker (w : Fin N) (pc : WorkerPc N) : State N ω :=
  { s with worker := Function.update s.worker w pc }

/-- Worker `w` runs the job it has found. -/
def start (w : Fin N) (job : ℕ) : State N ω :=
  { s.setWorker w (.body job none) with started := s.started ++ [job] }

/-- A step of worker `w` on deque `(v, p)`. -/
def setDeque (w v : Fin N) (p : Priority) (d : ChaseLev.State (Fin N) ℕ) : State N ω :=
  { s with
    deque := Function.update s.deque v (Function.update (s.deque v) p d)
    winners :=
      if d.top = (s.deque v p).top then s.winners
      else Function.update s.winners v
        (Function.update (s.winners v) p (s.winners v p ++ [w])) }

/-- The injector of priority `p` has these jobs from now on. -/
def setInjector (p : Priority) (queue : List ℕ) : State N ω :=
  { s with injector := Function.update s.injector p queue }

end State

@[simp] theorem setWorker_self (s : State N ω) (w : Fin N) (pc : WorkerPc N) :
    (s.setWorker w pc).worker w = pc :=
  Function.update_self _ _ _

theorem setWorker_of_ne (s : State N ω) {w u : Fin N} (pc : WorkerPc N) (h : u ≠ w) :
    (s.setWorker w pc).worker u = s.worker u :=
  Function.update_of_ne h _ _

/-- The deques worker `w` steals from, in the order of its search. -/
def targets (w : Fin N) : List (Priority × Fin N) :=
  kPriorityOrder.flatMap fun p => ((List.finRange N).filter (· ≠ w)).map fun v => (p, v)

/-- The index of the compare-and-swap that thief `w` loses in a step, for the history. -/
def lostAt (w : Fin N) (d d' : ChaseLev.State (Fin N) ℕ) : Option ℤ :=
  match d.thief w, d'.thief w with
  | .stealCas t _, .stealLost => some t
  | _, _ => none

/-- The next step of a call of `submit`, and where it is then. -/
def stepSubmit (s : State N ω) : SubmitPc → State N ω × Option SubmitPc
  | .count job p => ({ s with pending := s.pending + 1 }, some (.push job p))
  | .push job p => (s.setInjector p (s.injector p ++ [job]), some (.ring job))
  | .ring job => ({ s with gen := s.gen + 1, rung := s.rung ++ [job] }, some (.done job))
  | .done job => ({ s with returned := s.returned ++ [job] }, none)

/-- The next step of worker `w`. -/
def stepWorker (s : State N ω) (w : Fin N) : Option (State N ω) :=
  match s.worker w with
  | .current =>
    some { s.setWorker w (.own (s.gen % 2 ^ 64) kPriorityOrder) with
      lost := Function.update s.lost w [] }
  | .own gen [] => some (s.setWorker w (.inject gen kPriorityOrder))
  | .own gen (p :: ps) =>
    (popStep (s.deque w p)).map fun (d, r) =>
      let s := s.setDeque w w p d
      match r with
      | none => s
      | some none => s.setWorker w (.own gen ps)
      | some (some job) => s.start w job
  | .inject gen [] => some (s.setWorker w (.steal gen (targets w)))
  | .inject gen (p :: ps) =>
    (popBatchInto (s.injector p) (s.deque w p) kInjectorBatchSize).map fun (r, queue, d) =>
      let s := (s.setInjector p queue).setDeque w w p d
      match r with
      | none => s.setWorker w (.inject gen ps)
      | some job => s.start w job
  | .steal gen [] => some (s.setWorker w (.loadFlag gen))
  | .steal gen ((p, v) :: ts) =>
    (stealStep (s.deque v p) w).map fun (d, r) =>
      let lost := (lostAt w (s.deque v p) d).toList.map fun t => (p, v, t)
      let s := { s.setDeque w v p d with lost := Function.update s.lost w (s.lost w ++ lost) }
      match r with
      | none => s
      | some none => s.setWorker w (.steal gen ts)
      | some (some job) => s.start w job
  | .body _ none => none
  | .body job (some call) =>
    let (s, call) := stepSubmit s call
    some (s.setWorker w (.body job call))
  | .uncount _ => some ({ s with pending := s.pending - 1 }.setWorker w .ring)
  | .ring => some ({ s with gen := s.gen + 1 }.setWorker w .current)
  | .loadFlag gen =>
    if s.shutdownFlag then some (s.setWorker w (.loadPending gen))
    else some (s.setWorker w (.wait gen))
  | .loadPending gen =>
    if s.pending = 0 then some (s.setWorker w .exited) else some (s.setWorker w (.wait gen))
  | .wait gen => if s.gen % 2 ^ 64 = gen then none else some (s.setWorker w .current)
  | .exited => none

/-- The next step of `shutdown`. -/
def stepControl (s : State N ω) : Option (State N ω) :=
  match s.control with
  | .idle | .returned => none
  | .store => some { s with shutdownFlag := true, control := .ring }
  | .ring => some { s with gen := s.gen + 1, control := joinNext N 0 }
  | .join k =>
    if h : k < N then
      if s.worker ⟨k, h⟩ = .exited then some { s with control := joinNext N (k + 1) } else none
    else none

variable [DecidableEq ω]

/-- One step. -/
def step (s : State N ω) : Label N ω → Option (State N ω)
  | .client c p =>
    match s.client c with
    | none => some { s with
        client := Function.update s.client c (some (.count s.next p)), next := s.next + 1 }
    | some _ => none
  | .clientStep c =>
    match s.client c with
    | none => none
    | some call =>
      let (s, call) := stepSubmit s call
      some { s with client := Function.update s.client c call }
  | .nested w p =>
    match s.worker w with
    | .body job none => some { s.setWorker w (.body job (some (.count s.next p))) with
        next := s.next + 1 }
    | _ => none
  | .finish w =>
    match s.worker w with
    | .body job none => some { s.setWorker w (.uncount job) with finished := s.finished ++ [job] }
    | _ => none
  | .worker w => stepWorker s w
  | .shutdown =>
    match s.control with
    | .idle | .returned => some { s with control := .store }
    | _ => none
  | .control => stepControl s

/-- A scheduler with `N` workers, and every interleaving on it. -/
def machine (N : ℕ) (ω : Type) [DecidableEq ω] : Machine (State N ω) (Label N ω) where
  init s := construct N ω = some s
  step := step

end Wss.WorkStealing
