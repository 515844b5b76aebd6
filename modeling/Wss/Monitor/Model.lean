import Wss.Lib.Machine
import Wss.Priority
import Mathlib.Algebra.Order.Ring.Nat
import Mathlib.Data.Fintype.Basic
import Mathlib.Logic.Function.Basic

/-!
# The backends on mutexes and condition variables

Model of `src/global_queue_scheduler.cpp` and `src/thread_per_core_scheduler.cpp` as one `Machine`.
The two read the same but for what `Layout` says: how many mutexes there are, the queues each one
guards, the mutex each worker is at and the one a job goes to. Both are instances of it:
`globalQueue` and `threadPerCore`.

`N` workers run `worker_loop`, the threads `ω` outside the pool call `submit`, and one thread calls
`shutdown`, possibly again after it has returned. Taking and releasing a mutex, `wait`,
`notify_one`, `notify_all` and each atomic operation are one step each of a sequentially consistent
interleaving.

* A mutex with its condition variable and the queues it guards is a core. `holder` is the thread
  that has the mutex of a core.
* `wait` releases the mutex and blocks, in one step. A worker in the wait set takes no step: it is
  woken by a notification or spuriously, and then takes the mutex again. A notification of a worker
  is its way out of the wait set.
* Jobs are numbered in the order of the calls of `submit`. A job's body is arbitrary code: it may
  call `submit` any number of times (`Label.nested`) and then returns (`Label.finish`).
* `next_` has 64 bits: what a thread reads is the number of tickets drawn modulo `2 ^ 64`.
* `submitted` and the fields after it are history: no step reads them but `submit`, which takes the
  number of its job from the length of the first.

Out of scope here: `Metrics`, `affinity::pin_to_core`, bodies that throw, and failing allocations.
-/

namespace Wss.Monitor

open Wss.Lib

/-- The options that these backends read. -/
structure SubmitOptions where
  priority : Priority
  coreHint : Option ℕ

/-- What tells the two backends apart, with `N` workers and `K` cores. -/
structure Layout (N K : ℕ) (Q : Type) where
  /-- The core of a worker. -/
  core : Fin N → Fin K
  /-- The queues of a core at first. -/
  empty : Q
  push : Priority → ℕ → Q → Q
  pop : Q → Option (ℕ × Q)
  /-- The core of a job that needs no ticket. -/
  hinted : SubmitOptions → Option (Fin K)
  /-- The core of a job with a ticket. -/
  ticketed : ℕ → Fin K

/-- Where a call of `submit` is: the next step of it. -/
inductive SubmitPc (K : ℕ)
  /-- Before `next_.fetch_add`. -/
  | ticket (job : ℕ) (p : Priority)
  /-- Before the mutex is taken. -/
  | lock (job : ℕ) (k : Fin K) (p : Priority)
  /-- With the mutex, before `push_back`. -/
  | push (job : ℕ) (k : Fin K) (p : Priority)
  /-- With the mutex, before it is released. -/
  | unlock (job : ℕ) (k : Fin K)
  /-- Before `notify_one`. -/
  | notify (job : ℕ) (k : Fin K)
  /-- About to return. -/
  | done (job : ℕ)
  deriving DecidableEq

/-- Where a worker is: the next step of `worker_loop`. -/
inductive WorkerPc (K : ℕ)
  /-- Before the mutex is taken, at first or again after `wait`. -/
  | lock
  /-- With the mutex, before the queues are looked at. -/
  | search
  /-- With the mutex and no job: before `shutdown_flag_.load`. -/
  | loadFlag
  /-- With the mutex, before `cv.wait`. -/
  | wait
  /-- In the wait set. -/
  | waiting
  /-- With the mutex and a job, before the mutex is released. -/
  | unlock (job : ℕ)
  /-- With the mutex, about to return. -/
  | leave
  /-- Running the body of a job, which may be inside a call of `submit`. -/
  | body (job : ℕ) (call : Option (SubmitPc K))
  /-- `worker_loop` has returned. -/
  | exited
  deriving DecidableEq

/-- Where the thread that calls `shutdown` is. -/
inductive ControlPc
  | idle
  /-- Before `shutdown_flag_.store`. -/
  | store
  /-- Before the `notify_all` of core `k`. -/
  | notify (k : ℕ)
  /-- Before the `join` of worker `k`. -/
  | join (k : ℕ)
  /-- `shutdown` has returned. -/
  | returned
  deriving DecidableEq

/-- What happens to the queues of a core. -/
inductive Event (N : ℕ)
  | enqueue (p : Priority) (job : ℕ)
  | dequeue (w : Fin N) (job : ℕ)
  deriving DecidableEq

/-- A thread that takes mutexes: a worker, or one outside the pool. -/
abbrev Thread (N : ℕ) (ω : Type) := Fin N ⊕ ω

/-- The scheduler, with the calls in progress on it and its history. -/
structure State (N K : ℕ) (Q ω : Type) where
  queues : Fin K → Q
  holder : Fin K → Option (Thread N ω)
  shutdownFlag : Bool
  /-- The number of tickets drawn so far. -/
  next : ℕ
  worker : Fin N → WorkerPc K
  client : ω → Option (SubmitPc K)
  control : ControlPc
  /-- The options of the calls of `submit` so far. -/
  submitted : List SubmitOptions
  /-- The jobs that drew a ticket. -/
  tickets : List ℕ
  /-- What happened to the queues, with the core. -/
  log : List (Fin K × Event N)
  /-- Jobs whose `submit` has returned. -/
  returned : List ℕ
  /-- Jobs whose body was called, with their worker. -/
  started : List (Fin N × ℕ)
  /-- Jobs whose body has returned, with their worker. -/
  finished : List (Fin N × ℕ)

/-- What the threads do. A step of `notify_one` comes with the worker it wakes, `none` where the
wait set is empty. -/
inductive Label (N : ℕ) (ω : Type)
  /-- A thread outside the pool calls `submit`. -/
  | client (c : ω) (opts : SubmitOptions)
  /-- The next step of its call. -/
  | clientStep (c : ω) (wakes : Option (Fin N))
  /-- The job worker `w` runs calls `submit`. -/
  | nested (w : Fin N) (opts : SubmitOptions)
  /-- The body of the job worker `w` runs returns. -/
  | finish (w : Fin N)
  /-- The next step of `worker_loop`, or of the `submit` its job is in. -/
  | worker (w : Fin N) (wakes : Option (Fin N))
  /-- Worker `w` is woken spuriously. -/
  | spurious (w : Fin N)
  /-- `shutdown` is called. -/
  | shutdown
  /-- The next step of `shutdown`. -/
  | control

variable {N K : ℕ} {Q ω : Type}

namespace State

variable (s : State N K Q ω)

/-- Worker `w` goes on. -/
def setWorker (w : Fin N) (pc : WorkerPc K) : State N K Q ω :=
  { s with worker := Function.update s.worker w pc }

/-- The mutex of core `k` is taken by a thread, or released. -/
def setHolder (k : Fin K) (t : Option (Thread N ω)) : State N K Q ω :=
  { s with holder := Function.update s.holder k t }

/-- Event `e` makes the queues of core `k` be `q`. -/
def setQueues (k : Fin K) (q : Q) (e : Event N) : State N K Q ω :=
  { s with queues := Function.update s.queues k q, log := s.log ++ [(k, e)] }

/-- `mu.lock`. -/
def acquire (k : Fin K) (t : Thread N ω) : Option (State N K Q ω) :=
  match s.holder k with
  | none => some (s.setHolder k (some t))
  | some _ => none

/-- `mu.unlock`. -/
def release (k : Fin K) : State N K Q ω := s.setHolder k none

end State

@[simp] theorem setWorker_self (s : State N K Q ω) (w : Fin N) (pc : WorkerPc K) :
    (s.setWorker w pc).worker w = pc :=
  Function.update_self _ _ _

theorem setWorker_of_ne (s : State N K Q ω) {w u : Fin N} (pc : WorkerPc K) (h : u ≠ w) :
    (s.setWorker w pc).worker u = s.worker u :=
  Function.update_of_ne h _ _

/-- `shutdown` goes on to the `join` of worker `k`, or returns. -/
def joinNext (N k : ℕ) : ControlPc := if k < N then .join k else .returned

/-- `shutdown` goes on to the `notify_all` of core `k`, or to the workers. -/
def notifyNext (N K k : ℕ) : ControlPc := if k < K then .notify k else joinNext N 0

section Code

variable (L : Layout N K Q)

/-- `num_workers` or `num_cores` is `N`: `none` where the constructor throws. -/
def construct (ω : Type) : Option (State N K Q ω) :=
  if N = 0 then none
  else some
    { queues := fun _ => L.empty, holder := fun _ => none, shutdownFlag := false, next := 0
      worker := fun _ => .lock, client := fun _ => none, control := .idle, submitted := []
      tickets := [], log := [], returned := [], started := [], finished := [] }

/-- `notify_one` on core `k`. -/
def notifyOne (s : State N K Q ω) (k : Fin K) : Option (Fin N) → Option (State N K Q ω)
  | none => if ∃ w, L.core w = k ∧ s.worker w = .waiting then none else some s
  | some w => if L.core w = k ∧ s.worker w = .waiting then some (s.setWorker w .lock) else none

/-- `notify_all` on core `k`. -/
def notifyAll (s : State N K Q ω) (k : Fin K) : State N K Q ω :=
  { s with worker := fun w =>
      if L.core w = k ∧ s.worker w = .waiting then .lock else s.worker w }

/-- Where a call of `submit` starts. -/
def enter (job : ℕ) (opts : SubmitOptions) : SubmitPc K :=
  match L.hinted opts with
  | some k => .lock job k opts.priority
  | none => .ticket job opts.priority

/-- The next step of a call of `submit` by thread `t`, and where it is then. -/
def stepSubmit (s : State N K Q ω) (t : Thread N ω) (wakes : Option (Fin N)) :
    SubmitPc K → Option (State N K Q ω × Option (SubmitPc K))
  | .ticket job p =>
    some ({ s with next := s.next + 1, tickets := s.tickets ++ [job] },
      some (.lock job (L.ticketed (s.next % 2 ^ 64)) p))
  | .lock job k p => (s.acquire k t).map fun s => (s, some (.push job k p))
  | .push job k p =>
    some (s.setQueues k (L.push p job (s.queues k)) (.enqueue p job), some (.unlock job k))
  | .unlock job k => some (s.release k, some (.notify job k))
  | .notify job k => (notifyOne L s k wakes).map fun s => (s, some (.done job))
  | .done job => some ({ s with returned := s.returned ++ [job] }, none)

/-- The next step of worker `w`. -/
def stepWorker (s : State N K Q ω) (w : Fin N) (wakes : Option (Fin N)) :
    Option (State N K Q ω) :=
  match s.worker w with
  | .lock => (s.acquire (L.core w) (.inl w)).map fun s => s.setWorker w .search
  | .search =>
    match L.pop (s.queues (L.core w)) with
    | some (job, q) =>
      some ((s.setQueues (L.core w) q (.dequeue w job)).setWorker w (.unlock job))
    | none => some (s.setWorker w .loadFlag)
  | .loadFlag => some (s.setWorker w (if s.shutdownFlag then .leave else .wait))
  | .wait => some ((s.release (L.core w)).setWorker w .waiting)
  | .waiting => none
  | .unlock job => some { (s.release (L.core w)).setWorker w (.body job none) with
      started := s.started ++ [(w, job)] }
  | .leave => some ((s.release (L.core w)).setWorker w .exited)
  | .body _ none => none
  | .body job (some call) =>
    (stepSubmit L s (.inl w) wakes call).map fun (s, call) => s.setWorker w (.body job call)
  | .exited => none

/-- The next step of `shutdown`. -/
def stepControl (s : State N K Q ω) : Option (State N K Q ω) :=
  match s.control with
  | .idle | .returned => none
  | .store => some { s with shutdownFlag := true, control := notifyNext N K 0 }
  | .notify k =>
    if h : k < K then some { notifyAll L s ⟨k, h⟩ with control := notifyNext N K (k + 1) }
    else none
  | .join k =>
    if h : k < N then
      if s.worker ⟨k, h⟩ = .exited then some { s with control := joinNext N (k + 1) } else none
    else none

variable [DecidableEq ω]

/-- One step. -/
def step (s : State N K Q ω) : Label N ω → Option (State N K Q ω)
  | .client c opts =>
    match s.client c with
    | none => some { s with
        client := Function.update s.client c (some (enter L s.submitted.length opts))
        submitted := s.submitted ++ [opts] }
    | some _ => none
  | .clientStep c wakes =>
    match s.client c with
    | none => none
    | some call => (stepSubmit L s (.inr c) wakes call).map fun (s, call) =>
        { s with client := Function.update s.client c call }
  | .nested w opts =>
    match s.worker w with
    | .body job none => some
        { s.setWorker w (.body job (some (enter L s.submitted.length opts))) with
          submitted := s.submitted ++ [opts] }
    | _ => none
  | .finish w =>
    match s.worker w with
    | .body job none => some { s.setWorker w .lock with finished := s.finished ++ [(w, job)] }
    | _ => none
  | .worker w wakes => stepWorker L s w wakes
  | .spurious w => if s.worker w = .waiting then some (s.setWorker w .lock) else none
  | .shutdown =>
    match s.control with
    | .idle | .returned => some { s with control := .store }
    | _ => none
  | .control => stepControl L s

/-- A scheduler with `N` workers, and every interleaving on it. -/
def machine (ω : Type) [DecidableEq ω] : Machine (State N K Q ω) (Label N ω) where
  init s := construct L ω = some s
  step := step L

end Code

/-! ## The two backends -/

/-- `GlobalQueueScheduler`: one queue, and no option is read. -/
def globalQueue (N : ℕ) : Layout N 1 (List ℕ) where
  core _ := ⟨0, Nat.one_pos⟩
  empty := []
  push _ job queue := queue ++ [job]
  pop
    | [] => none
    | job :: queue => some (job, queue)
  hinted _ := some ⟨0, Nat.one_pos⟩
  ticketed _ := ⟨0, Nat.one_pos⟩

/-- The queues of a core of `ThreadPerCoreScheduler`, one for each priority. -/
abbrev CoreQueues := Priority → List ℕ

/-- The first job of the first queue in `ps` that has one. -/
def popFirst (q : CoreQueues) : List Priority → Option (ℕ × CoreQueues)
  | [] => none
  | p :: ps =>
    match q p with
    | [] => popFirst q ps
    | job :: queue => some (job, Function.update q p queue)

/-- `ThreadPerCoreScheduler`: a core for each worker. -/
def threadPerCore (N : ℕ) [NeZero N] : Layout N N CoreQueues where
  core w := w
  empty _ := []
  push p job q := Function.update q p (q p ++ [job])
  pop q := popFirst q kPriorityOrder
  hinted opts := opts.coreHint.map (Fin.ofNat N)
  ticketed := Fin.ofNat N

end Wss.Monitor
