import Wss.Lib.Machine
import Wss.Lib.Mutex

/-!
# The handle of a task

Model of `include/wss/join_handle.hpp` as a `Machine`: one pair of a `ResultSetter` and a
`JoinHandle`, one call of `set`, and the threads `ι`, each of which calls `join` and `is_finished`
as often as it likes. Taking and releasing the mutex, a look at `result`, a change of it, `wait` and
`notify_all` are one step each of a sequentially consistent interleaving.

* `cv.wait(lock, pred)` looks at the predicate with the mutex, and blocks as long as it is false.
  `wait` releases the mutex and blocks in one step. A thread in the wait set is woken by
  `notify_all` or spuriously, takes the mutex again and looks again.
* A result is a value of `α`, whether it is one of the task or its error.

Results:
* `step_move`: every step of the code is one that `Move` lists.
-/

namespace Wss.Handle

open Wss.Lib

/-- Who takes the mutex. -/
inductive Thread (ι : Type)
  | setter
  | caller (i : ι)

/-- Where the call of `set` is: the next step of it. -/
inductive SetPc (α : Type)
  /-- Not called yet. -/
  | idle
  /-- Before the mutex is taken. -/
  | lock (result : α)
  /-- With the mutex, before `emplace`. -/
  | emplace (result : α)
  /-- With the mutex, before it is released. -/
  | unlock
  /-- Before `notify_all`. -/
  | notify
  | returned

/-- Where a call of `join` is. -/
inductive JoinPc (α : Type)
  /-- Before the mutex is taken, at first or again after `wait`. -/
  | lock
  /-- With the mutex, before the look at the predicate. -/
  | check
  /-- With the mutex, before `wait`. -/
  | wait
  /-- In the wait set. -/
  | waiting
  /-- With the mutex, before the result is moved out and reset. -/
  | take
  /-- With the mutex, before it is released. -/
  | unlock (out : α)

/-- Where a call of `is_finished` is. -/
inductive PollPc
  /-- Before the mutex is taken. -/
  | lock
  /-- With the mutex, before the look at the result. -/
  | check
  /-- With the mutex, before it is released. -/
  | unlock (finished : Bool)

/-- Where a thread that has the handle is. -/
inductive CallerPc (α : Type)
  | idle
  | join (pc : JoinPc α)
  | isFinished (pc : PollPc)

/-- A handle with its setter, and the calls in progress on it. -/
structure State (α ι : Type) where
  holder : Option (Thread ι)
  result : Option α
  setter : SetPc α
  caller : ι → CallerPc α

/-- What the threads do. -/
inductive Label (α ι : Type)
  /-- `set` is called. -/
  | set (result : α)
  /-- The next step of it. -/
  | setter
  /-- A thread calls `join`. -/
  | join (i : ι)
  /-- A thread calls `is_finished`. -/
  | isFinished (i : ι)
  /-- The next step of its call. -/
  | caller (i : ι)
  /-- A thread is woken spuriously. -/
  | spurious (i : ι)

variable {α ι : Type}

namespace State

variable (s : State α ι)

/-- `mu.lock`. -/
def acquire (t : Thread ι) : Option (State α ι) :=
  match s.holder with
  | none => some { s with holder := some t }
  | some _ => none

/-- `mu.unlock`. -/
def release : State α ι := { s with holder := none }

/-- `cv.notify_all`. -/
def notifyAll : State α ι :=
  { s with caller := fun i =>
      match s.caller i with
      | .join .waiting => .join .lock
      | pc => pc }

variable [DecidableEq ι]

/-- The call of thread `i` goes on. -/
def setCaller (i : ι) (pc : CallerPc α) : State α ι :=
  { s with caller := Function.update s.caller i pc }

end State

/-- `new_handle_pair`. -/
def newHandlePair (α ι : Type) : State α ι := ⟨none, none, .idle, fun _ => .idle⟩

/-- The next step of `set`. -/
def stepSetter (s : State α ι) : Option (State α ι) :=
  match s.setter with
  | .idle | .returned => none
  | .lock result => (s.acquire .setter).map fun s => { s with setter := .emplace result }
  | .emplace result => some { s with result := some result, setter := .unlock }
  | .unlock => some { s.release with setter := .notify }
  | .notify => some { s.notifyAll with setter := .returned }

variable [DecidableEq ι]

/-- The next step of a call of `join`. -/
def stepJoin (s : State α ι) (i : ι) : JoinPc α → Option (State α ι)
  | .lock => (s.acquire (.caller i)).map fun s => s.setCaller i (.join .check)
  | .check => some (s.setCaller i (.join (if s.result.isSome then .take else .wait)))
  | .wait => some (s.release.setCaller i (.join .waiting))
  | .waiting => none
  | .take => s.result.map fun out => { s with result := none }.setCaller i (.join (.unlock out))
  | .unlock _ => some (s.release.setCaller i .idle)

/-- The next step of a call of `is_finished`. -/
def stepPoll (s : State α ι) (i : ι) : PollPc → Option (State α ι)
  | .lock => (s.acquire (.caller i)).map fun s => s.setCaller i (.isFinished .check)
  | .check => some (s.setCaller i (.isFinished (.unlock s.result.isSome)))
  | .unlock _ => some (s.release.setCaller i .idle)

/-- One step. -/
def step (s : State α ι) : Label α ι → Option (State α ι)
  | .set result =>
    match s.setter with
    | .idle => some { s with setter := .lock result }
    | _ => none
  | .setter => stepSetter s
  | .join i =>
    match s.caller i with
    | .idle => some (s.setCaller i (.join .lock))
    | _ => none
  | .isFinished i =>
    match s.caller i with
    | .idle => some (s.setCaller i (.isFinished .lock))
    | _ => none
  | .caller i =>
    match s.caller i with
    | .idle => none
    | .join pc => stepJoin s i pc
    | .isFinished pc => stepPoll s i pc
  | .spurious i =>
    match s.caller i with
    | .join .waiting => some (s.setCaller i (.join .lock))
    | _ => none

/-- A handle from its creation on, and every interleaving on it. -/
def machine (α ι : Type) [DecidableEq ι] : Machine (State α ι) (Label α ι) where
  init s := s = newHandlePair α ι
  step := step

/-! ## What a step can do -/

/-- The steps, by what they do. -/
inductive Move (s : State α ι) : Label α ι → State α ι → Prop
  | set {result} : s.setter = .idle → Move s (.set result) { s with setter := .lock result }
  | setLock {result} : s.setter = .lock result → s.holder = none →
      Move s .setter { s with holder := some .setter, setter := .emplace result }
  | emplace {result} : s.setter = .emplace result →
      Move s .setter { s with result := some result, setter := .unlock }
  | setUnlock : s.setter = .unlock → Move s .setter { s with holder := none, setter := .notify }
  | notify : s.setter = .notify → Move s .setter { s.notifyAll with setter := .returned }
  | join {i} : s.caller i = .idle → Move s (.join i) (s.setCaller i (.join .lock))
  | isFinished {i} : s.caller i = .idle →
      Move s (.isFinished i) (s.setCaller i (.isFinished .lock))
  /-- A call takes the mutex. -/
  | lock {i pc} : s.caller i = .join .lock ∧ pc = .join .check ∨
      s.caller i = .isFinished .lock ∧ pc = .isFinished .check → s.holder = none →
      Move s (.caller i) ({ s with holder := some (.caller i) }.setCaller i pc)
  /-- A call releases it and returns. -/
  | unlock {i} : (∃ out, s.caller i = .join (.unlock out)) ∨
      (∃ finished, s.caller i = .isFinished (.unlock finished)) →
      Move s (.caller i) ({ s with holder := none }.setCaller i .idle)
  | there {i} : s.caller i = .join .check → s.result.isSome = true →
      Move s (.caller i) (s.setCaller i (.join .take))
  | notThere {i} : s.caller i = .join .check → s.result = none →
      Move s (.caller i) (s.setCaller i (.join .wait))
  | wait {i} : s.caller i = .join .wait →
      Move s (.caller i) ({ s with holder := none }.setCaller i (.join .waiting))
  | take {i out} : s.caller i = .join .take → s.result = some out →
      Move s (.caller i) ({ s with result := none }.setCaller i (.join (.unlock out)))
  | poll {i} : s.caller i = .isFinished .check →
      Move s (.caller i) (s.setCaller i (.isFinished (.unlock s.result.isSome)))
  | spurious {i} : s.caller i = .join .waiting →
      Move s (.spurious i) (s.setCaller i (.join .lock))

variable {s s' : State α ι} {l : Label α ι}

omit [DecidableEq ι] in
theorem acquire_eq {t : Thread ι} (h : s.acquire t = some s') :
    s.holder = none ∧ s' = { s with holder := some t } := by
  unfold State.acquire at h
  split at h
  · rename_i hfree
    exact ⟨hfree, (Option.some.inj h).symm⟩
  · exact absurd h nofun

/-- **Every step of the code is a `Move`.** -/
theorem step_move (h : step s l = some s') : Move s l s' := by
  cases l with
  | set result =>
    simp only [step] at h
    split at h
    · rename_i hpc
      obtain rfl := Option.some.inj h
      exact .set hpc
    · exact absurd h nofun
  | setter =>
    simp only [step, stepSetter] at h
    split at h
    · exact absurd h nofun
    · exact absurd h nofun
    · rename_i result hpc
      obtain ⟨s₁, h₁, rfl⟩ := Option.map_eq_some_iff.mp h
      obtain ⟨hfree, rfl⟩ := acquire_eq h₁
      exact .setLock hpc hfree
    · rename_i result hpc
      obtain rfl := Option.some.inj h
      exact .emplace hpc
    · rename_i hpc
      obtain rfl := Option.some.inj h
      exact .setUnlock hpc
    · rename_i hpc
      obtain rfl := Option.some.inj h
      exact .notify hpc
  | join i =>
    simp only [step] at h
    split at h
    · rename_i hpc
      obtain rfl := Option.some.inj h
      exact .join hpc
    · exact absurd h nofun
  | isFinished i =>
    simp only [step] at h
    split at h
    · rename_i hpc
      obtain rfl := Option.some.inj h
      exact .isFinished hpc
    · exact absurd h nofun
  | spurious i =>
    simp only [step] at h
    split at h
    · rename_i hpc
      obtain rfl := Option.some.inj h
      exact .spurious hpc
    · exact absurd h nofun
  | caller i =>
    simp only [step] at h
    split at h
    · exact absurd h nofun
    · rename_i pc hpc
      cases pc with
      | lock =>
        obtain ⟨s₁, h₁, rfl⟩ := Option.map_eq_some_iff.mp h
        obtain ⟨hfree, rfl⟩ := acquire_eq h₁
        exact .lock (.inl ⟨hpc, rfl⟩) hfree
      | check =>
        obtain rfl := Option.some.inj h
        split_ifs with hr
        · exact .there hpc hr
        · exact .notThere hpc (by simpa using hr)
      | wait =>
        obtain rfl := Option.some.inj h
        exact .wait hpc
      | waiting => exact absurd h nofun
      | take =>
        obtain ⟨out, hr, rfl⟩ := Option.map_eq_some_iff.mp h
        exact .take hpc hr
      | unlock out =>
        obtain rfl := Option.some.inj h
        exact .unlock (.inl ⟨out, hpc⟩)
    · rename_i pc hpc
      cases pc with
      | lock =>
        obtain ⟨s₁, h₁, rfl⟩ := Option.map_eq_some_iff.mp h
        obtain ⟨hfree, rfl⟩ := acquire_eq h₁
        exact .lock (.inr ⟨hpc, rfl⟩) hfree
      | check =>
        obtain rfl := Option.some.inj h
        exact .poll hpc
      | unlock finished =>
        obtain rfl := Option.some.inj h
        exact .unlock (.inr ⟨finished, hpc⟩)

end Wss.Handle
