import Wss.ChaseLev.Buffer
import Wss.Lib.Machine
import Wss.Lib.Slice

/-!
# `ChaseLevDeque`: the code, one atomic operation a step

Model of `include/wss/chase_lev_deque.hpp` (`push`, `pop`, `steal`, `grow`, the constructor and
the destructor) as a `Machine`. One owner runs `push` and `pop`, the thieves `ι` run `steal`, and
each atomic load, store and compare-and-swap is one step of a sequentially consistent
interleaving. A `memory_order_seq_cst` fence is no step of its own here: between two steps of one
thread it orders nothing that sequential consistency does not. `Relaxed.lean` is the model with
the memory orders as written.

* A program counter names the atomic operation the thread is about to perform and holds the local
  variables that are live there. Code between two atomic operations belongs to the step before
  it. A call and its return are steps of their own, with the argument and the result in the label.
* `new T(...)` appends to `boxes` and `delete` appends to `deleted`. Boxes are never renumbered,
  so a box freed and allocated again is another box.
* Buffers are named by the order of their allocation too: those allocated so far are `heap 0`, …,
  `heap (allocated - 1)`. They are freed only by the destructor.
* `std::int64_t` indices are integers. `Linear.lean` shows that they stay in range while fewer
  than `2 ^ 63` items are pushed.

Out of scope here: an allocation that fails inside `push` (`Failure.lean`). Where
`Buffer(capacity * 2)` would throw `std::length_error` the step is not enabled.
-/

namespace Wss.ChaseLev

open Wss.Lib

variable {ι T : Type}

/-- Where the owner is: the next atomic operation of `push`, `grow` or `pop`. -/
inductive OwnerPc (T : Type)
  | idle
  /-- `push`: before `bottom_.load`. -/
  | pushBottom (item : T)
  /-- `push`: before `top_.load`. -/
  | pushTop (item : T) (b : ℤ)
  /-- `push`: before `buffer_.load`. -/
  | pushBuffer (item : T) (b t : ℤ)
  /-- `grow`: before the load of slot `i` of the old buffer. -/
  | growLoad (item : T) (b : ℤ) (old new : ℕ) (i : ℤ)
  /-- `grow`: before the store to slot `i` of the new buffer. -/
  | growStore (item : T) (b : ℤ) (old new : ℕ) (i : ℤ) (ptr : Option ℕ)
  /-- `grow`: before `buffer_.store`. -/
  | growPublish (item : T) (b : ℤ) (new : ℕ)
  /-- `grow`: before `retired_.push_back`. -/
  | growRetire (item : T) (b : ℤ) (new : ℕ)
  /-- `push`: before the slot store. -/
  | pushSlot (item : T) (b : ℤ) (buf : ℕ)
  /-- `push`: before `bottom_.store`. -/
  | pushPublish (item : T) (b : ℤ)
  /-- `push`: about to return. -/
  | pushReturn
  /-- `pop`: before `bottom_.load`. -/
  | popBottom
  /-- `pop`: before `buffer_.load`. -/
  | popBuffer (b : ℤ)
  /-- `pop`: before `bottom_.store(b)`. -/
  | popLower (b : ℤ) (buf : ℕ)
  /-- `pop`: before `top_.load`. -/
  | popTop (b : ℤ) (buf : ℕ)
  /-- `pop`: empty, before `bottom_.store(b + 1)`. -/
  | popRestore (b : ℤ)
  /-- `pop`: before the slot load. -/
  | popSlot (b : ℤ) (buf : ℕ) (t : ℤ)
  /-- `pop`: last element, before `bottom_.store(b + 1)`. -/
  | popRaise (t b : ℤ) (ptr : Option ℕ)
  /-- `pop`: last element, before the compare-and-swap of `top_`. -/
  | popCas (t : ℤ) (ptr : Option ℕ)
  /-- `pop`: the item is won, before it is moved out and its box deleted. -/
  | popTake (ptr : Option ℕ)
  /-- `pop`: about to return `std::nullopt`. -/
  | popNone
  deriving DecidableEq

/-- Where a thief is: the next atomic operation of `steal`. -/
inductive ThiefPc
  | idle
  /-- Before `top_.load`. -/
  | stealTop
  /-- Before `bottom_.load`. -/
  | stealBottom (t : ℤ)
  /-- Before `buffer_.load`. -/
  | stealBuffer (t : ℤ)
  /-- Before the slot load. -/
  | stealSlot (t : ℤ) (buf : ℕ)
  /-- Before the compare-and-swap of `top_`. -/
  | stealCas (t : ℤ) (ptr : Option ℕ)
  /-- The compare-and-swap succeeded: before the null test, the move and the `delete`. -/
  | stealTake (ptr : Option ℕ)
  /-- About to return `std::nullopt`: the deque looked empty. -/
  | stealEmpty
  /-- About to return `std::nullopt`: the compare-and-swap was lost. -/
  | stealLost
  deriving DecidableEq

/-- The deque, with the calls in progress on it. -/
structure State (ι T : Type) where
  top : ℤ
  bottom : ℤ
  buffer : ℕ
  heap : ℕ → Buffer
  allocated : ℕ
  retired : List ℕ
  boxes : List T
  deleted : List ℕ
  owner : OwnerPc T
  thief : ι → ThiefPc

/-- The constructor, `none` where it does not complete: `round_up_pow2` does not return or the
buffer cannot be allocated. -/
def construct (initialCapacity : ℕ) : Option (State ι T) :=
  match h : roundUpPow2 initialCapacity with
  | none => none
  | some cap =>
    (Buffer.make cap (roundUpPow2_spec h).1).map fun buf =>
      { top := 0, bottom := 0, buffer := 0, heap := fun _ => buf, allocated := 1, retired := [0],
        boxes := [], deleted := [], owner := .idle, thief := fun _ => .idle }

/-- What the threads do: calls, returns with their results, and atomic operations. -/
inductive Label (ι T : Type)
  | push (item : T)
  | pushed
  | pop
  | popped (r : Option T)
  | steal (i : ι)
  | stolen (i : ι) (r : Option T)
  | owner
  | thief (i : ι)

/-- The loop test of `grow`: copy slot `i` next, or publish the buffer. -/
def growNext (item : T) (b : ℤ) (old new : ℕ) (i : ℤ) : OwnerPc T :=
  if i = b then .growPublish item b new else .growLoad item b old new i

theorem growNext_cases (item : T) (b : ℤ) (old new : ℕ) (i : ℤ) :
    growNext item b old new i = .growPublish item b new ∨
      growNext item b old new i = .growLoad item b old new i :=
  ite_eq_or_eq _ _ _

/-- The next atomic operation of the owner. -/
def stepOwner (d : State ι T) : Option (State ι T) :=
  match d.owner with
  | .pushBottom item => some { d with owner := .pushTop item d.bottom }
  | .pushTop item b => some { d with owner := .pushBuffer item b d.top }
  | .pushBuffer item b t =>
    let buf := d.heap d.buffer
    if b - t > (buf.capacity : ℤ) - 1 then
      buf.twice.map fun new =>
        { d with
          heap := Function.update d.heap d.allocated new
          allocated := d.allocated + 1
          owner := growNext item b d.buffer d.allocated t }
    else some { d with owner := .pushSlot item b d.buffer }
  | .growLoad item b old new i =>
    some { d with owner := .growStore item b old new i ((d.heap old).load i) }
  | .growStore item b old new i ptr =>
    some { d with
      heap := Function.update d.heap new ((d.heap new).store i ptr)
      owner := growNext item b old new (i + 1) }
  | .growPublish item b new => some { d with buffer := new, owner := .growRetire item b new }
  | .growRetire item b new =>
    some { d with retired := d.retired ++ [new], owner := .pushSlot item b new }
  | .pushSlot item b buf =>
    some { d with
      boxes := d.boxes ++ [item]
      heap := Function.update d.heap buf ((d.heap buf).store b (some d.boxes.length))
      owner := .pushPublish item b }
  | .pushPublish _ b => some { d with bottom := b + 1, owner := .pushReturn }
  | .popBottom => some { d with owner := .popBuffer (d.bottom - 1) }
  | .popBuffer b => some { d with owner := .popLower b d.buffer }
  | .popLower b buf => some { d with bottom := b, owner := .popTop b buf }
  | .popTop b buf =>
    if d.top > b then some { d with owner := .popRestore b }
    else some { d with owner := .popSlot b buf d.top }
  | .popRestore b => some { d with bottom := b + 1, owner := .popNone }
  | .popSlot b buf t =>
    if t = b then some { d with owner := .popRaise t b ((d.heap buf).load b) }
    else some { d with owner := .popTake ((d.heap buf).load b) }
  | .popRaise t b ptr => some { d with bottom := b + 1, owner := .popCas t ptr }
  | .popCas t ptr =>
    if d.top = t then some { d with top := t + 1, owner := .popTake ptr }
    else some { d with owner := .popNone }
  | .idle | .pushReturn | .popTake _ | .popNone => none

variable [DecidableEq ι]

/-- Thief `i` goes on. -/
def State.setThief (d : State ι T) (i : ι) (pc : ThiefPc) : State ι T :=
  { d with thief := Function.update d.thief i pc }

@[simp] theorem setThief_self (d : State ι T) (i : ι) (pc : ThiefPc) :
    (d.setThief i pc).thief i = pc :=
  Function.update_self _ _ _

theorem setThief_of_ne (d : State ι T) {i j : ι} (pc : ThiefPc) (h : j ≠ i) :
    (d.setThief i pc).thief j = d.thief j :=
  Function.update_of_ne h _ _

/-- The next atomic operation of thief `i`. -/
def stepThief (d : State ι T) (i : ι) : Option (State ι T) :=
  match d.thief i with
  | .stealTop => some (d.setThief i (.stealBottom d.top))
  | .stealBottom t =>
    if t ≥ d.bottom then some (d.setThief i .stealEmpty)
    else some (d.setThief i (.stealBuffer t))
  | .stealBuffer t => some (d.setThief i (.stealSlot t d.buffer))
  | .stealSlot t buf => some (d.setThief i (.stealCas t ((d.heap buf).load t)))
  | .stealCas t ptr =>
    if d.top = t then some { d.setThief i (.stealTake ptr) with top := t + 1 }
    else some (d.setThief i .stealLost)
  | .idle | .stealTake _ | .stealEmpty | .stealLost => none

variable [DecidableEq T]

/-- One step. A return is enabled with the result the code returns there. -/
def step (d : State ι T) : Label ι T → Option (State ι T)
  | .push item =>
    match d.owner with
    | .idle => some { d with owner := .pushBottom item }
    | _ => none
  | .pushed =>
    match d.owner with
    | .pushReturn => some { d with owner := .idle }
    | _ => none
  | .pop =>
    match d.owner with
    | .idle => some { d with owner := .popBottom }
    | _ => none
  | .popped r =>
    match d.owner with
    | .popNone => if r = none then some { d with owner := .idle } else none
    | .popTake (some p) =>
      if r.isSome ∧ r = d.boxes[p]? then
        some { d with deleted := d.deleted ++ [p], owner := .idle }
      else none
    | _ => none
  | .steal i =>
    match d.thief i with
    | .idle => some (d.setThief i .stealTop)
    | _ => none
  | .stolen i r =>
    match d.thief i with
    | .stealEmpty | .stealLost | .stealTake none =>
      if r = none then some (d.setThief i .idle) else none
    | .stealTake (some p) =>
      if r.isSome ∧ r = d.boxes[p]? then
        some { d.setThief i .idle with deleted := d.deleted ++ [p] }
      else none
    | _ => none
  | .owner => stepOwner d
  | .thief i => stepThief d i

/-- A deque constructed with `initialCapacity`, and every interleaving on it. -/
def machine (ι T : Type) [DecidableEq ι] [DecidableEq T] (initialCapacity : ℕ) :
    Machine (State ι T) (Label ι T) where
  init d := construct initialCapacity = some d
  step := step

/-- No call is in progress. -/
def State.Quiescent (d : State ι T) : Prop := d.owner = .idle ∧ ∀ i, d.thief i = .idle

/-- What the slot of index `i` in the current buffer holds. -/
def State.slot (d : State ι T) (i : ℤ) : Option ℕ := (d.heap d.buffer).load i

/-- The pointers the destructor deletes: the slots of `top_, …, bottom_ - 1`. -/
def remaining (d : State ι T) : List (Option ℕ) := slice d.slot d.top d.bottom

/-- The destructor: `delete` of each remaining pointer, which does nothing to a null one. -/
def destroy (d : State ι T) : State ι T :=
  { d with deleted := d.deleted ++ (remaining d).filterMap id }

end Wss.ChaseLev
