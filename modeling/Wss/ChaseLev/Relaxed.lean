import Wss.ChaseLev.Model
import Wss.Lib.StoreBuffer

/-!
# `ChaseLevDeque` with the memory orders as written

The atomic operations of `Model.lean`, with the owner's stores in flight (`Lib/StoreBuffer.lean`):
those to the slots and to `buffer_` are release stores, those to `bottom_` are relaxed. The
`memory_order_seq_cst` fence of `pop` and its compare-and-swap complete once every store has
arrived. Thieves store nothing but by their compare-and-swap, and perform their loads in program
order, so their fence waits for nothing.

* `deque` is the deque as the owner sees it, which reads its own latest store to a location, and
  `arrived` is memory as the thieves see it. `top_` is changed by compare-and-swaps only, so there
  is one of it.
* Nothing points to a new buffer before a release store made after its construction has arrived, so
  the null pointers it is constructed with are in `arrived` from the beginning.
* `pushed i` is no data of the code: the store by which `push` put the item of index `i` into its
  slot.

`StealsItsItem` is what a `steal` is for. It fails where the store of `bottom_` overtakes that of
the slot (`Ordered.lean`).
-/

namespace Wss.ChaseLev

open Wss.Lib

variable {ι T : Type}

/-- A store of the owner. -/
inductive Write
  | bottom (b : ℤ)
  | buffer (buf : ℕ)
  /-- To slot `k` of the buffer `buf`. -/
  | slot (buf k : ℕ) (ptr : Option ℕ)
  deriving DecidableEq

/-- What the owner stores to and the thieves load: stores to one location arrive in order. -/
inductive Location
  | bottom
  | buffer
  | slot (buf k : ℕ)
  deriving DecidableEq

/-- Memory as the thieves see it. -/
structure Arrived where
  bottom : ℤ
  buffer : ℕ
  slots : ℕ → ℕ → Option ℕ

namespace Write

/-- The location of a store. -/
def location : Write → Location
  | .bottom _ => .bottom
  | .buffer _ => .buffer
  | .slot buf k _ => .slot buf k

/-- The memory order of the store. -/
def release : Write → Bool
  | .bottom _ => false
  | .buffer _ | .slot _ _ _ => true

/-- What the thieves see when a store has arrived. -/
def perform : Write → Arrived → Arrived
  | .bottom b, m => { m with bottom := b }
  | .buffer buf, m => { m with buffer := buf }
  | .slot buf k ptr, m =>
    { m with slots := Function.update m.slots buf (Function.update (m.slots buf) k ptr) }

theorem perform_comm {x y : Write} (h : x.location ≠ y.location) (m : Arrived) :
    x.perform (y.perform m) = y.perform (x.perform m) := by
  cases x with
  | bottom b =>
    cases y with
    | bottom b' => exact absurd rfl h
    | buffer | slot => rfl
  | buffer buf =>
    cases y with
    | buffer buf' => exact absurd rfl h
    | bottom | slot => rfl
  | slot buf k ptr =>
    cases y with
    | bottom | buffer => rfl
    | slot buf' k' ptr' =>
      simp only [perform, Arrived.mk.injEq, true_and]
      by_cases hbuf : buf = buf'
      · subst hbuf
        have hk : k ≠ k' := fun hk => h (congrArg (Location.slot buf) hk)
        simp only [Function.update_self, Function.update_idem, Function.update_comm hk]
      · rw [Function.update_of_ne hbuf, Function.update_of_ne (Ne.symm hbuf),
          Function.update_comm hbuf]

end Write

/-- The owner's stores as those of a store buffer. -/
def stores : Stores Write Location Arrived where
  location := Write.location
  release := Write.release
  perform := Write.perform
  comm := Write.perform_comm

/-- The slot store of a `push`. -/
structure Pushed where
  box : ℕ
  buf : ℕ
  k : ℕ

/-- The store itself. -/
def Pushed.write (r : Pushed) : Write := .slot r.buf r.k (some r.box)

theorem Pushed.write_ne_bottom (r : Pushed) (b : ℤ) : r.write ≠ .bottom b := nofun

theorem Pushed.write_ne_buffer (r : Pushed) (buf : ℕ) : r.write ≠ .buffer buf := nofun

/-- The deque, and the stores of the owner in flight. -/
structure Relaxed (ι T : Type) where
  deque : State ι T
  arrived : Arrived
  flight : List Write
  pushed : ℤ → Option Pushed

/-- The next atomic operation of the owner waits for its stores. -/
def OwnerPc.fenced : OwnerPc T → Bool
  | .popTop _ _ | .popCas _ _ => true
  | _ => false

/-- What the next atomic operation of the owner stores. -/
def issued (d : State ι T) : List Write :=
  match d.owner with
  | .growStore _ _ _ new i ptr => [.slot new ((d.heap new).index i) ptr]
  | .growPublish _ _ new => [.buffer new]
  | .pushSlot _ b buf => [.slot buf ((d.heap buf).index b) (some d.boxes.length)]
  | .pushPublish _ b | .popRestore b | .popRaise _ b _ => [.bottom (b + 1)]
  | .popLower b _ => [.bottom b]
  | _ => []

/-- The slot stores of `push` after the next atomic operation of the owner. -/
def record (d : State ι T) (pushed : ℤ → Option Pushed) : ℤ → Option Pushed :=
  match d.owner with
  | .pushSlot _ b buf =>
    Function.update pushed b (some ⟨d.boxes.length, buf, (d.heap buf).index b⟩)
  | _ => pushed

namespace Relaxed

variable (s : Relaxed ι T)

/-- The next atomic operation of the owner. -/
def stepOwner : Option (Relaxed ι T) :=
  if s.deque.owner.fenced ∧ s.flight ≠ [] then none
  else (ChaseLev.stepOwner s.deque).map fun d =>
    { s with deque := d, flight := s.flight ++ issued s.deque, pushed := record s.deque s.pushed }

variable [DecidableEq ι]

/-- Thief `i` goes on. -/
def setThief (i : ι) (pc : ThiefPc) : Relaxed ι T := { s with deque := s.deque.setThief i pc }

/-- The next atomic operation of thief `i`. -/
def stepThief (i : ι) : Option (Relaxed ι T) :=
  match s.deque.thief i with
  | .stealTop => some (s.setThief i (.stealBottom s.deque.top))
  | .stealBottom t =>
    if t ≥ s.arrived.bottom then some (s.setThief i .stealEmpty)
    else some (s.setThief i (.stealBuffer t))
  | .stealBuffer t => some (s.setThief i (.stealSlot t s.arrived.buffer))
  | .stealSlot t buf =>
    some (s.setThief i (.stealCas t (s.arrived.slots buf ((s.deque.heap buf).index t))))
  | .stealCas t ptr =>
    if s.deque.top = t then
      some { s with deque := { s.deque.setThief i (.stealTake ptr) with top := t + 1 } }
    else some (s.setThief i .stealLost)
  | .idle | .stealTake _ | .stealEmpty | .stealLost => none

end Relaxed

/-- What the threads do, and the arrival of the `k`-th store in flight. -/
inductive RelaxedLabel (ι T : Type)
  | run (l : Label ι T)
  | arrive (k : ℕ)

variable [DecidableEq ι] [DecidableEq T]

/-- One step: the owner's atomic operations issue their stores, a thief's look at what has arrived,
and calls and returns are as before. -/
def stepRelaxed (s : Relaxed ι T) : RelaxedLabel ι T → Option (Relaxed ι T)
  | .run .owner => s.stepOwner
  | .run (.thief i) => s.stepThief i
  | .run l => (step s.deque l).map fun d => { s with deque := d }
  | .arrive k => (stores.arrive s.flight s.arrived k).map fun (flight, arrived) =>
    { s with flight, arrived }

/-- A deque constructed with `initialCapacity`, and every interleaving and order of arrival. -/
def relaxed (ι T : Type) [DecidableEq ι] [DecidableEq T] (initialCapacity : ℕ) :
    Machine (Relaxed ι T) (RelaxedLabel ι T) where
  init s := construct initialCapacity = some s.deque ∧ s.arrived = ⟨0, 0, fun _ _ => none⟩ ∧
    s.flight = [] ∧ s.pushed = fun _ => none
  step := stepRelaxed

omit [DecidableEq ι] [DecidableEq T] in
/-- A thief whose compare-and-swap would move `top_` from `t` has loaded the box that `push` created
for the index `t`. -/
def StealsItsItem (s : Relaxed ι T) : Prop :=
  ∀ i t ptr, s.deque.thief i = .stealCas t ptr → s.deque.top = t →
    ∃ r, s.pushed t = some r ∧ ptr = some r.box

end Wss.ChaseLev
