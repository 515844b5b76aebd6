import Wss.ChaseLev.Model
import Wss.Lib.Linearize

/-!
# What the deque is for

The abstract deque: a list of items with a count `front` of the items that were taken at its
front, and the calls in progress on it. Each call has one step where it takes effect
(`Step.linPush`, `linPop`, `linPopLast`, `linSteal`) or where it finds that it has nothing to
return (`linPopNone`, `linEmpty`, `linLost`).

A `steal` that returns nothing says more here than the linearizability of `Linear.lean` needs:
it either saw at most one item, which a `pop` was about to decide over (`linEmpty`), or another
thread took the item it was after (`linLost`). The scheduler's search for work rests on this.

Results:
* `linearize`: every step is a call, a return, a linearization point or nothing, of the sequential
  object `spec`.
* `Step.front`, `Step.last`, `Step.shrinks`: what a step can do to the items, for the thieves.
-/

namespace Wss.ChaseLev.Atomic

open Wss.Lib

variable {ι T : Type}

/-- The owner's call. -/
inductive OwnerStatus (T : Type)
  | idle
  | pushing (x : T)
  | pushed
  | popping
  | popped (r : Option T)

/-- A thief's call. `stealing t`: it is after the item at front count `t`. -/
inductive ThiefStatus (T : Type)
  | idle
  | called
  | stealing (t : ℤ)
  | stolen (x : T)
  | empty
  | lost

/-- The abstract deque. -/
structure Deque (ι T : Type) where
  front : ℤ
  items : List T
  owner : OwnerStatus T
  thief : ι → ThiefStatus T

variable [DecidableEq ι]

/-- The call of thief `i` goes on. -/
def Deque.setThief (a : Deque ι T) (i : ι) (st : ThiefStatus T) : Deque ι T :=
  { a with thief := Function.update a.thief i st }

@[simp] theorem setThief_self (a : Deque ι T) (i : ι) (st : ThiefStatus T) :
    (a.setThief i st).thief i = st :=
  Function.update_self _ _ _

theorem setThief_of_ne (a : Deque ι T) {i j : ι} (st : ThiefStatus T) (h : j ≠ i) :
    (a.setThief i st).thief j = a.thief j :=
  Function.update_of_ne h _ _

/-- What a step of the code does to the abstract deque. -/
inductive Step : Deque ι T → Label ι T → Deque ι T → Prop
  | push {a x} : a.owner = .idle → Step a (.push x) { a with owner := .pushing x }
  | pushed {a} : a.owner = .pushed → Step a .pushed { a with owner := .idle }
  | pop {a} : a.owner = .idle → Step a .pop { a with owner := .popping }
  | popped {a r} : a.owner = .popped r → Step a (.popped r) { a with owner := .idle }
  | steal {a i} : a.thief i = .idle → Step a (.steal i) (a.setThief i .called)
  | stolen {a i x} : a.thief i = .stolen x → Step a (.stolen i (some x)) (a.setThief i .idle)
  | stolenNone {a i} : a.thief i = .empty ∨ a.thief i = .lost →
      Step a (.stolen i none) (a.setThief i .idle)
  | ownerStutter {a} : Step a .owner a
  | thiefStutter {a i} : Step a (.thief i) a
  | linPush {a x} : a.owner = .pushing x →
      Step a .owner { a with items := a.items ++ [x], owner := .pushed }
  | linPop {a l x} : a.owner = .popping → a.items = l ++ [x] → l ≠ [] →
      Step a .owner { a with items := l, owner := .popped (some x) }
  | linPopLast {a x} : a.owner = .popping → a.items = [x] →
      Step a .owner { a with front := a.front + 1, items := [], owner := .popped (some x) }
  | linPopNone {a} : a.owner = .popping → a.items = [] →
      Step a .owner { a with owner := .popped none }
  | observe {a i} : a.thief i = .called → Step a (.thief i) (a.setThief i (.stealing a.front))
  | linSteal {a i l x} : a.thief i = .stealing a.front → a.items = x :: l →
      Step a (.thief i) { a.setThief i (.stolen x) with front := a.front + 1, items := l }
  | linEmpty {a i t} : a.thief i = .stealing t → a.items.length ≤ 1 →
      (a.items ≠ [] → a.owner = .popping) → Step a (.thief i) (a.setThief i .empty)
  | linLost {a i t} : a.thief i = .stealing t → t < a.front → Step a (.thief i) (a.setThief i .lost)

section

variable {a a' : Deque ι T} {l : Label ι T} {x : T} {i : ι} {r : Option T}

/-- At most one item is taken at the front in a step. -/
theorem Step.front (h : Step a l a') : a'.front = a.front ∨ a'.front = a.front + 1 := by
  cases h with
  | linPopLast | linSteal => exact .inr rfl
  | _ => exact .inl rfl

/-- The owner takes at the front only what is left over. -/
theorem Step.front_owner (h : Step a .pop a' ∨ Step a .owner a') :
    a'.front = a.front ∨ a'.front = a.front + 1 ∧ a'.items = [] := by
  rcases h with h | h
  · cases h
    exact .inl rfl
  · cases h with
    | linPopLast => exact .inr ⟨rfl, rfl⟩
    | _ => exact .inl rfl

/-- Items appear by a `push` only. -/
theorem Step.shrinks (h : Step a l a') (hpc : ∀ x, a.owner ≠ .pushing x) {y : T}
    (hy : y ∈ a'.items) : y ∈ a.items := by
  cases h with
  | linPush hpc' => exact absurd hpc' (hpc _)
  | linPop _ hl _ =>
    rw [hl]
    exact List.mem_append_left _ hy
  | linPopLast => exact absurd hy List.not_mem_nil
  | linSteal _ hl =>
    rw [hl]
    exact List.mem_cons_of_mem _ hy
  | _ => exact hy

/-- The last item stays with the `pop` that decides over it, or goes. -/
theorem Step.last (h : Step a l a') (hpc : a.owner = .popping) (hl : a.items = [x]) :
    a'.items = [] ∨ a'.items = [x] ∧ a'.owner = .popping := by
  cases h with
  | push h | pushed h | pop h | popped h | linPush h => exact absurd (hpc.symm.trans h) (by simp)
  | linPop _ hl' hne =>
    rw [hl] at hl'
    obtain ⟨rfl, -⟩ | ⟨-, h⟩ := List.append_eq_singleton_iff.mp hl'.symm
    · exact absurd rfl hne
    · exact absurd h (by simp)
  | linPopLast => exact .inl rfl
  | linPopNone _ hl' => exact absurd (hl.symm.trans hl') (by simp)
  | linSteal _ hl' => exact .inl (List.cons.inj (hl.symm.trans hl')).2.symm
  | _ => exact .inr ⟨hl, hpc⟩

theorem Step.owner_frame (h : Step a .pop a' ∨ Step a .owner a') : a'.thief = a.thief := by
  rcases h with h | h <;> cases h <;> rfl

theorem Step.popped_frame (h : Step a (.popped r) a') :
    a.owner = .popped r ∧ a' = { a with owner := .idle } := by
  cases h with
  | popped hpc => exact ⟨hpc, rfl⟩

theorem Step.thief_frame (h : Step a (.steal i) a' ∨ Step a (.thief i) a') :
    a'.owner = a.owner ∧ ∀ j, j ≠ i → a'.thief j = a.thief j := by
  rcases h with h | h <;> cases h <;>
    first | exact ⟨rfl, fun _ _ => rfl⟩ | exact ⟨rfl, fun _ => setThief_of_ne _ _⟩

theorem Step.stolen_frame (h : Step a (.stolen i r) a') : a' = a.setThief i .idle := by
  cases h <;> rfl

theorem Step.stolen_none (h : Step a (.stolen i none) a') :
    a.thief i = .empty ∨ a.thief i = .lost := by
  cases h with
  | stolenNone hpc => exact hpc

/-- Between its call and its return a `pop` is undecided or has its result. -/
theorem Step.popping (h : Step a .pop a' ∨ Step a .owner a')
    (hpc : a.owner = .idle ∨ a.owner = .popping ∨ ∃ r, a.owner = .popped r) :
    a'.owner = .idle ∨ a'.owner = .popping ∨ ∃ r, a'.owner = .popped r := by
  rcases h with h | h
  · cases h
    exact .inr (.inl rfl)
  · cases h with
    | ownerStutter => exact hpc
    | linPush hpc' =>
      rw [hpc'] at hpc
      simp at hpc
    | linPop | linPopLast | linPopNone => exact .inr (.inr ⟨_, rfl⟩)

/-- A `pop` that returns nothing leaves nothing. -/
theorem Step.popped_none (h : Step a .pop a' ∨ Step a .owner a')
    (hold : a.owner = .popped none → a.items = []) (hpc : a'.owner = .popped none) :
    a'.items = [] := by
  rcases h with h | h
  · cases h
    exact absurd hpc (by simp)
  · cases h with
    | ownerStutter => exact hold hpc
    | linPush => exact absurd hpc (by simp)
    | linPop => exact absurd hpc (by simp)
    | linPopLast => rfl
    | linPopNone _ hl => exact hl

theorem Step.of_push (h : Step a (.push x) a') : a' = { a with owner := .pushing x } := by
  cases h
  rfl

theorem Step.of_pushed (h : Step a .pushed a') :
    a.owner = .pushed ∧ a' = { a with owner := .idle } := by
  cases h with
  | pushed hpc => exact ⟨hpc, rfl⟩

/-- A `push` takes effect at one of the owner's steps. -/
theorem Step.of_pushing (h : Step a .owner a') (hpc : a.owner = .pushing x) :
    a' = a ∨ a' = { a with items := a.items ++ [x], owner := .pushed } := by
  cases h with
  | ownerStutter => exact .inl rfl
  | linPush hpc' =>
    obtain rfl := OwnerStatus.pushing.inj (hpc.symm.trans hpc')
    exact .inr rfl
  | linPop hpc' | linPopLast hpc' | linPopNone hpc' =>
    exact absurd (hpc.symm.trans hpc') (by simp)

theorem Step.of_owner_pushed (h : Step a .owner a') (hpc : a.owner = .pushed) : a' = a := by
  cases h with
  | ownerStutter => rfl
  | linPush hpc' | linPop hpc' | linPopLast hpc' | linPopNone hpc' =>
    exact absurd (hpc.symm.trans hpc') (by simp)

end

/-! ## The sequential object -/

/-- The operations of the sequential object. -/
inductive Op (T : Type)
  | push (x : T)
  | pop
  | steal

/-- What they return. -/
inductive Res (T : Type)
  | pushed
  | item (r : Option T)

/-- `push` appends at the back, `pop` removes the last item and fails on the empty list only,
`steal` removes the first and may fail at any time. -/
inductive Apply : List T → Op T → Res T → List T → Prop
  | push {l x} : Apply l (.push x) .pushed (l ++ [x])
  | pop {l x} : Apply (l ++ [x]) .pop (.item (some x)) l
  | popNone : Apply [] .pop (.item none) []
  | steal {l x} : Apply (x :: l) .steal (.item (some x)) l
  | stealNone {l} : Apply l .steal (.item none) l

/-- The sequential deque, empty at first. -/
def spec : SeqSpec (List T) (Op T) (Res T) := ⟨[], Apply⟩

/-- The threads of a deque: the owner is `none`, a thief is `some i`. The calls and returns of a
run are its history. -/
def event : Label ι T → Option (Event (Option ι) (Op T) (Res T))
  | .push x => some (.call none (.push x))
  | .pushed => some (.ret none .pushed)
  | .pop => some (.call none .pop)
  | .popped r => some (.ret none (.item r))
  | .steal i => some (.call (some i) .steal)
  | .stolen i r => some (.ret (some i) (.item r))
  | .owner => none
  | .thief _ => none

/-- The owner's call as one of the sequential object. -/
def OwnerStatus.view : OwnerStatus T → Status (Op T) (Res T)
  | .idle => .idle
  | .pushing x => .called (.push x)
  | .pushed => .done .pushed
  | .popping => .called .pop
  | .popped r => .done (.item r)

/-- A thief's call as one of the sequential object. -/
def ThiefStatus.view : ThiefStatus T → Status (Op T) (Res T)
  | .idle => .idle
  | .called | .stealing _ => .called .steal
  | .stolen x => .done (.item (some x))
  | .empty | .lost => .done (.item none)

/-- The deque as the sequential object with the calls in progress. -/
def view (a : Deque ι T) : Canonical (List T) (Option ι) (Op T) (Res T) where
  value := a.items
  status
    | none => a.owner.view
    | some i => (a.thief i).view

variable {a a' : Deque ι T} {l : Label ι T}

omit [DecidableEq ι] in
theorem view_ext {c : Canonical (List T) (Option ι) (Op T) (Res T)} (hv : a.items = c.value)
    (ho : a.owner.view = c.status none) (ht : ∀ i, (a.thief i).view = c.status (some i)) :
    view a = c := by
  obtain ⟨v, st⟩ := c
  obtain rfl : a.items = v := hv
  have hst : (view a).status = st := by
    funext θ
    cases θ with
    | none => exact ho
    | some i => exact ht i
  rw [← hst]
  rfl

theorem view_setOwner (a : Deque ι T) (st : OwnerStatus T) :
    view { a with owner := st } = (view a).setStatus none st.view :=
  view_ext rfl (Canonical.setStatus_self _ _ _).symm fun i =>
    (Canonical.setStatus_of_ne (view a) _ (Option.some_ne_none i)).symm

theorem view_setThief (a : Deque ι T) (i : ι) (st : ThiefStatus T) :
    view (a.setThief i st) = (view a).setStatus (some i) st.view := by
  refine view_ext rfl
    (Canonical.setStatus_of_ne (view a) _ (Option.some_ne_none i).symm).symm fun j => ?_
  by_cases hj : j = i
  · rw [hj, setThief_self, Canonical.setStatus_self]
  · rw [setThief_of_ne _ _ hj, Canonical.setStatus_of_ne _ _ (by simpa using hj)]
    rfl

/-- A point of the owner. -/
theorem point_owner {st : OwnerStatus T} {items : List T} {front : ℤ} {op : Op T} {r : Res T}
    (hst : a.owner.view = .called op) (hst' : st.view = .done r)
    (happ : Apply a.items op r items) :
    Canonical.Run spec (view a) [.point none op r]
      (view { a with front := front, items := items, owner := st }) := by
  have h := Canonical.Step.point (S := spec) (c := view a) (θ := none) hst happ
  have he : view { a with front := front, items := items, owner := st } =
      { (view a).setStatus none (.done r) with value := items } := by
    rw [← hst', ← view_setOwner]
    rfl
  rw [he]
  exact .single h

/-- A point of a thief. -/
theorem point_thief {i : ι} {st : ThiefStatus T} {items : List T} {front : ℤ} {r : Res T}
    (hst : (a.thief i).view = .called .steal) (hst' : st.view = .done r)
    (happ : Apply a.items .steal r items) :
    Canonical.Run spec (view a) [.point (some i) .steal r]
      (view { a.setThief i st with front := front, items := items }) := by
  have h := Canonical.Step.point (S := spec) (c := view a) (θ := some i) hst happ
  have he : view { a.setThief i st with front := front, items := items } =
      { (view a).setStatus (some i) (.done r) with value := items } := by
    rw [← hst', ← view_setThief]
    rfl
  rw [he]
  exact .single h

/-- **Every step of the abstract deque is one of the sequential object**, or none. -/
theorem linearize (h : Step a l a') :
    ∃ as, Canonical.Run spec (view a) as (view a') ∧
      as.filterMap Action.event? = (event l).toList := by
  have event_step : ∀ {e : Event (Option ι) (Op T) (Res T)} {c},
      event l = some e → Canonical.Step spec (view a) (.event e) c → c = view a' →
      ∃ as, Canonical.Run spec (view a) as (view a') ∧
        as.filterMap Action.event? = (event l).toList := by
    rintro e c he hst rfl
    exact ⟨[.event e], .single hst, by rw [he]; rfl⟩
  cases h with
  | push hpc =>
    exact event_step rfl (.call (congrArg OwnerStatus.view hpc)) (view_setOwner a (.pushing _)).symm
  | pushed hpc =>
    exact event_step rfl (.ret (congrArg OwnerStatus.view hpc)) (view_setOwner a .idle).symm
  | pop hpc =>
    exact event_step rfl (.call (congrArg OwnerStatus.view hpc)) (view_setOwner a .popping).symm
  | popped hpc =>
    exact event_step rfl (.ret (congrArg OwnerStatus.view hpc)) (view_setOwner a .idle).symm
  | steal hpc =>
    exact event_step rfl (.call (congrArg ThiefStatus.view hpc)) (view_setThief a _ .called).symm
  | stolen hpc =>
    exact event_step rfl (.ret (congrArg ThiefStatus.view hpc)) (view_setThief a _ .idle).symm
  | stolenNone hpc =>
    refine event_step rfl (.ret ?_) (view_setThief a _ .idle).symm
    rcases hpc with hpc | hpc <;> exact congrArg ThiefStatus.view hpc
  | ownerStutter | thiefStutter => exact ⟨[], .nil, rfl⟩
  | linPush hpc => exact ⟨_, point_owner (by rw [hpc]; rfl) rfl .push, rfl⟩
  | linPop hpc hl => exact ⟨_, point_owner (by rw [hpc]; rfl) rfl (by rw [hl]; exact .pop), rfl⟩
  | linPopLast hpc hl =>
    exact ⟨_, point_owner (by rw [hpc]; rfl) rfl (by rw [hl]; exact .pop (l := [])), rfl⟩
  | linPopNone hpc hl =>
    exact ⟨_, point_owner (by rw [hpc]; rfl) rfl (by rw [hl]; exact .popNone), rfl⟩
  | @observe i hpc =>
    refine ⟨[], ?_, rfl⟩
    have he : view (a.setThief i (.stealing a.front)) = view a := by
      refine view_ext rfl rfl fun j => ?_
      by_cases hj : j = i
      · rw [hj, setThief_self]
        exact (congrArg ThiefStatus.view hpc).symm
      · rw [setThief_of_ne _ _ hj]
        rfl
    rw [he]
    exact .nil
  | linSteal hpc hl => exact ⟨_, point_thief (by rw [hpc]; rfl) rfl (by rw [hl]; exact .steal), rfl⟩
  | linEmpty hpc => exact ⟨_, point_thief (by rw [hpc]; rfl) rfl .stealNone, rfl⟩
  | linLost hpc => exact ⟨_, point_thief (by rw [hpc]; rfl) rfl .stealNone, rfl⟩

end Wss.ChaseLev.Atomic
