import Wss.ChaseLev.Atomic
import Wss.ChaseLev.Invariant
import Mathlib.Data.List.ReduceOption

/-!
# The code refines the abstract deque

`toAtomic d` reads the abstract deque off a state of the code: the items are those in the slots of
`top_, …, lb - 1`, and a call has taken effect once its program counter says so.

Where the calls take effect:

* `push` at its store of `bottom_`;
* `pop` at its load of `top_` where that decides (more than one item: it takes the last, no item:
  it returns nothing), else at its compare-and-swap;
* `steal` at its load of `bottom_` where it finds nothing, else at its compare-and-swap.

Results:
* `stepOwner_refines`, `stepThief_refines`: every atomic operation is a step of the abstract deque.
* `step_refines`: every step of the code, in a state with the invariant, is one.
-/

namespace Wss.ChaseLev

open Wss.Lib Atomic

variable {ι T : Type}

namespace State

/-- The item a pointer leads to. -/
def value (d : State ι T) (ptr : Option ℕ) : Option T := ptr.bind fun p => d.boxes[p]?

/-- The item of index `i`. -/
def valueAt (d : State ι T) (i : ℤ) : Option T := d.value (d.slot i)

end State

/-- The items in the deque. -/
def items (d : State ι T) : List T := (slice d.valueAt d.top d.lb).reduceOption

/-- Where the owner's call is in the abstract deque. A `pop` of several items takes effect when it
has loaded `top_`, one of the last item at the compare-and-swap. -/
def ownerStatus (d : State ι T) : OwnerPc T → OwnerStatus T
  | .idle => .idle
  | .pushBottom x | .pushTop x _ | .pushBuffer x _ _ | .growLoad x _ _ _ _
  | .growStore x _ _ _ _ _ | .growPublish x _ _ | .growRetire x _ _ | .pushSlot x _ _
  | .pushPublish x _ => .pushing x
  | .pushReturn => .pushed
  | .popBottom | .popBuffer _ | .popLower _ _ | .popTop _ _ | .popRaise _ _ _ | .popCas _ _ =>
    .popping
  | .popSlot b _ t => if t = b then .popping else .popped (d.valueAt b)
  | .popTake ptr => .popped (d.value ptr)
  | .popRestore _ | .popNone => .popped none

/-- Where a thief's call is in the abstract deque. -/
def thiefStatus (d : State ι T) : ThiefPc → ThiefStatus T
  | .idle => .idle
  | .stealTop => .called
  | .stealBottom t | .stealBuffer t | .stealSlot t _ | .stealCas t _ => .stealing t
  | .stealTake ptr =>
    match d.value ptr with
    | some x => .stolen x
    | none => .lost
  | .stealEmpty => .empty
  | .stealLost => .lost

/-- The abstract deque of a state. -/
def toAtomic (d : State ι T) : Deque ι T where
  front := d.top
  items := items d
  owner := ownerStatus d d.owner
  thief i := thiefStatus d (d.thief i)

variable {d d' : State ι T}

/-! ## The items -/

/-- A pointer somebody holds leads to an item. -/
theorem value_of_held (hi : Inv d) {h : Holder ι} {ptr : Option ℕ} (hp : held d h = ptr)
    (hs : ptr.isSome) : ∃ x, d.value ptr = some x := by
  obtain ⟨p, rfl⟩ := Option.isSome_iff_exists.mp hs
  exact ⟨_, List.getElem?_eq_getElem (hi.ledger.alive hp).1⟩

theorem valueAt_some (hi : Inv d) {i : ℤ} (h : d.top ≤ i) (h' : i < d.lb) :
    ∃ x, d.valueAt i = some x :=
  value_of_held hi (h := .index i) (heldIndex_of_mem h h') (hi.present i h h')

theorem items_congr (htop : d'.top = d.top) (hlb : d'.lb = d.lb)
    (hval : ∀ i, d.top ≤ i → i < d.lb → d'.valueAt i = d.valueAt i) : items d' = items d := by
  unfold items
  rw [htop, hlb, slice_congr hval]

theorem items_eq_nil (h : d.lb ≤ d.top) : items d = [] := by
  unfold items
  rw [slice_eq_nil h]
  rfl

theorem length_items (hi : Inv d) : ((items d).length : ℤ) = d.lb - d.top := by
  have hall : ∀ p ∈ slice d.valueAt d.top d.lb, p.isSome := fun p hp => by
    obtain ⟨i, h, h', rfl⟩ := mem_slice.mp hp
    obtain ⟨x, hx⟩ := valueAt_some hi h h'
    rw [hx]
    rfl
  have hlen := (List.reduceOption_length_eq_iff (l := slice d.valueAt d.top d.lb)).mpr hall
  have htl := hi.top_le
  rw [length_slice] at hlen
  unfold items
  omega

theorem items_cons (hi : Inv d) (h : d.top < d.lb) : ∃ x, d.valueAt d.top = some x ∧
    items d = x :: (slice d.valueAt (d.top + 1) d.lb).reduceOption := by
  obtain ⟨x, hx⟩ := valueAt_some hi le_rfl h
  exact ⟨x, hx, by rw [items, slice_cons h, hx, List.reduceOption_cons_of_some]⟩

theorem items_snoc (hi : Inv d) {b : ℤ} (hb : d.lb = b + 1) (h : d.top ≤ b) :
    ∃ x, d.valueAt b = some x ∧ items d = (slice d.valueAt d.top b).reduceOption ++ [x] := by
  obtain ⟨x, hx⟩ := valueAt_some hi h (by omega)
  refine ⟨x, hx, ?_⟩
  rw [items, hb, slice_snoc h, List.reduceOption_append, hx]
  rfl

/-- `bottom_` is below the end of the deque, which holds an item, only while a `pop` decides. -/
theorem popping_of_near (hi : Inv d) (hlt : d.top < d.lb) (hb : d.bottom < d.lb) :
    (toAtomic d).owner = .popping := by
  have ho := hi.owner
  show ownerStatus d d.owner = .popping
  unfold OwnerOk at ho
  unfold State.lb at hlt hb
  unfold ownerStatus
  cases hpo : d.owner with
  | popSlot b buf t =>
    simp only [hpo] at ho hlt hb ⊢
    by_cases he : t = b
    · rw [if_pos he]
    · rw [if_neg he] at hb
      omega
  | popTop _ _ | popRaise _ _ _ | popBottom | popBuffer _ | popLower _ _ | popCas _ _ => rfl
  | _ =>
    simp only [hpo] at ho hlt hb
    omega

/-- A deque just constructed. -/
theorem construct_toAtomic {cap : ℕ} (h : construct cap = some d) :
    toAtomic d = ⟨0, [], .idle, fun _ => .idle⟩ := by
  unfold construct at h
  split at h
  · exact absurd h (by simp)
  · obtain ⟨buf, -, rfl⟩ := Option.map_eq_some_iff.mp h
    rfl

/-! ## Steps that change nothing in the abstract deque, or the status of a call -/

theorem toAtomic_congr (htop : d'.top = d.top) (hitems : items d' = items d)
    (ho : ownerStatus d' d'.owner = ownerStatus d d.owner)
    (ht : ∀ i, thiefStatus d' (d'.thief i) = thiefStatus d (d.thief i)) :
    toAtomic d' = toAtomic d := by
  unfold toAtomic
  rw [htop, hitems, ho, funext ht]

theorem toAtomic_setOwner {pc : OwnerPc T} (hlb : State.lb { d with owner := pc } = d.lb) :
    toAtomic { d with owner := pc } = { toAtomic d with owner := ownerStatus d pc } := by
  have hitems : items { d with owner := pc } = items d := items_congr rfl hlb fun _ _ _ => rfl
  unfold toAtomic
  rw [hitems]
  rfl

variable [DecidableEq ι]

theorem toAtomic_setThief (i : ι) (pc : ThiefPc) :
    toAtomic (d.setThief i pc) = (toAtomic d).setThief i (thiefStatus d pc) := by
  have ht : (fun j => thiefStatus d ((d.setThief i pc).thief j)) =
      Function.update (fun j => thiefStatus d (d.thief j)) i (thiefStatus d pc) := by
    funext j
    by_cases hj : j = i
    · rw [hj, setThief_self, Function.update_self]
    · rw [setThief_of_ne _ _ hj, Function.update_of_ne hj]
  show (⟨_, _, _, fun j => thiefStatus d ((d.setThief i pc).thief j)⟩ : Deque ι T) = _
  rw [ht]
  rfl

/-- A step of the owner that its call does not show. -/
theorem owner_stutter (htop : d'.top = d.top) (hlb : d'.lb = d.lb) (hboxes : d'.boxes = d.boxes)
    (hslot : ∀ i, d.top ≤ i → i < d.lb → d'.slot i = d.slot i) (hthief : d'.thief = d.thief)
    (ho : ownerStatus d' d'.owner = ownerStatus d d.owner) :
    Step (toAtomic d) .owner (toAtomic d') := by
  have hval : ∀ p, d'.value p = d.value p := fun p => by unfold State.value; rw [hboxes]
  have heq : toAtomic d' = toAtomic d := by
    refine toAtomic_congr htop (items_congr htop hlb fun i h1 h2 => ?_) ho fun i => ?_
    · unfold State.valueAt
      rw [hval, hslot i h1 h2]
    · rw [hthief]
      unfold thiefStatus
      simp only [hval]
  rw [heq]
  exact .ownerStutter

/-- A step of the owner to a program counter that its call does not show. -/
theorem owner_stutter_pc {pc : OwnerPc T} (hlb : State.lb { d with owner := pc } = d.lb)
    (ho : ownerStatus d pc = ownerStatus d d.owner) :
    Step (toAtomic d) .owner (toAtomic { d with owner := pc }) :=
  owner_stutter rfl hlb rfl (fun _ _ _ => rfl) rfl ho

/-! ## Linearization points of the owner -/

section Owner

variable {item : T} {b t : ℤ} {buf : ℕ} {ptr : Option ℕ}

theorem pushPublish_refines (hi : Inv d) (hpc : d.owner = .pushPublish item b) :
    Step (toAtomic d) .owner (toAtomic { d with bottom := b + 1, owner := .pushReturn }) := by
  have ho := hi.owner
  simp only [OwnerOk, hpc] at ho
  obtain ⟨hb, -, -, p, hp, -, hx⟩ := ho
  have hlb : d.lb = b := by simp only [State.lb, hpc, hb]
  have hval : d.valueAt b = some item := by
    simp only [State.valueAt, State.value, hp, Option.bind, hx]
  have hitems : items { d with bottom := b + 1, owner := OwnerPc.pushReturn } =
      items d ++ [item] := by
    have h : items { d with bottom := b + 1, owner := OwnerPc.pushReturn } =
        (slice d.valueAt d.top (b + 1)).reduceOption := rfl
    rw [h, slice_snoc (hlb ▸ hi.top_le), List.reduceOption_append, hval, items, hlb]
    rfl
  have heq : toAtomic { d with bottom := b + 1, owner := OwnerPc.pushReturn } =
      { toAtomic d with items := (toAtomic d).items ++ [item], owner := .pushed } := by
    unfold toAtomic
    rw [hitems]
    rfl
  rw [heq]
  exact .linPush (by simp only [toAtomic, hpc, ownerStatus])

theorem popTop_refines (hi : Inv d) (hpc : d.owner = .popTop b buf)
    (h : stepOwner d = some d') : Step (toAtomic d) .owner (toAtomic d') := by
  have hlb : d.lb = b + 1 := by simp only [State.lb, hpc]
  have hst : (toAtomic d).owner = .popping := by simp only [toAtomic, hpc, ownerStatus]
  have htl := hi.top_le
  simp only [stepOwner, hpc] at h
  split at h
  · obtain rfl := Option.some.inj h
    have hlb' : State.lb { d with owner := .popRestore b } = d.lb := by simp only [State.lb, hpc]
    rw [toAtomic_setOwner hlb']
    exact .linPopNone hst (items_eq_nil (by omega))
  · obtain rfl := Option.some.inj h
    by_cases he : d.top = b
    · exact owner_stutter_pc (by simp only [State.lb, hpc, he, if_true])
        (by simp only [ownerStatus, hpc, he, if_true])
    · obtain ⟨x, hx, hitems⟩ := items_snoc hi hlb (by omega)
      have heq : toAtomic { d with owner := .popSlot b buf d.top } =
          { toAtomic d with
            items := (slice d.valueAt d.top b).reduceOption
            owner := .popped (some x) } := by
        have hlb' : State.lb { d with owner := .popSlot b buf d.top } = b := if_neg he
        unfold toAtomic items
        rw [hlb', ← hx]
        simp only [ownerStatus, if_neg he]
        rfl
      rw [heq]
      refine .linPop hst hitems ?_
      -- index `top_` is still in the deque
      obtain ⟨y, hy⟩ := valueAt_some hi le_rfl (by omega : d.top < d.lb)
      rw [slice_cons (by omega), hy, List.reduceOption_cons_of_some]
      exact List.cons_ne_nil _ _

theorem popCas_refines (hi : Inv d) (hpc : d.owner = .popCas t ptr)
    (h : stepOwner d = some d') : Step (toAtomic d) .owner (toAtomic d') := by
  have ho := hi.owner
  simp only [OwnerOk, hpc] at ho
  obtain ⟨hb, htt, hptr⟩ := ho
  have hlb : d.lb = t + 1 := by simp only [State.lb, hpc, hb]
  have hst : (toAtomic d).owner = .popping := by simp only [toAtomic, hpc, ownerStatus]
  simp only [stepOwner, hpc] at h
  split at h
  · rename_i he
    obtain rfl := Option.some.inj h
    obtain ⟨x, hx, hitems⟩ := items_snoc hi hlb he.le
    have hnil : items { d with top := t + 1, owner := OwnerPc.popTake ptr } = [] :=
      items_eq_nil hb.le
    have heq : toAtomic { d with top := t + 1, owner := OwnerPc.popTake ptr } =
        { toAtomic d with
          front := (toAtomic d).front + 1, items := [], owner := .popped (some x) } := by
      unfold toAtomic
      rw [hnil, ← hx, ← he]
      simp only [ownerStatus, State.value, State.valueAt, hptr he, he]
      rfl
    rw [heq]
    refine .linPopLast hst ?_
    show items d = [x]
    rw [hitems, slice_eq_nil he.ge]
    rfl
  · rename_i hne
    obtain rfl := Option.some.inj h
    have hlb' : State.lb { d with owner := .popNone } = d.lb := by simp only [State.lb, hpc]
    rw [toAtomic_setOwner hlb']
    exact .linPopNone hst (items_eq_nil (by omega))

/-- The slot store of `push` changes nothing below the new index, and no box in use. -/
theorem pushSlot_refines (hi : Inv d) (hpc : d.owner = .pushSlot item b buf)
    (h : stepOwner d = some d') : Step (toAtomic d) .owner (toAtomic d') := by
  have ho := hi.owner
  simp only [OwnerOk, hpc] at ho
  obtain ⟨hb, rfl, hroom⟩ := ho
  have hlb : d.lb = b := by simp only [State.lb, hpc, hb]
  simp only [stepOwner, hpc, Option.some.injEq] at h
  have hboxes : d'.boxes = d.boxes ++ [item] := by rw [← h]
  have htop : d'.top = d.top := by rw [← h]
  have hlb' : d'.lb = d.lb := by rw [← h]; exact hb.trans hlb.symm
  have hthief : d'.thief = d.thief := by rw [← h]
  have hslot : ∀ i, d.top ≤ i → i < d.lb → d'.slot i = d.slot i := fun i h1 h2 => by
    rw [← h]
    simp only [State.slot, Function.update_self]
    refine Buffer.load_store_of_near (hlb ▸ h2) ?_
    show b - i < d.cap
    omega
  have hval : ∀ {h : Holder ι} {p}, held d h = some p → d'.value (some p) = d.value (some p) :=
    fun {h p} hp => by
      simp only [State.value, Option.bind, hboxes]
      exact List.getElem?_append_left (hi.ledger.alive hp).1
  have heq : toAtomic d' = toAtomic d := by
    refine toAtomic_congr htop (items_congr htop hlb' fun i h1 h2 => ?_) ?_ fun i => ?_
    · unfold State.valueAt
      obtain ⟨p, hp⟩ := Option.isSome_iff_exists.mp (hi.present i h1 h2)
      rw [hslot i h1 h2, hp]
      exact hval (h := .index i) ((heldIndex_of_mem h1 h2).trans hp)
    · rw [← h]
      simp only [ownerStatus, hpc]
    · rw [hthief]
      have ht := hi.thief i
      cases hpi : d.thief i with
      | stealTake ptr =>
        rw [hpi] at ht
        obtain ⟨p, rfl⟩ := Option.isSome_iff_exists.mp ht
        have hheld : held d (.thief i) = some p := by simp only [held, hpi, ThiefPc.held]
        simp only [thiefStatus, hval hheld]
      | _ => rfl
  rw [heq]
  exact .ownerStutter

/-- **Every atomic operation of the owner is one of the abstract deque.** -/
theorem stepOwner_refines (hi : Inv d) (h : stepOwner d = some d') :
    Step (toAtomic d) .owner (toAtomic d') := by
  have ho := hi.owner
  have h₀ := h
  unfold stepOwner at h
  unfold OwnerOk at ho
  cases hpc : d.owner with
  | idle | pushReturn | popTake _ | popNone => simp [hpc] at h
  | pushSlot item b buf => exact pushSlot_refines hi hpc h₀
  | pushPublish item b =>
    simp only [hpc, Option.some.injEq] at h
    subst h
    exact pushPublish_refines hi hpc
  | popTop b buf => exact popTop_refines hi hpc h₀
  | popCas t ptr => exact popCas_refines hi hpc h₀
  | pushBottom _ | pushTop _ _ | growLoad _ _ _ _ _ | popBottom | popBuffer _ =>
    simp only [hpc, Option.some.injEq] at h
    subst h
    exact owner_stutter_pc (by simp only [State.lb, hpc]) (by simp only [ownerStatus, hpc])
  | pushBuffer item b t =>
    simp only [hpc] at h
    split at h
    · obtain ⟨nb, -, rfl⟩ := Option.map_eq_some_iff.mp h
      have hnext := growNext_cases item b d.buffer d.allocated t
      have hheap : Function.update d.heap d.allocated nb d.buffer = d.heap d.buffer :=
        Function.update_of_ne (by have := hi.buffer_lt; omega) _ _
      refine owner_stutter rfl ?_ rfl (fun i _ _ => ?_) rfl ?_
      · rcases hnext with hn | hn <;> simp only [State.lb, hn, hpc]
      · simp only [State.slot, hheap]
      · rcases hnext with hn | hn <;> simp only [ownerStatus, hn, hpc]
    · obtain rfl := Option.some.inj h
      exact owner_stutter_pc (by simp only [State.lb, hpc]) (by simp only [ownerStatus, hpc])
  | growStore item b old new i ptr =>
    simp only [hpc, Option.some.injEq] at h ho
    subst h
    obtain ⟨-, -, -, hcp, -⟩ := ho
    have hnext := growNext_cases item b old new (i + 1)
    have hheap : Function.update d.heap new ((d.heap new).store i ptr) d.buffer =
        d.heap d.buffer := Function.update_of_ne hcp.lt.ne _ _
    refine owner_stutter rfl ?_ rfl (fun i _ _ => ?_) rfl ?_
    · rcases hnext with hn | hn <;> simp only [State.lb, hn, hpc]
    · simp only [State.slot, hheap]
    · rcases hnext with hn | hn <;> simp only [ownerStatus, hn, hpc]
  | growPublish item b new =>
    simp only [hpc, Option.some.injEq] at h ho
    subst h
    have hlb : d.lb = b := by simp only [State.lb, hpc, ho.1]
    exact owner_stutter rfl (by simp only [State.lb, hpc]) rfl
      (fun i h1 h2 => ho.2.load i h1 (hlb ▸ h2)) rfl (by simp only [ownerStatus, hpc])
  | growRetire _ _ _ | popRestore _ =>
    simp only [hpc, Option.some.injEq] at h
    subst h
    exact owner_stutter rfl (by simp only [State.lb, hpc]) rfl (fun _ _ _ => rfl) rfl
      (by simp only [ownerStatus, hpc])
  | popLower b buf =>
    simp only [hpc, Option.some.injEq] at h ho
    subst h
    exact owner_stutter rfl (by simp only [State.lb, hpc, ho.1]) rfl (fun _ _ _ => rfl) rfl
      (by simp only [ownerStatus, hpc])
  | popSlot b buf t =>
    simp only [hpc] at h ho
    obtain ⟨hb, rfl, -⟩ := ho
    split at h
    · rename_i he
      obtain rfl := Option.some.inj h
      exact owner_stutter_pc (by simp only [State.lb, hpc, he, if_true])
        (by simp only [ownerStatus, hpc, he, if_true])
    · rename_i hne
      obtain rfl := Option.some.inj h
      exact owner_stutter_pc (by simp only [State.lb, hpc, if_neg hne, hb])
        (by simp only [ownerStatus, hpc, if_neg hne]; rfl)
  | popRaise t b ptr =>
    simp only [hpc, Option.some.injEq] at h
    subst h
    exact owner_stutter rfl (by simp only [State.lb, hpc]) rfl (fun _ _ _ => rfl) rfl
      (by simp only [ownerStatus, hpc])

end Owner

/-! ## The thieves -/

/-- A step of a thief to a program counter that its call does not show. -/
theorem thief_stutter {i : ι} {pc : ThiefPc} (hst : thiefStatus d pc = thiefStatus d (d.thief i)) :
    Step (toAtomic d) (.thief i) (toAtomic (d.setThief i pc)) := by
  have heq : toAtomic (d.setThief i pc) = toAtomic d := by
    have hself : (toAtomic d).setThief i (thiefStatus d (d.thief i)) = toAtomic d := by
      unfold Deque.setThief
      rw [show thiefStatus d (d.thief i) = (toAtomic d).thief i from rfl, Function.update_eq_self]
    rw [toAtomic_setThief, hst, hself]
  rw [heq]
  exact .thiefStutter

/-- **Every atomic operation of a thief is one of the abstract deque.** -/
theorem stepThief_refines (hi : Inv d) {i : ι} (h : stepThief d i = some d') :
    Step (toAtomic d) (.thief i) (toAtomic d') := by
  have ht := hi.thief i
  have hst : (toAtomic d).thief i = thiefStatus d (d.thief i) := rfl
  unfold stepThief at h
  cases hpc : d.thief i with
  | idle | stealTake _ | stealEmpty | stealLost => simp [hpc] at h
  | stealTop =>
    simp only [hpc, Option.some.injEq] at h
    subst h
    rw [toAtomic_setThief]
    exact .observe (by rw [hst, hpc]; rfl)
  | stealBottom t =>
    simp only [hpc] at h ht
    split at h
    · rename_i hge
      obtain rfl := Option.some.inj h
      rw [toAtomic_setThief]
      have hlen := length_items hi
      have hle := hi.bottom_near
      have hlt : ThiefOk d (.stealBottom t) := ht
      have htop : t ≤ d.top := hlt
      refine .linEmpty (t := t) (by rw [hst, hpc]; rfl) (by show (items d).length ≤ 1; omega)
        fun hne => ?_
      have hpos : 0 < (items d).length := List.length_pos_iff.mpr hne
      exact popping_of_near hi (by omega) (by omega)
    · obtain rfl := Option.some.inj h
      exact thief_stutter (by rw [hpc]; rfl)
  | stealBuffer t | stealSlot t buf =>
    simp only [hpc, Option.some.injEq] at h
    subst h
    exact thief_stutter (by rw [hpc]; rfl)
  | stealCas t ptr =>
    simp only [hpc] at h ht
    obtain ⟨htt, hok⟩ := ht
    split at h
    · rename_i he
      obtain rfl := Option.some.inj h
      subst he
      obtain ⟨hlt, hptr⟩ := hok rfl
      obtain ⟨x, hx, hitems⟩ := items_cons hi hlt
      have hx' : d.value ptr = some x := by rw [hptr]; exact hx
      have heq : toAtomic { d.setThief i (.stealTake ptr) with top := d.top + 1 } =
          { (toAtomic d).setThief i (.stolen x) with
            front := (toAtomic d).front + 1
            items := (slice d.valueAt (d.top + 1) d.lb).reduceOption } := by
        have hs : thiefStatus d (.stealTake ptr) = .stolen x := by simp only [thiefStatus, hx']
        rw [← hs, ← toAtomic_setThief]
        rfl
      rw [heq]
      exact .linSteal (by rw [hst, hpc]; rfl) hitems
    · obtain rfl := Option.some.inj h
      rw [toAtomic_setThief]
      refine .linLost (t := t) (by rw [hst, hpc]; rfl) ?_
      show t < d.top
      omega

variable [DecidableEq T] {l : Label ι T}

/-- **Every step of the code is one of the abstract deque.** -/
theorem step_refines (hi : Inv d) (h : step d l = some d') : Step (toAtomic d) l (toAtomic d') := by
  have hst : ∀ i, (toAtomic d).thief i = thiefStatus d (d.thief i) := fun _ => rfl
  cases l with
  | owner => exact stepOwner_refines hi h
  | thief i => exact stepThief_refines hi h
  | push item =>
    simp only [step] at h
    split at h
    · rename_i hpc
      obtain rfl := Option.some.inj h
      have hlb : State.lb { d with owner := .pushBottom item } = d.lb := by
        simp only [State.lb, hpc]
      rw [toAtomic_setOwner hlb]
      exact .push (by simp only [toAtomic, hpc, ownerStatus])
    · exact absurd h (by simp)
  | pushed =>
    simp only [step] at h
    split at h
    · rename_i hpc
      obtain rfl := Option.some.inj h
      have hlb : State.lb { d with owner := .idle } = d.lb := by simp only [State.lb, hpc]
      rw [toAtomic_setOwner hlb]
      exact .pushed (by simp only [toAtomic, hpc, ownerStatus])
    · exact absurd h (by simp)
  | pop =>
    simp only [step] at h
    split at h
    · rename_i hpc
      obtain rfl := Option.some.inj h
      have hlb : State.lb { d with owner := .popBottom } = d.lb := by simp only [State.lb, hpc]
      rw [toAtomic_setOwner hlb]
      exact .pop (by simp only [toAtomic, hpc, ownerStatus])
    · exact absurd h (by simp)
  | popped r =>
    have hlb : ∀ {pc}, d.owner = pc → pc = .popNone ∨ (∃ ptr, pc = .popTake ptr) →
        State.lb { d with owner := .idle } = d.lb := by
      rintro pc hpc (rfl | ⟨ptr, rfl⟩) <;> simp only [State.lb, hpc]
    simp only [step] at h
    split at h
    · rename_i hpc
      split at h
      · rename_i hr
        obtain rfl := Option.some.inj h
        rw [toAtomic_setOwner (hlb hpc (.inl rfl))]
        exact .popped (by simp only [toAtomic, hpc, ownerStatus, hr])
      · exact absurd h (by simp)
    · rename_i p hpc
      split at h
      · rename_i hr
        obtain rfl := Option.some.inj h
        have heq : toAtomic { d with deleted := d.deleted ++ [p], owner := .idle } =
            toAtomic { d with owner := .idle } := rfl
        rw [heq, toAtomic_setOwner (hlb hpc (.inr ⟨_, rfl⟩))]
        exact .popped (by simp only [toAtomic, hpc, ownerStatus, hr.2]; rfl)
      · exact absurd h (by simp)
    · exact absurd h (by simp)
  | steal i =>
    simp only [step] at h
    split at h
    · rename_i hpc
      obtain rfl := Option.some.inj h
      rw [toAtomic_setThief]
      exact .steal (by rw [hst, hpc]; rfl)
    · exact absurd h (by simp)
  | stolen i r =>
    have ht := hi.thief i
    simp only [step] at h
    split at h
    · rename_i hpc
      split at h
      · rename_i hr
        obtain rfl := Option.some.inj h
        rw [toAtomic_setThief, hr]
        exact .stolenNone (.inl (by rw [hst, hpc]; rfl))
      · exact absurd h (by simp)
    · rename_i hpc
      split at h
      · rename_i hr
        obtain rfl := Option.some.inj h
        rw [toAtomic_setThief, hr]
        exact .stolenNone (.inr (by rw [hst, hpc]; rfl))
      · exact absurd h (by simp)
    · rename_i hpc
      rw [hpc] at ht
      exact absurd ht (by simp [ThiefOk])
    · rename_i p hpc
      split at h
      · rename_i hr
        obtain rfl := Option.some.inj h
        obtain ⟨x, rfl⟩ := Option.isSome_iff_exists.mp hr.1
        have heq : toAtomic { d.setThief i .idle with deleted := d.deleted ++ [p] } =
            toAtomic (d.setThief i .idle) := rfl
        rw [heq, toAtomic_setThief]
        refine .stolen ?_
        have hx : d.value (some p) = some x := hr.2.symm
        rw [hst, hpc]
        simp only [thiefStatus, hx]
      · exact absurd h (by simp)
    · exact absurd h (by simp)

end Wss.ChaseLev
