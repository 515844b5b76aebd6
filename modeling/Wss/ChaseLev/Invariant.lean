import Wss.ChaseLev.Model
import Wss.Lib.Ledger
import Mathlib.Tactic.Ring

/-!
# The invariant of `ChaseLevDeque`

`Inv d` holds of every state of every interleaving (`reachable_inv`). Its parts:

* the indices `top_, …, lb - 1` are the items that are in the deque, where `lb` is `bottom_` with
  the transient decrement of a `pop` taken back as long as that `pop` has not read `top_`;
* every such index has a box in its slot of the current buffer, boxes in push order, and each box
  not deleted is held once: by an index, by the owner or by a thief (`Ledger`);
* `OwnerOk`, `ThiefOk`: what a thread knows from the values it has loaded. A thief past its loads
  knows something only while `top_` is still the `t` it loaded: then index `t` is still in the
  deque, and the buffer it holds, retired or not, agrees with the current one on index `t`.

Steps fall into those that move no box (`Inv.frame`) and those that allocate, hand over or free
one.

Results:
* `stepOwner_inv`, `stepThief_inv`: every atomic operation keeps the invariant.
* `step_inv`: so does every call and every return.
* `reachable_inv`: it holds of every state of every interleaving.
-/

namespace Wss.ChaseLev

open Wss.Lib

variable {ι T : Type}

namespace State

/-- The capacity of the current buffer. -/
def cap (d : State ι T) : ℤ := (d.heap d.buffer).capacity

/-- One past the last index in the deque. -/
def lb (d : State ι T) : ℤ :=
  match d.owner with
  | .popTop b _ | .popRestore b | .popRaise _ b _ => b + 1
  | .popSlot b _ t => if t = b then b + 1 else b
  | _ => d.bottom

/-- The box the owner holds outside the deque. -/
def heldOwner (d : State ι T) : Option ℕ :=
  match d.owner with
  | .pushPublish _ b => d.slot b
  | .popSlot b _ t => if t = b then none else d.slot b
  | .popTake ptr => ptr
  | _ => none

/-- The box index `i` holds. -/
def heldIndex (d : State ι T) (i : ℤ) : Option ℕ :=
  if d.top ≤ i ∧ i < d.lb then d.slot i else none

end State

/-- The box a thief holds. -/
def ThiefPc.held : ThiefPc → Option ℕ
  | .stealTake ptr => ptr
  | _ => none

/-- Where a box can be. -/
inductive Holder (ι : Type)
  | index (i : ℤ)
  | owner
  | thief (i : ι)
  deriving DecidableEq

/-- Who holds which box. -/
def held (d : State ι T) : Holder ι → Option ℕ
  | .index i => d.heldIndex i
  | .owner => d.heldOwner
  | .thief i => (d.thief i).held

/-- `grow` has copied the indices below `i` to the buffer `new`, which is not published yet. -/
structure Copied (d : State ι T) (new : ℕ) (i : ℤ) : Prop where
  lt : d.buffer < new
  allocated : new < d.allocated
  capacity : ((d.heap new).capacity : ℤ) = 2 * d.cap
  load : ∀ j, d.top ≤ j → j < i → (d.heap new).load j = d.slot j

/-- What the owner knows. -/
def OwnerOk (d : State ι T) : Prop :=
  match d.owner with
  | .idle | .pushBottom _ | .pushReturn | .popBottom | .popNone => True
  | .pushTop _ b => d.bottom = b
  | .pushBuffer _ b t => d.bottom = b ∧ t ≤ d.top ∧ t ≤ b ∧ b ≤ t + d.cap
  | .growLoad _ b old new i => d.bottom = b ∧ old = d.buffer ∧ i < b ∧ Copied d new i
  | .growStore _ b old new i ptr =>
    d.bottom = b ∧ old = d.buffer ∧ i < b ∧ Copied d new i ∧ ptr = d.slot i
  | .growPublish _ b new => d.bottom = b ∧ Copied d new b
  | .growRetire _ b buf | .pushSlot _ b buf =>
    d.bottom = b ∧ buf = d.buffer ∧ b < d.top + d.cap
  | .pushPublish item b => d.bottom = b ∧ b < d.top + d.cap ∧ b < d.boxes.length ∧
    ∃ p, d.slot b = some p ∧ p + 1 = d.boxes.length ∧ d.boxes[p]? = some item
  | .popBuffer b => d.bottom = b + 1
  | .popLower b buf => d.bottom = b + 1 ∧ buf = d.buffer
  | .popTop b buf => d.bottom = b ∧ buf = d.buffer
  | .popRestore b => d.bottom = b ∧ d.top = b + 1
  | .popSlot b buf t =>
    d.bottom = b ∧ buf = d.buffer ∧ t ≤ d.top ∧ t ≤ b ∧ (t < b → (d.slot b).isSome)
  | .popRaise t b ptr => d.bottom = b ∧ t = b ∧ t ≤ d.top ∧ (d.top = t → ptr = d.slot t)
  | .popCas t ptr => d.bottom = t + 1 ∧ t ≤ d.top ∧ (d.top = t → ptr = d.slot t)
  | .popTake ptr => ptr.isSome

/-- What a thief knows. -/
def ThiefOk (d : State ι T) : ThiefPc → Prop
  | .idle | .stealTop | .stealEmpty | .stealLost => True
  | .stealBottom t => t ≤ d.top
  | .stealBuffer t => t ≤ d.top ∧ (d.top = t → t < d.lb)
  | .stealSlot t buf => t ≤ d.top ∧ buf ≤ d.buffer ∧
    (d.top = t → t < d.lb ∧ (d.heap buf).load t = d.slot t)
  | .stealCas t ptr => t ≤ d.top ∧ (d.top = t → t < d.lb ∧ ptr = d.slot t)
  | .stealTake ptr => ptr.isSome

/-- The invariant. -/
structure Inv (d : State ι T) : Prop where
  top_nonneg : 0 ≤ d.top
  top_le : d.top ≤ d.lb
  le_cap : d.lb ≤ d.top + d.cap
  le_count : d.lb ≤ d.boxes.length
  buffer_lt : d.buffer < d.allocated
  owner : OwnerOk d
  thief : ∀ i, ThiefOk d (d.thief i)
  present : ∀ i, d.top ≤ i → i < d.lb → (d.slot i).isSome
  sorted : ∀ i j p q, d.top ≤ i → i < j → j < d.lb → d.slot i = some p → d.slot j = some q → p < q
  ledger : Ledger (held d) d.boxes.length d.deleted

/-! ## Transfer -/

variable {d d' : State ι T}

theorem cap_pos (d : State ι T) : 0 < d.cap := by
  have := (d.heap d.buffer).capacity_pos
  unfold State.cap
  omega

theorem heldIndex_of_mem {i : ℤ} (h : d.top ≤ i) (h' : i < d.lb) : d.heldIndex i = d.slot i :=
  if_pos ⟨h, h'⟩

theorem heldIndex_of_not {i : ℤ} (h : ¬ (d.top ≤ i ∧ i < d.lb)) : d.heldIndex i = none := if_neg h

theorem held_ext {f : Holder ι → Option ℕ} (hidx : ∀ i, d.heldIndex i = f (.index i))
    (ho : d.heldOwner = f .owner) (ht : ∀ i, (d.thief i).held = f (.thief i)) : held d = f := by
  funext h
  cases h with
  | index i => exact hidx i
  | owner => exact ho
  | thief i => exact ht i

/-- `bottom_` is the end of the deque, or one less in the middle of a `pop`. -/
theorem Inv.bottom_near (hi : Inv d) : d.bottom ≤ d.lb ∧ d.lb ≤ d.bottom + 1 := by
  have ho := hi.owner
  unfold OwnerOk at ho
  unfold State.lb
  cases hpo : d.owner with
  | popSlot b buf t =>
    simp only [hpo] at ho ⊢
    split_ifs <;> omega
  | _ => simp only [hpo] at ho ⊢; omega

/-- A thief's knowledge survives a step that keeps what it needs at index `top_`, as long as
`top_` does not move. -/
theorem ThiefOk.transfer {pc : ThiefPc} (h : ThiefOk d pc) (htop : d.top ≤ d'.top)
    (hbuf : d.buffer ≤ d'.buffer)
    (hidx : d'.top = d.top → d.top < d.lb → d.top < d'.lb ∧ d'.slot d.top = d.slot d.top ∧
      ∀ c, c ≤ d.buffer → (d'.heap c).load d.top = (d.heap c).load d.top) : ThiefOk d' pc := by
  -- while `top_` is `t` it has not moved since `t` was loaded
  have still : ∀ {t}, t ≤ d.top → d'.top = t → d.top = t ∧ d'.top = d.top := fun h1 h2 => by omega
  cases pc with
  | idle | stealTop | stealEmpty | stealLost => trivial
  | stealBottom t => exact h.trans htop
  | stealBuffer t =>
    refine ⟨h.1.trans htop, fun he => ?_⟩
    obtain ⟨h1, h2⟩ := still h.1 he
    have := hidx h2 (h1 ▸ h.2 h1)
    exact h1 ▸ this.1
  | stealSlot t buf =>
    refine ⟨h.1.trans htop, h.2.1.trans hbuf, fun he => ?_⟩
    obtain ⟨h1, h2⟩ := still h.1 he
    obtain ⟨hlt, hload⟩ := h.2.2 h1
    subst h1
    obtain ⟨g1, g2, g3⟩ := hidx h2 hlt
    exact ⟨g1, by rw [g3 buf h.2.1, g2, hload]⟩
  | stealCas t ptr =>
    refine ⟨h.1.trans htop, fun he => ?_⟩
    obtain ⟨h1, h2⟩ := still h.1 he
    obtain ⟨hlt, hptr⟩ := h.2 h1
    subst h1
    obtain ⟨g1, g2, -⟩ := hidx h2 hlt
    exact ⟨g1, by rw [g2, hptr]⟩
  | stealTake ptr => exact h

/-- A step that moves no box keeps the invariant as far as the deque's contents go. -/
theorem Inv.frame (hi : Inv d) (htop : d'.top = d.top) (hlb : d'.lb = d.lb) (hcap : d.cap ≤ d'.cap)
    (hslot : ∀ i, d.top ≤ i → i < d.lb → d'.slot i = d.slot i) (hbuf : d'.buffer < d'.allocated)
    (hboxes : d'.boxes = d.boxes) (hdel : d'.deleted = d.deleted)
    (hho : d'.heldOwner = d.heldOwner) (hht : ∀ i, (d'.thief i).held = (d.thief i).held)
    (ho : OwnerOk d') (ht : ∀ i, ThiefOk d' (d'.thief i)) : Inv d' where
  top_nonneg := by rw [htop]; exact hi.top_nonneg
  top_le := by rw [htop, hlb]; exact hi.top_le
  le_cap := by
    rw [htop, hlb]
    exact hi.le_cap.trans (by omega)
  le_count := by rw [hlb, hboxes]; exact hi.le_count
  buffer_lt := hbuf
  owner := ho
  thief := ht
  present i h1 h2 := by
    rw [htop] at h1
    rw [hlb] at h2
    rw [hslot i h1 h2]
    exact hi.present i h1 h2
  sorted i j p q h1 h2 h3 hp hq := by
    rw [htop] at h1
    rw [hlb] at h3
    rw [hslot i h1 (h2.trans h3)] at hp
    rw [hslot j (h1.trans h2.le) h3] at hq
    exact hi.sorted i j p q h1 h2 h3 hp hq
  ledger := by
    have hheld : held d' = held d := by
      refine held_ext (fun i => ?_) hho hht
      show d'.heldIndex i = d.heldIndex i
      unfold State.heldIndex
      rw [htop, hlb]
      split_ifs with h
      · exact hslot i h.1 h.2
      · rfl
    rw [hheld, hboxes, hdel]
    exact hi.ledger

/-- A step of the owner that changes its program counter alone. -/
theorem Inv.setOwner (hi : Inv d) {pc : OwnerPc T} (hlb : State.lb { d with owner := pc } = d.lb)
    (hho : State.heldOwner { d with owner := pc } = d.heldOwner)
    (ho : OwnerOk { d with owner := pc }) : Inv { d with owner := pc } :=
  hi.frame rfl hlb le_rfl (fun _ _ _ => rfl) hi.buffer_lt rfl rfl hho (fun _ => rfl) ho fun i =>
    (hi.thief i).transfer le_rfl le_rfl fun _ h => ⟨by rw [hlb]; exact h, rfl, fun _ _ => rfl⟩

/-- Thieves know what they knew in a state that differs in the owner's position and in what was
deleted. -/
theorem Inv.thief_same (hi : Inv d) (htop : d'.top = d.top) (hlb : d'.lb = d.lb)
    (hheap : d'.heap = d.heap) (hbuf : d'.buffer = d.buffer) : ∀ i, ThiefOk d' (d.thief i) :=
  fun i => (hi.thief i).transfer (by omega) (by omega) fun _ h =>
    ⟨by omega, by simp only [State.slot, hheap, hbuf], fun _ _ => by rw [hheap]⟩

/-! ## The owner's steps -/

section Owner

variable {item : T} {b t i : ℤ} {old new buf : ℕ} {ptr : Option ℕ}

/-- The state after `grow` has allocated the buffer. -/
theorem Inv.growStart (hi : Inv d) (hpc : d.owner = .pushBuffer item b t) {nb : Buffer}
    (hcap : nb.capacity = (d.heap d.buffer).capacity * 2) (hfull : b - t > d.cap - 1) :
    Inv { d with
      heap := Function.update d.heap d.allocated nb
      allocated := d.allocated + 1
      owner := growNext item b d.buffer d.allocated t } := by
  have ho := hi.owner
  simp only [OwnerOk, hpc] at ho
  obtain ⟨hb, htt, htb, -⟩ := ho
  have hpos := cap_pos d
  have hne : growNext item b d.buffer d.allocated t = .growLoad item b d.buffer d.allocated t :=
    if_neg (by omega)
  have hlt := hi.buffer_lt
  have hheap : ∀ c, c < d.allocated → Function.update d.heap d.allocated nb c = d.heap c :=
    fun c hc => Function.update_of_ne (by omega) _ _
  rw [hne]
  refine hi.frame rfl (by simp only [State.lb, hpc]) ?_ (fun i _ _ => ?_) (Nat.lt_succ_of_lt hlt)
    rfl rfl (by simp only [State.heldOwner, hpc]) (fun _ => rfl) ?_ fun i => ?_
  · simp only [State.cap, hheap _ hlt, le_refl]
  · simp only [State.slot, hheap _ hlt]
  · refine ⟨hb, rfl, by omega, hlt, Nat.lt_succ_self _, ?_, fun j h1 h2 => ?_⟩
    · simp only [State.cap, Function.update_self, hheap _ hlt, hcap]
      push_cast
      ring
    · simp only at h1
      omega
  · refine (hi.thief i).transfer le_rfl le_rfl fun _ h => ⟨?_, ?_, fun c hc => ?_⟩
    · simpa only [State.lb, hpc] using h
    · simp only [State.slot, hheap _ hlt]
    · simp only [hheap _ (hc.trans_lt hlt)]

/-- A store to the buffer `grow` is filling. -/
theorem Inv.growStore (hi : Inv d) (hpc : d.owner = .growStore item b old new i ptr) :
    Inv { d with
      heap := Function.update d.heap new ((d.heap new).store i ptr)
      owner := growNext item b old new (i + 1) } := by
  have ho := hi.owner
  simp only [OwnerOk, hpc] at ho
  obtain ⟨hb, hold, hib, hcp, hptr⟩ := ho
  have hlb : d.lb = b := by simp only [State.lb, hpc, hb]
  have hcapl := hi.le_cap
  have hheap : ∀ c, c ≤ d.buffer →
      Function.update d.heap new ((d.heap new).store i ptr) c = d.heap c :=
    fun c hc => Function.update_of_ne (by have := hcp.lt; omega) _ _
  have hcopied : ∀ o, Copied { d with
      heap := Function.update d.heap new ((d.heap new).store i ptr)
      owner := o } new (i + 1) := by
    refine fun o => ⟨hcp.lt, hcp.allocated, ?_, fun j h1 h2 => ?_⟩
    · simp only [State.cap, hheap _ le_rfl, Function.update_self, Buffer.store_capacity]
      exact hcp.capacity
    · simp only [State.slot, hheap _ le_rfl, Function.update_self]
      simp only at h1
      by_cases hj : j = i
      · rw [hj, Buffer.load_store_self, hptr]
        rfl
      · have hji : j < i := by omega
        have hnear : i - j < (d.heap new).capacity := by
          rw [hcp.capacity]
          omega
        rw [Buffer.load_store_of_near hji hnear]
        exact hcp.load j h1 hji
  have hpc' : ∀ o, growNext item b old new (i + 1) = o → (o = .growPublish item b new ∧ i + 1 = b) ∨
      (o = .growLoad item b old new (i + 1) ∧ i + 1 < b) := by
    rintro o rfl
    unfold growNext
    split_ifs with he
    · exact Or.inl ⟨rfl, he⟩
    · exact Or.inr ⟨rfl, by omega⟩
  generalize growNext item b old new (i + 1) = o at hpc' ⊢
  have hlb' : State.lb { d with
      heap := Function.update d.heap new ((d.heap new).store i ptr), owner := o } = d.lb := by
    rcases hpc' o rfl with ⟨rfl, -⟩ | ⟨rfl, -⟩ <;> simp only [State.lb, hpc]
  refine hi.frame rfl hlb' ?_ (fun i _ _ => ?_) hi.buffer_lt rfl rfl ?_ (fun _ => rfl) ?_
    fun i => ?_
  · simp only [State.cap, hheap _ le_rfl, le_refl]
  · simp only [State.slot, hheap _ le_rfl]
  · rcases hpc' o rfl with ⟨rfl, -⟩ | ⟨rfl, -⟩ <;> simp only [State.heldOwner, hpc]
  · rcases hpc' o rfl with ⟨rfl, he⟩ | ⟨rfl, hlt⟩
    · exact ⟨hb, he ▸ hcopied _⟩
    · exact ⟨hb, hold, hlt, hcopied _⟩
  · refine (hi.thief i).transfer le_rfl le_rfl fun _ h => ⟨by rw [hlb']; exact h, ?_,
    fun c hc => ?_⟩
    · simp only [State.slot, hheap _ le_rfl]
    · simp only [hheap _ hc]

/-- The filled buffer is published. -/
theorem Inv.growPublish (hi : Inv d) (hpc : d.owner = .growPublish item b new) :
    Inv { d with buffer := new, owner := .growRetire item b new } := by
  have ho := hi.owner
  simp only [OwnerOk, hpc] at ho
  obtain ⟨hb, hcp⟩ := ho
  have hlb : d.lb = b := by simp only [State.lb, hpc, hb]
  have hpos := cap_pos d
  have hcapl := hi.le_cap
  have hslot : ∀ i, d.top ≤ i → i < d.lb →
      State.slot { d with buffer := new, owner := .growRetire item b new } i = d.slot i :=
    fun i h1 h2 => hcp.load i h1 (hlb ▸ h2)
  have hcap : State.cap { d with buffer := new, owner := .growRetire item b new } = 2 * d.cap :=
    hcp.capacity
  refine hi.frame rfl (by simp only [State.lb, hpc]) (by omega) hslot hcp.allocated rfl rfl
    (by simp only [State.heldOwner, hpc]) (fun _ => rfl) ⟨hb, rfl, ?_⟩ fun i => ?_
  · show b < d.top + _
    rw [hcap]
    omega
  · exact (hi.thief i).transfer le_rfl hcp.lt.le fun _ h =>
      ⟨by simpa only [State.lb, hpc] using h, hslot _ le_rfl h, fun _ _ => rfl⟩

variable [DecidableEq ι]

/-- A new box is stored past the last index of the deque. -/
theorem Inv.pushSlot (hi : Inv d) (hpc : d.owner = .pushSlot item b buf) :
    Inv { d with
      boxes := d.boxes ++ [item]
      heap := Function.update d.heap buf ((d.heap buf).store b (some d.boxes.length))
      owner := .pushPublish item b } := by
  have ho := hi.owner
  simp only [OwnerOk, hpc] at ho
  obtain ⟨hb, hbuf, hroom⟩ := ho
  subst hbuf
  have hlb : d.lb = b := by simp only [State.lb, hpc, hb]
  set d' : State ι T := { d with
    boxes := d.boxes ++ [item]
    heap := Function.update d.heap d.buffer ((d.heap d.buffer).store b (some d.boxes.length))
    owner := .pushPublish item b } with hd'
  have hbufs : d'.heap d.buffer = (d.heap d.buffer).store b (some d.boxes.length) :=
    Function.update_self _ _ _
  have hcap : d'.cap = d.cap := by
    show ((d'.heap d.buffer).capacity : ℤ) = _
    rw [hbufs]
    rfl
  have hlb' : d'.lb = d.lb := hb.trans hlb.symm
  have hnew : d'.slot b = some d.boxes.length := by
    show (d'.heap d.buffer).load b = _
    rw [hbufs, Buffer.load_store_self]
  have near : ∀ j, d.top ≤ j → j < b → (d'.heap d.buffer).load j = d.slot j := fun j h1 h2 => by
    rw [hbufs, Buffer.load_store_of_near h2]
    · rfl
    · show b - j < d.cap
      omega
  have hlen : d'.boxes.length = d.boxes.length + 1 := by simp [hd']
  refine
    { top_nonneg := hi.top_nonneg
      top_le := by rw [hlb']; exact hi.top_le
      le_cap := by rw [hlb', hcap]; exact hi.le_cap
      le_count := by rw [hlb', hlen]; have := hi.le_count; omega
      buffer_lt := hi.buffer_lt
      owner := ⟨hb, by rw [hcap]; exact hroom, ?_, d.boxes.length, hnew, hlen.symm, ?_⟩
      thief := fun i => ?_
      present := fun i h1 h2 => ?_
      sorted := fun i j p q h1 h2 h3 hp hq => ?_
      ledger := ?_ }
  · rw [hlen]
    have := hi.le_count
    omega
  · show (d.boxes ++ [item])[d.boxes.length]? = some item
    simp
  · refine (hi.thief i).transfer le_rfl le_rfl fun _ h => ⟨by rw [hlb']; exact h,
      near _ le_rfl (hlb ▸ h), fun c _ => ?_⟩
    by_cases hc : c = d.buffer
    · rw [hc]
      exact near _ le_rfl (hlb ▸ h)
    · simp only [hd', Function.update_of_ne hc]
  · rw [hlb', hlb] at h2
    rw [show d'.slot i = d.slot i from near i h1 h2]
    exact hi.present i h1 (hlb ▸ h2)
  · rw [hlb', hlb] at h3
    rw [show d'.slot i = d.slot i from near i h1 (h2.trans h3)] at hp
    rw [show d'.slot j = d.slot j from near j (h1.trans h2.le) h3] at hq
    exact hi.sorted i j p q h1 h2 (hlb ▸ h3) hp hq
  · have hnone : held d .owner = none := by simp only [held, State.heldOwner, hpc]
    have hheld : held d' = Function.update (held d) .owner (some d.boxes.length) := by
      refine held_ext (fun i => ?_) ?_ fun i => ?_
      rotate_left
      · rw [Function.update_self]
        exact hnew
      rotate_left
      · rw [Function.update_of_ne (by simp)]
        show d'.heldIndex i = d.heldIndex i
        unfold State.heldIndex
        rw [hlb']
        split_ifs with h
        · exact near i h.1 (hlb ▸ h.2)
        · rfl
      · rw [Function.update_of_ne (by simp)]
        rfl
    rw [hheld, hlen]
    exact hi.ledger.alloc hnone

/-- The pushed index becomes part of the deque. -/
theorem Inv.pushPublish (hi : Inv d) (hpc : d.owner = .pushPublish item b) :
    Inv { d with bottom := b + 1, owner := .pushReturn } := by
  have ho := hi.owner
  simp only [OwnerOk, hpc] at ho
  obtain ⟨hb, hroom, hcount, p, hp, hplen, -⟩ := ho
  have hlb : d.lb = b := by simp only [State.lb, hpc, hb]
  have htop := hi.top_le
  have hnn := hi.top_nonneg
  have hpo : held d .owner = some p := by simp only [held, State.heldOwner, hpc, hp]
  have hnone : held d (.index b) = none := heldIndex_of_not (by omega)
  refine
    { top_nonneg := hi.top_nonneg
      top_le := by show d.top ≤ b + 1; omega
      le_cap := by show b + 1 ≤ d.top + d.cap; omega
      le_count := by show b + 1 ≤ (d.boxes.length : ℤ); omega
      buffer_lt := hi.buffer_lt
      owner := trivial
      thief := fun i => (hi.thief i).transfer le_rfl le_rfl fun _ h =>
        ⟨by show d.top < b + 1; omega, rfl, fun _ _ => rfl⟩
      present := fun i (h1 : d.top ≤ i) (h2 : i < b + 1) => ?_
      sorted := fun i j q r (h1 : d.top ≤ i) h2 (h3 : j < b + 1) hq hr => ?_
      ledger := ?_ }
  · by_cases hib : i = b
    · subst hib
      exact Option.isSome_iff_exists.mpr ⟨p, hp⟩
    · exact hi.present i h1 (by omega)
  · by_cases hjb : j = b
    · subst hjb
      obtain rfl : p = r := Option.some.inj (hp.symm.trans hr)
      have hqi : held d (.index i) = some q := by
        rw [← hq]
        exact heldIndex_of_mem h1 (by omega)
      have hlt := (hi.ledger.alive hqi).1
      have hne : q ≠ p := fun e => by
        have := hi.ledger.unique hqi (e ▸ hpo)
        exact absurd this (by simp)
      omega
    · exact hi.sorted i j q r h1 h2 (by omega) hq hr
  · have hheld : held { d with bottom := b + 1, owner := OwnerPc.pushReturn } =
        Function.update (Function.update (held d) .owner none) (.index b) (held d .owner) := by
      refine held_ext (fun i => ?_) ?_ fun i => ?_
      · by_cases hib : i = b
        · subst hib
          rw [Function.update_self, hpo]
          exact (heldIndex_of_mem (d := { d with bottom := i + 1, owner := .pushReturn })
            (by show d.top ≤ i; omega) (by show i < i + 1; omega)).trans hp
        · rw [Function.update_of_ne (by simpa using hib), Function.update_of_ne (by simp)]
          show (if d.top ≤ i ∧ i < b + 1 then d.slot i else none) = d.heldIndex i
          unfold State.heldIndex
          rw [hlb]
          exact if_congr (by omega) rfl rfl
      · rw [Function.update_of_ne (by simp), Function.update_self]
        rfl
      · rw [Function.update_of_ne (by simp), Function.update_of_ne (by simp)]
        rfl
    rw [hheld]
    exact hi.ledger.move (by simp) hnone

/-- `pop` reads `top_` below its index: the last box of the deque is the owner's. -/
theorem Inv.popTopWin (hi : Inv d) (hpc : d.owner = .popTop b buf) (hlt : d.top < b) :
    Inv { d with owner := .popSlot b buf d.top } := by
  have ho := hi.owner
  simp only [OwnerOk, hpc] at ho
  obtain ⟨hb, hbuf⟩ := ho
  have hlb : d.lb = b + 1 := by simp only [State.lb, hpc]
  have hcapl := hi.le_cap
  have hcount := hi.le_count
  have hsome : (d.slot b).isSome := hi.present b (by omega) (by omega)
  have hlb' : State.lb { d with owner := .popSlot b buf d.top } = b := if_neg (by omega)
  have hho : State.heldOwner { d with owner := .popSlot b buf d.top } = d.slot b :=
    if_neg (by omega)
  have hnone : held d .owner = none := by simp only [held, State.heldOwner, hpc]
  refine
    { top_nonneg := hi.top_nonneg
      top_le := by rw [hlb']; show d.top ≤ b; omega
      le_cap := by rw [hlb']; show b ≤ d.top + d.cap; omega
      le_count := by rw [hlb']; show b ≤ (d.boxes.length : ℤ); omega
      buffer_lt := hi.buffer_lt
      owner := ⟨hb, hbuf, le_rfl, hlt.le, fun _ => hsome⟩
      thief := fun i => (hi.thief i).transfer le_rfl le_rfl fun _ _ =>
        ⟨by rw [hlb']; exact hlt, rfl, fun _ _ => rfl⟩
      present := fun i h1 h2 => hi.present i h1 (by rw [hlb'] at h2; omega)
      sorted := fun i j p q h1 h2 h3 => hi.sorted i j p q h1 h2 (by rw [hlb'] at h3; omega)
      ledger := ?_ }
  have hheld : held { d with owner := .popSlot b buf d.top } =
      Function.update (Function.update (held d) (.index b) none) .owner (held d (.index b)) := by
    refine held_ext (fun i => ?_) ?_ fun i => ?_
    · rw [Function.update_of_ne (by simp)]
      by_cases hib : i = b
      · subst hib
        rw [Function.update_self]
        exact heldIndex_of_not (by rw [hlb']; omega)
      · rw [Function.update_of_ne (by simpa using hib)]
        show (if d.top ≤ i ∧ i < State.lb _ then d.slot i else none) = d.heldIndex i
        unfold State.heldIndex
        rw [hlb', hlb]
        exact if_congr (by omega) rfl rfl
    · rw [Function.update_self, hho]
      exact (heldIndex_of_mem (by omega) (by omega)).symm
    · rw [Function.update_of_ne (by simp), Function.update_of_ne (by simp)]
      rfl
  rw [hheld]
  exact hi.ledger.move (by simp) hnone

/-- The item at `top_` goes to `h`: what a won compare-and-swap does. -/
theorem Inv.takeTop (hi : Inv d) {h : Holder ι} (hlt : d.top < d.lb) (hh : ∀ i, h ≠ .index i)
    (hnone : held d h = none) (htop : d'.top = d.top + 1) (hlb : d'.lb = d.lb)
    (hheap : d'.heap = d.heap) (hbuf : d'.buffer = d.buffer) (hall : d'.allocated = d.allocated)
    (hboxes : d'.boxes = d.boxes) (hdel : d'.deleted = d.deleted)
    (hheld : ∀ k, (∀ i, k ≠ .index i) → held d' k = if k = h then d.slot d.top else held d k)
    (ho : OwnerOk d') (ht : ∀ i, ThiefOk d' (d'.thief i)) : Inv d' := by
  have hslot : d'.slot = d.slot := by
    funext i
    simp only [State.slot, hheap, hbuf]
  have hcap : d'.cap = d.cap := by simp only [State.cap, hheap, hbuf]
  refine
    { top_nonneg := by have := hi.top_nonneg; omega
      top_le := by omega
      le_cap := by have := hi.le_cap; omega
      le_count := by rw [hlb, hboxes]; exact hi.le_count
      buffer_lt := by rw [hbuf, hall]; exact hi.buffer_lt
      owner := ho
      thief := ht
      present := fun i h1 h2 => by rw [hslot]; exact hi.present i (by omega) (by omega)
      sorted := fun i j p q h1 h2 h3 => by
        rw [hslot]
        exact hi.sorted i j p q (by omega) h2 (by omega)
      ledger := ?_ }
  have heq : held d' = Function.update (Function.update (held d) (.index d.top) none) h
      (held d (.index d.top)) := by
    funext k
    have hat : held d (.index d.top) = d.slot d.top := heldIndex_of_mem le_rfl hlt
    by_cases hk : k = h
    · rw [hk, Function.update_self, hheld h hh, if_pos rfl, hat]
    · rw [Function.update_of_ne hk]
      cases k with
      | index i =>
        by_cases hit : i = d.top
        · rw [hit, Function.update_self]
          exact heldIndex_of_not (by omega)
        · rw [Function.update_of_ne (by simpa using hit)]
          show (if d'.top ≤ i ∧ i < d'.lb then d'.slot i else none) = d.heldIndex i
          unfold State.heldIndex
          rw [hslot, hlb]
          exact if_congr (by omega) rfl rfl
      | owner => rw [Function.update_of_ne (by simp), hheld .owner (by simp), if_neg hk]
      | thief i => rw [Function.update_of_ne (by simp), hheld (.thief i) (by simp), if_neg hk]
  rw [heq, hboxes, hdel]
  exact hi.ledger.move (Ne.symm (hh d.top)) hnone

/-- `h` deletes the box it holds. -/
theorem Inv.release (hi : Inv d) {h : Holder ι} {p : ℕ} (hp : held d h = some p)
    (htop : d'.top = d.top) (hlb : d'.lb = d.lb) (hheap : d'.heap = d.heap)
    (hbuf : d'.buffer = d.buffer) (hall : d'.allocated = d.allocated) (hboxes : d'.boxes = d.boxes)
    (hdel : d'.deleted = d.deleted ++ [p]) (hheld : held d' = Function.update (held d) h none)
    (ho : OwnerOk d') (ht : ∀ i, ThiefOk d' (d'.thief i)) : Inv d' := by
  have hslot : d'.slot = d.slot := by
    funext i
    simp only [State.slot, hheap, hbuf]
  have hcap : d'.cap = d.cap := by simp only [State.cap, hheap, hbuf]
  exact
    { top_nonneg := htop ▸ hi.top_nonneg
      top_le := by rw [htop, hlb]; exact hi.top_le
      le_cap := by rw [htop, hlb, hcap]; exact hi.le_cap
      le_count := by rw [hlb, hboxes]; exact hi.le_count
      buffer_lt := by rw [hbuf, hall]; exact hi.buffer_lt
      owner := ho
      thief := ht
      present := by rw [hslot, htop, hlb]; exact hi.present
      sorted := by rw [hslot, htop, hlb]; exact hi.sorted
      ledger := by rw [hheld, hboxes, hdel]; exact hi.ledger.free hp }

/-- **Every atomic operation of the owner keeps the invariant.** -/
theorem stepOwner_inv (hi : Inv d) (h : stepOwner d = some d') : Inv d' := by
  have ho := hi.owner
  unfold stepOwner at h
  unfold OwnerOk at ho
  cases hpc : d.owner with
  | idle | pushReturn | popTake _ | popNone => simp [hpc] at h
  | pushBottom item =>
    simp only [hpc, Option.some.injEq] at h
    subst h
    exact hi.setOwner (by simp only [State.lb, hpc]) (by simp only [State.heldOwner, hpc]) rfl
  | pushTop item b =>
    simp only [hpc, Option.some.injEq] at h ho
    subst h
    have hlb : d.lb = b := by simp only [State.lb, hpc, ho]
    have := hi.top_le
    have := hi.le_cap
    exact hi.setOwner (by simp only [State.lb, hpc]) (by simp only [State.heldOwner, hpc])
      ⟨ho, le_rfl, by omega, by show b ≤ d.top + d.cap; omega⟩
  | pushBuffer item b t =>
    simp only [hpc] at h ho
    split at h
    · rename_i hfull
      obtain ⟨nb, hnb, rfl⟩ := Option.map_eq_some_iff.mp h
      exact hi.growStart hpc (Buffer.make_eq_some hnb).1 hfull
    · rename_i hroom
      obtain rfl := Option.some.inj h
      obtain ⟨hb, htt, -, -⟩ := ho
      refine hi.setOwner (by simp only [State.lb, hpc]) (by simp only [State.heldOwner, hpc])
        ⟨hb, rfl, ?_⟩
      show b < d.top + ((d.heap d.buffer).capacity : ℤ)
      omega
  | growLoad item b old new i =>
    simp only [hpc, Option.some.injEq] at h ho
    subst h
    obtain ⟨hb, hold, hib, hcp⟩ := ho
    exact hi.setOwner (by simp only [State.lb, hpc]) (by simp only [State.heldOwner, hpc])
      ⟨hb, hold, hib, ⟨hcp.lt, hcp.allocated, hcp.capacity, hcp.load⟩, by rw [hold]; rfl⟩
  | growStore item b old new i ptr =>
    simp only [hpc, Option.some.injEq] at h
    subst h
    exact hi.growStore hpc
  | growPublish item b new =>
    simp only [hpc, Option.some.injEq] at h
    subst h
    exact hi.growPublish hpc
  | growRetire item b new =>
    simp only [hpc, Option.some.injEq] at h ho
    subst h
    exact hi.frame rfl (by simp only [State.lb, hpc]) le_rfl (fun _ _ _ => rfl) hi.buffer_lt rfl rfl
      (by simp only [State.heldOwner, hpc]) (fun _ => rfl) ho
      (hi.thief_same rfl (by simp only [State.lb, hpc]) rfl rfl)
  | pushSlot item b buf =>
    simp only [hpc, Option.some.injEq] at h
    subst h
    exact hi.pushSlot hpc
  | pushPublish item b =>
    simp only [hpc, Option.some.injEq] at h
    subst h
    exact hi.pushPublish hpc
  | popBottom =>
    simp only [hpc, Option.some.injEq] at h
    subst h
    exact hi.setOwner (by simp only [State.lb, hpc]) (by simp only [State.heldOwner, hpc])
      (by show d.bottom = d.bottom - 1 + 1; omega)
  | popBuffer b =>
    simp only [hpc, Option.some.injEq] at h ho
    subst h
    exact hi.setOwner (by simp only [State.lb, hpc]) (by simp only [State.heldOwner, hpc]) ⟨ho, rfl⟩
  | popLower b buf =>
    simp only [hpc, Option.some.injEq] at h ho
    subst h
    have hlb : State.lb { d with bottom := b, owner := .popTop b buf } = d.lb := by
      simp only [State.lb, hpc, ho.1]
    exact hi.frame rfl hlb le_rfl (fun _ _ _ => rfl) hi.buffer_lt rfl rfl
      (by simp only [State.heldOwner, hpc]) (fun _ => rfl) ⟨rfl, ho.2⟩
      (hi.thief_same rfl hlb rfl rfl)
  | popTop b buf =>
    simp only [hpc] at h ho
    have htl := hi.top_le
    have hlb : d.lb = b + 1 := by simp only [State.lb, hpc]
    split at h
    · obtain rfl := Option.some.inj h
      exact hi.setOwner (by simp only [State.lb, hpc]) (by simp only [State.heldOwner, hpc])
        ⟨ho.1, by show d.top = b + 1; omega⟩
    · obtain rfl := Option.some.inj h
      by_cases hlt : d.top < b
      · exact hi.popTopWin hpc hlt
      · have he : d.top = b := by omega
        exact hi.setOwner (by simp only [State.lb, hpc, he, if_true])
          (by simp only [State.heldOwner, hpc, he, if_true])
          ⟨ho.1, ho.2, le_rfl, he.le, fun h => absurd h hlt⟩
  | popRestore b =>
    simp only [hpc, Option.some.injEq] at h
    subst h
    have hlb : State.lb { d with bottom := b + 1, owner := .popNone } = d.lb := by
      simp only [State.lb, hpc]
    exact hi.frame rfl hlb le_rfl (fun _ _ _ => rfl) hi.buffer_lt rfl rfl
      (by simp only [State.heldOwner, hpc]) (fun _ => rfl) trivial
      (hi.thief_same rfl hlb rfl rfl)
  | popSlot b buf t =>
    simp only [hpc] at h ho
    obtain ⟨hb, hbuf, htt, htb, hsome⟩ := ho
    split at h
    · rename_i he
      obtain rfl := Option.some.inj h
      subst he hbuf
      exact hi.setOwner (by simp only [State.lb, hpc, if_true])
        (by simp only [State.heldOwner, hpc, if_true]) ⟨hb, rfl, htt, fun _ => rfl⟩
    · rename_i hne
      obtain rfl := Option.some.inj h
      subst hbuf
      exact hi.setOwner (by simp only [State.lb, hpc, if_neg hne, hb])
        (by simp only [State.heldOwner, hpc, if_neg hne, State.slot]) (hsome (by omega))
  | popRaise t b ptr =>
    simp only [hpc, Option.some.injEq] at h ho
    subst h
    obtain ⟨hb, rfl, htt, hptr⟩ := ho
    have hlb : State.lb { d with bottom := t + 1, owner := .popCas t ptr } = d.lb := by
      simp only [State.lb, hpc]
    exact hi.frame rfl hlb le_rfl (fun _ _ _ => rfl) hi.buffer_lt rfl rfl
      (by simp only [State.heldOwner, hpc]) (fun _ => rfl) ⟨rfl, htt, hptr⟩
      (hi.thief_same rfl hlb rfl rfl)
  | popCas t ptr =>
    simp only [hpc] at h ho
    obtain ⟨hb, htt, hptr⟩ := ho
    have hlb : d.lb = t + 1 := by simp only [State.lb, hpc, hb]
    split at h
    · rename_i he
      obtain rfl := Option.some.inj h
      refine hi.takeTop (h := .owner) (by omega) (by simp)
        (by simp only [held, State.heldOwner, hpc]) (by simp only [he])
        (by simp only [State.lb, hpc]) rfl rfl rfl rfl rfl (fun k hk => ?_) ?_ fun i => ?_
      · cases k with
        | index i => exact absurd rfl (hk i)
        | owner =>
          rw [if_pos rfl, he]
          exact hptr he
        | thief i => rw [if_neg (by simp)]; rfl
      · show ptr.isSome
        rw [hptr he]
        exact hi.present t (by omega) (by omega)
      · exact (hi.thief i).transfer (by simp only; omega) le_rfl fun e => by
          simp only at e
          omega
    · obtain rfl := Option.some.inj h
      exact hi.setOwner (by simp only [State.lb, hpc]) (by simp only [State.heldOwner, hpc]) trivial

end Owner

/-! ## The thieves' steps -/

/-- The owner knows what it knew after thieves have taken items at the front of the deque. -/
theorem OwnerOk.taken (ho : OwnerOk d) {t' : ℤ} (hge : d.top ≤ t') (hle : t' ≤ d.lb)
    {f : ι → ThiefPc} {del : List ℕ} :
    OwnerOk { d with top := t', thief := f, deleted := del } := by
  have copied : ∀ {new i o}, Copied d new i →
      Copied { d with top := t', owner := o, thief := f, deleted := del } new i := fun hcp =>
    ⟨hcp.lt, hcp.allocated, hcp.capacity, fun j h1 => hcp.load j (by simp only at h1; omega)⟩
  have room : ∀ {b : ℤ}, b < d.top + d.cap → b < t' + d.cap := fun h => by omega
  unfold OwnerOk at ho ⊢
  cases hpc : d.owner with
  | idle | pushBottom _ | pushReturn | popBottom | popNone => trivial
  | pushTop _ _ | popBuffer _ | popLower _ _ | popTop _ _ | popTake _ =>
    simp only [hpc] at ho ⊢
    exact ho
  | pushBuffer item b t =>
    simp only [hpc] at ho ⊢
    exact ⟨ho.1, by omega, ho.2.2⟩
  | growLoad item b old new i =>
    simp only [hpc] at ho ⊢
    exact ⟨ho.1, ho.2.1, ho.2.2.1, copied ho.2.2.2⟩
  | growStore item b old new i ptr =>
    simp only [hpc] at ho ⊢
    exact ⟨ho.1, ho.2.1, ho.2.2.1, copied ho.2.2.2.1, ho.2.2.2.2⟩
  | growPublish item b new =>
    simp only [hpc] at ho ⊢
    exact ⟨ho.1, copied ho.2⟩
  | growRetire _ b buf | pushSlot _ b buf =>
    simp only [hpc] at ho ⊢
    exact ⟨ho.1, ho.2.1, room ho.2.2⟩
  | pushPublish item b =>
    simp only [hpc] at ho ⊢
    exact ⟨ho.1, room ho.2.1, ho.2.2⟩
  | popRestore b =>
    simp only [hpc] at ho ⊢
    simp only [State.lb, hpc] at hle
    exact ⟨ho.1, by omega⟩
  | popSlot b buf t =>
    simp only [hpc] at ho ⊢
    exact ⟨ho.1, ho.2.1, by omega, ho.2.2.2⟩
  | popRaise t b ptr =>
    simp only [hpc] at ho ⊢
    exact ⟨ho.1, ho.2.1, by omega, fun e => ho.2.2.2 (by omega)⟩
  | popCas t ptr =>
    simp only [hpc] at ho ⊢
    exact ⟨ho.1, by omega, fun e => ho.2.2 (by omega)⟩

section Thief

variable [DecidableEq ι]

/-- A step of thief `i` that changes its program counter alone. -/
theorem Inv.setThief (hi : Inv d) {i : ι} {pc : ThiefPc} (hh : pc.held = (d.thief i).held)
    (hok : ThiefOk d pc) : Inv (d.setThief i pc) := by
  refine hi.frame rfl rfl le_rfl (fun _ _ _ => rfl) hi.buffer_lt rfl rfl rfl (fun j => ?_)
    (hi.owner.taken le_rfl hi.top_le) fun j => ?_
  · by_cases hj : j = i
    · rw [hj, setThief_self, hh]
    · rw [setThief_of_ne _ _ hj]
  · by_cases hj : j = i
    · rw [hj, setThief_self]
      exact hok.transfer le_rfl le_rfl fun _ h => ⟨h, rfl, fun _ _ => rfl⟩
    · rw [setThief_of_ne _ _ hj]
      exact (hi.thief j).transfer le_rfl le_rfl fun _ h => ⟨h, rfl, fun _ _ => rfl⟩

/-- **Every atomic operation of a thief keeps the invariant.** -/
theorem stepThief_inv (hi : Inv d) {i : ι} (h : stepThief d i = some d') : Inv d' := by
  have ht := hi.thief i
  unfold stepThief at h
  cases hpc : d.thief i with
  | idle | stealTake _ | stealEmpty | stealLost => simp [hpc] at h
  | stealTop =>
    simp only [hpc, Option.some.injEq] at h
    subst h
    exact hi.setThief (by rw [hpc]; rfl) le_rfl
  | stealBottom t =>
    simp only [hpc] at h ht
    split at h
    · obtain rfl := Option.some.inj h
      exact hi.setThief (by rw [hpc]; rfl) trivial
    · obtain rfl := Option.some.inj h
      have hle := hi.bottom_near
      exact hi.setThief (by rw [hpc]; rfl) ⟨ht, fun _ => by omega⟩
  | stealBuffer t =>
    simp only [hpc, Option.some.injEq] at h ht
    subst h
    exact hi.setThief (by rw [hpc]; rfl) ⟨ht.1, le_rfl, fun e => ⟨ht.2 e, rfl⟩⟩
  | stealSlot t buf =>
    simp only [hpc, Option.some.injEq] at h ht
    subst h
    exact hi.setThief (by rw [hpc]; rfl) ⟨ht.1, ht.2.2⟩
  | stealCas t ptr =>
    simp only [hpc] at h ht
    split at h
    · rename_i he
      obtain rfl := Option.some.inj h
      subst he
      obtain ⟨hlt, hptr⟩ := ht.2 rfl
      refine hi.takeTop (h := .thief i) hlt (by simp) (by simp only [held, hpc, ThiefPc.held]) rfl
        rfl rfl rfl rfl rfl rfl (fun k hk => ?_) (hi.owner.taken (by omega) hlt) fun j => ?_
      · cases k with
        | index i => exact absurd rfl (hk i)
        | owner => rw [if_neg (by simp)]; rfl
        | thief j =>
          by_cases hj : j = i
          · rw [hj, if_pos rfl]
            show ThiefPc.held (Function.update d.thief i (.stealTake ptr) i) = _
            rw [Function.update_self]
            exact hptr
          · rw [if_neg (by simpa using hj)]
            show ThiefPc.held (Function.update d.thief i (.stealTake ptr) j) = _
            rw [Function.update_of_ne hj]
            rfl
      · show ThiefOk _ (Function.update d.thief i (.stealTake ptr) j)
        by_cases hj : j = i
        · rw [hj, Function.update_self]
          show ptr.isSome
          rw [hptr]
          exact hi.present _ le_rfl hlt
        · rw [Function.update_of_ne hj]
          exact (hi.thief j).transfer (by simp only; omega) le_rfl fun e => by
            simp only at e
            omega
    · obtain rfl := Option.some.inj h
      exact hi.setThief (by rw [hpc]; rfl) trivial

end Thief

/-! ## Calls, returns and runs -/

/-- A deque just constructed. -/
theorem construct_inv {cap : ℕ} (h : construct cap = some d) : Inv d := by
  unfold construct at h
  split at h
  · exact absurd h (by simp)
  · obtain ⟨buf, -, rfl⟩ := Option.map_eq_some_iff.mp h
    have hpos := buf.capacity_pos
    refine
      { top_nonneg := le_rfl, top_le := le_rfl, le_cap := ?_, le_count := le_rfl
        buffer_lt := Nat.zero_lt_one, owner := trivial, thief := fun _ => trivial
        present := fun i h1 h2 => ?_, sorted := fun i j p q h1 h2 h3 => ?_, ledger := ?_ }
    · show (0 : ℤ) ≤ 0 + (buf.capacity : ℤ)
      omega
    · simp only [State.lb] at h1 h2
      omega
    · simp only [State.lb] at h1 h3
      omega
    · set d₀ : State ι T :=
        { top := 0, bottom := 0, buffer := 0, heap := fun _ => buf, allocated := 1, retired := [0],
          boxes := [], deleted := [], owner := .idle, thief := fun _ => .idle }
      have hheld : held d₀ = fun _ => none :=
        held_ext (fun i => heldIndex_of_not fun hm => absurd (hm.1.trans_lt hm.2) (lt_irrefl _)) rfl
          fun _ => rfl
      rw [hheld]
      exact Ledger.init

variable [DecidableEq ι] [DecidableEq T] {l : Label ι T}

/-- **Every step keeps the invariant.** -/
theorem step_inv (hi : Inv d) (h : step d l = some d') : Inv d' := by
  cases l with
  | owner => exact stepOwner_inv hi h
  | thief i => exact stepThief_inv hi h
  | push item =>
    simp only [step] at h
    split at h
    · rename_i hpc
      obtain rfl := Option.some.inj h
      exact hi.setOwner (by simp only [State.lb, hpc]) (by simp only [State.heldOwner, hpc]) trivial
    · exact absurd h (by simp)
  | pushed =>
    simp only [step] at h
    split at h
    · rename_i hpc
      obtain rfl := Option.some.inj h
      exact hi.setOwner (by simp only [State.lb, hpc]) (by simp only [State.heldOwner, hpc]) trivial
    · exact absurd h (by simp)
  | pop =>
    simp only [step] at h
    split at h
    · rename_i hpc
      obtain rfl := Option.some.inj h
      exact hi.setOwner (by simp only [State.lb, hpc]) (by simp only [State.heldOwner, hpc]) trivial
    · exact absurd h (by simp)
  | popped r =>
    simp only [step] at h
    split at h
    · rename_i hpc
      split at h
      · obtain rfl := Option.some.inj h
        exact hi.setOwner (by simp only [State.lb, hpc]) (by simp only [State.heldOwner, hpc])
          trivial
      · exact absurd h (by simp)
    · rename_i p hpc
      split at h
      · obtain rfl := Option.some.inj h
        refine hi.release (h := .owner) (by simp only [held, State.heldOwner, hpc]) rfl
          (by simp only [State.lb, hpc]) rfl rfl rfl rfl rfl ?_ trivial
          (hi.thief_same rfl (by simp only [State.lb, hpc]) rfl rfl)
        refine held_ext (fun i => ?_) ?_ fun i => ?_
        · rw [Function.update_of_ne (by simp)]
          simp only [held, State.heldIndex, State.lb, hpc]
          rfl
        · rw [Function.update_self]
          rfl
        · rw [Function.update_of_ne (by simp)]
          rfl
      · exact absurd h (by simp)
    · exact absurd h (by simp)
  | steal i =>
    simp only [step] at h
    split at h
    · rename_i hpc
      obtain rfl := Option.some.inj h
      exact hi.setThief (by rw [hpc]; rfl) trivial
    · exact absurd h (by simp)
  | stolen i r =>
    have ht := hi.thief i
    simp only [step] at h
    split at h
    · rename_i hpc
      split at h
      · obtain rfl := Option.some.inj h
        exact hi.setThief (by rw [hpc]; rfl) trivial
      · exact absurd h (by simp)
    · rename_i hpc
      split at h
      · obtain rfl := Option.some.inj h
        exact hi.setThief (by rw [hpc]; rfl) trivial
      · exact absurd h (by simp)
    · rename_i hpc
      rw [hpc] at ht
      exact absurd ht (by simp [ThiefOk])
    · rename_i p hpc
      split at h
      · obtain rfl := Option.some.inj h
        refine hi.release (h := .thief i) (by simp only [held, hpc, ThiefPc.held]) rfl rfl rfl rfl
          rfl rfl rfl ?_ (hi.owner.taken le_rfl hi.top_le) fun j => ?_
        · refine held_ext (fun j => ?_) ?_ fun j => ?_
          · rw [Function.update_of_ne (by simp)]
            rfl
          · rw [Function.update_of_ne (by simp)]
            rfl
          · show ThiefPc.held (Function.update d.thief i .idle j) = _
            by_cases hj : j = i
            · rw [hj, Function.update_self, Function.update_self]
              rfl
            · rw [Function.update_of_ne hj, Function.update_of_ne (by simpa using hj)]
              rfl
        · show ThiefOk _ (Function.update d.thief i .idle j)
          by_cases hj : j = i
          · rw [hj, Function.update_self]
            trivial
          · rw [Function.update_of_ne hj]
            exact hi.thief j
      · exact absurd h (by simp)
    · exact absurd h (by simp)

/-- **The invariant holds of every state of every interleaving.** -/
theorem reachable_inv {cap : ℕ} (h : (machine ι T cap).Reachable d) : Inv d :=
  h.invariant (fun _ => construct_inv) fun _ _ _ _ _ hst hi => step_inv hi hst

end Wss.ChaseLev
