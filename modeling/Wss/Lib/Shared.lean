import Mathlib.Data.Finset.Card

/-!
# Shared ownership

An object whose owners are counted, and that is freed when the last one lets go of it. `owners` is
where a program has it, `useCount` the count beside the object, `frees` how often it was freed.

`Shared.Sound`: the count is that of the owners, and the object was freed once if it has none and
never if it has one.

Results:
* `sound_make`, `Sound.copy`, `Sound.drop`: whoever owns it can copy it and let go of it.
* `Sound.alive`, `Sound.freed_once`: to an owner it is there, and in the end it is freed once.
-/

namespace Wss.Lib

universe u

/-- A shared object. -/
structure Shared (κ : Type u) where
  owners : Finset κ
  useCount : ℕ
  frees : ℕ

namespace Shared

variable {κ : Type u} {s : Shared κ} {k : κ}

/-- A new object, in the hands of its first owners. -/
def make (owners : Finset κ) : Shared κ := ⟨owners, owners.card, 0⟩

/-- The count is right, and the object is freed in time. -/
structure Sound (s : Shared κ) : Prop where
  count : s.useCount = s.owners.card
  freed : s.frees = if s.useCount = 0 then 1 else 0

theorem sound_make {owners : Finset κ} (h : owners.Nonempty) : (make owners).Sound where
  count := rfl
  freed := (if_neg (Finset.card_pos.mpr h).ne').symm

/-- An object with an owner was not freed. -/
theorem Sound.alive (h : s.Sound) (hk : k ∈ s.owners) : s.frees = 0 := by
  rw [h.freed, h.count]
  exact if_neg (Finset.card_pos.mpr ⟨k, hk⟩).ne'

/-- One without an owner was. -/
theorem Sound.freed_once (h : s.Sound) (hnone : s.owners = ∅) : s.frees = 1 := by
  rw [h.freed, h.count, hnone]
  rfl

variable [DecidableEq κ]

/-- A copy for another owner. -/
def copy (s : Shared κ) (k : κ) : Shared κ :=
  { s with owners := insert k s.owners, useCount := s.useCount + 1 }

/-- An owner lets go. -/
def drop (s : Shared κ) (k : κ) : Shared κ where
  owners := s.owners.erase k
  useCount := s.useCount - 1
  frees := if s.useCount = 1 then s.frees + 1 else s.frees

theorem Sound.copy (h : s.Sound) {j : κ} (hj : j ∈ s.owners) (hk : k ∉ s.owners) :
    (s.copy k).Sound where
  count := by
    show s.useCount + 1 = (insert k s.owners).card
    rw [Finset.card_insert_of_notMem hk, h.count]
  freed := by
    show s.frees = if s.useCount + 1 = 0 then 1 else 0
    rw [if_neg (Nat.succ_ne_zero _)]
    exact h.alive hj

theorem Sound.drop (h : s.Sound) (hk : k ∈ s.owners) : (s.drop k).Sound where
  count := by
    show s.useCount - 1 = (s.owners.erase k).card
    rw [Finset.card_erase_of_mem hk, h.count]
  freed := by
    have halive := h.alive hk
    have hpos : 0 < s.useCount := h.count ▸ Finset.card_pos.mpr ⟨k, hk⟩
    show (if s.useCount = 1 then s.frees + 1 else s.frees) = if s.useCount - 1 = 0 then 1 else 0
    rw [halive]
    by_cases hone : s.useCount = 1
    · rw [if_pos hone, if_pos (by omega)]
    · rw [if_neg hone, if_neg (by omega)]

end Shared

end Wss.Lib
