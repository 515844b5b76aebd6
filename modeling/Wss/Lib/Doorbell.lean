import Mathlib.Logic.Function.Basic
import Mathlib.Data.Nat.Notation

/-!
# A doorbell and those who watch it

An event count: every notification raises a number `gen`. A thread takes the number, looks around,
and later acts on what it saw as long as the number has not changed. `snap i` is the number that
thread `i` has in its hands.

* `Fresh gen snap`: no thread has a number the doorbell has not reached yet.
* `Heeds gen snap P`: `P` is true, if a thread is left whose number is the current one.

Results:
* `Heeds.ring`: a notification makes every number in their hands an old one.
* `Heeds.keep`, `Heeds.update`: a step between two notifications has to keep `P`, or to bring it
  about where a thread takes the current number.
-/

namespace Wss.Lib

universe u v

variable {ι : Type u} {β : Type v} {gen gen' : ℕ} {snap snap' : ι → Option ℕ} {P P' : Prop}

/-- No number is from the future. -/
def Fresh (gen : ℕ) (snap : ι → Option ℕ) : Prop := ∀ i g, snap i = some g → g ≤ gen

/-- While a thread has the current number, `P` holds. -/
def Heeds (gen : ℕ) (snap : ι → Option ℕ) (P : Prop) : Prop := ∀ i, snap i = some gen → P

theorem Fresh.mono (h : Fresh gen snap) (hle : gen ≤ gen')
    (hsnap : ∀ i g, snap' i = some g → snap i = some g ∨ g ≤ gen') : Fresh gen' snap' := by
  intro i g hg
  rcases hsnap i g hg with hold | hnew
  · exact Nat.le_trans (h i g hold) hle
  · exact hnew

/-- After a notification nobody has the current number. -/
theorem Heeds.ring (h : Fresh gen snap)
    (hsnap : ∀ i g, snap' i = some g → snap i = some g) : Heeds (gen + 1) snap' P' := by
  intro i hi
  have hle := h i _ (hsnap i _ hi)
  exact absurd hle (Nat.not_succ_le_self gen)

theorem Heeds.keep (h : Heeds gen snap P) (hP : P → P')
    (hsnap : ∀ i, snap' i = some gen → snap i = some gen ∨ P') : Heeds gen snap' P' := by
  intro i hi
  rcases hsnap i hi with hold | hnew
  · exact hP (h i hold)
  · exact hnew

/-! ## One thread moves -/

variable [DecidableEq ι] {f : β → Option ℕ} {x : ι → β} {i : ι} {b : β}

theorem update_snap {g : ℕ} {j : ι} (hj : f (Function.update x i b j) = some g) :
    j = i ∧ f b = some g ∨ j ≠ i ∧ f (x j) = some g := by
  by_cases h : j = i
  · rw [h, Function.update_self] at hj
    exact .inl ⟨h, hj⟩
  · rw [Function.update_of_ne h] at hj
    exact .inr ⟨h, hj⟩

/-- A thread that has put its number down. -/
theorem snap_of_update {g : ℕ} {j : ι} (hj : f (Function.update x i b j) = some g)
    (hb : f b = none) : f (x j) = some g := by
  rcases update_snap hj with ⟨-, h⟩ | ⟨-, h⟩
  · exact absurd (hb.symm.trans h) (Option.some_ne_none g).symm
  · exact h

theorem Fresh.update (h : Fresh gen fun j => f (x j)) (hle : gen ≤ gen')
    (hb : ∀ g, f b = some g → f (x i) = some g ∨ g ≤ gen') :
    Fresh gen' fun j => f (Function.update x i b j) := by
  refine h.mono hle fun j g hg => ?_
  rcases update_snap hg with ⟨rfl, hb'⟩ | ⟨-, hj⟩
  · exact hb g hb'
  · exact .inl hj

theorem Heeds.update (h : Heeds gen (fun j => f (x j)) P) (hP : P → P')
    (hb : f b = some gen → f (x i) = some gen ∨ P') :
    Heeds gen (fun j => f (Function.update x i b j)) P' := by
  refine h.keep hP fun j hj => ?_
  rcases update_snap hj with ⟨rfl, hb'⟩ | ⟨-, hj⟩
  · exact hb hb'
  · exact .inl hj

end Wss.Lib
