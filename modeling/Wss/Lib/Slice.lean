import Mathlib.Algebra.Order.Ring.Int
import Mathlib.Data.List.Basic

/-!
# The values of an integer-indexed map over an interval

`slice f t b` lists `f t, f (t + 1), …, f (b - 1)`, and is empty when `b ≤ t`. A queue kept in
an indexed store, with a front and a back index, holds a slice.

Results:
* `slice_snoc`, `slice_cons`: pushing at the back, taking at the front.
* `slice_congr`: a store outside the interval leaves it alone.
-/

namespace Wss.Lib

universe u

variable {α : Type u} {f g : ℤ → α} {t b i : ℤ}

/-- `f t, …, f (b - 1)`. -/
def slice (f : ℤ → α) (t b : ℤ) : List α :=
  (List.range (b - t).toNat).map fun k : ℕ => f (t + k)

theorem slice_eq_nil (h : b ≤ t) : slice f t b = [] := by
  have h0 : (b - t).toNat = 0 := by omega
  simp [slice, h0]

theorem length_slice (f : ℤ → α) (t b : ℤ) : (slice f t b).length = (b - t).toNat := by
  simp [slice]

theorem slice_snoc (h : t ≤ b) : slice f t (b + 1) = slice f t b ++ [f b] := by
  have hn : (b + 1 - t).toNat = (b - t).toNat + 1 := by omega
  have hb : t + ((b - t).toNat : ℤ) = b := by omega
  simp only [slice, hn, List.range_succ, List.map_append, List.map_cons, List.map_nil, hb]

theorem slice_cons (h : t < b) : slice f t b = f t :: slice f (t + 1) b := by
  have hn : (b - t).toNat = (b - (t + 1)).toNat + 1 := by omega
  simp only [slice, hn, List.range_succ_eq_map, List.map_cons, List.map_map, Nat.cast_zero,
    add_zero]
  congr 1
  refine List.map_congr_left fun k _ => ?_
  simp only [Function.comp, Nat.succ_eq_add_one, Nat.cast_add, Nat.cast_one]
  congr 1
  omega

theorem slice_congr (h : ∀ i, t ≤ i → i < b → f i = g i) : slice f t b = slice g t b := by
  refine List.map_congr_left fun k hk => h _ (by omega) ?_
  have := List.mem_range.mp hk
  omega

theorem mem_slice {x : α} : x ∈ slice f t b ↔ ∃ i, t ≤ i ∧ i < b ∧ f i = x := by
  simp only [slice, List.mem_map, List.mem_range]
  constructor
  · rintro ⟨k, hk, rfl⟩
    exact ⟨t + k, by omega, by omega, rfl⟩
  · rintro ⟨i, hi, hb, rfl⟩
    exact ⟨(i - t).toNat, by omega, by congr 1; omega⟩

/-- A strictly increasing map lists its values in order. -/
theorem pairwise_slice {R : α → α → Prop}
    (h : ∀ i j, t ≤ i → i < j → j < b → R (f i) (f j)) : (slice f t b).Pairwise R := by
  refine List.pairwise_map.mpr (List.pairwise_lt_range.imp_of_mem fun {x y} hx hy hlt => ?_)
  have := List.mem_range.mp hy
  exact h _ _ (by omega) (by omega) (by omega)

end Wss.Lib
