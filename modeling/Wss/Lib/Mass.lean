import Mathlib.Algebra.BigOperators.Group.Finset.Piecewise
import Mathlib.Algebra.Order.BigOperators.Group.Finset
import Mathlib.Data.List.Nodup
import Wss.Lib.Multimap

/-!
# Weights of things that move

To say that nothing is lost or made twice while things move between many places, give each thing a
weight `μ` and add up the weights of what is in each place. An equation between such sums that
holds for every `μ` is one between multisets, and one for `μ = 1` an equation between numbers of
things.

Results:
* `mass_only`, `nodup_of_mass`: what the weights of single things say.
* `sum_update`: what a step at one place does to a sum over all places.
-/

namespace Wss.Lib

universe u v

variable {α : Type u} {κ : Type v}

/-- The weight of a list. -/
def mass (μ : α → ℕ) : List α → ℕ
  | [] => 0
  | x :: l => μ x + mass μ l

variable {μ : α → ℕ} {l l' : List α} {x : α}

@[simp] theorem mass_nil : mass μ [] = 0 := rfl

@[simp] theorem mass_cons : mass μ (x :: l) = μ x + mass μ l := rfl

@[simp] theorem mass_append : mass μ (l ++ l') = mass μ l + mass μ l' := by
  induction l with
  | nil => simp
  | cons x l ih =>
    rw [List.cons_append, mass_cons, mass_cons, ih]
    omega

theorem mass_one : mass (fun _ => 1) l = l.length := by
  induction l with
  | nil => rfl
  | cons x l ih =>
    rw [mass_cons, ih, List.length_cons]
    omega

theorem mass_le {ν : α → ℕ} (h : ∀ x, μ x ≤ ν x) : mass μ l ≤ mass ν l := by
  induction l with
  | nil => exact le_rfl
  | cons x l ih => exact Nat.add_le_add (h x) ih

theorem mass_perm (h : l.Perm l') : mass μ l = mass μ l' := by
  induction h with
  | nil => rfl
  | cons x _ ih => rw [mass_cons, mass_cons, ih]
  | swap x y l =>
    simp only [mass_cons]
    omega
  | trans _ _ ih₁ ih₂ => exact ih₁.trans ih₂

/-- A list without weight where all things weigh something is empty. -/
theorem eq_nil_of_mass (h : mass (fun _ => 1) l = 0) : l = [] := by
  rw [mass_one] at h
  exact List.length_eq_zero_iff.mp h

section

variable [DecidableEq α]

/-- The weight that counts the occurrences of `x`. -/
def only (x : α) : α → ℕ := fun y => if y = x then 1 else 0

@[simp] theorem only_self : only x x = 1 := if_pos rfl

theorem mass_only : mass (only x) l = l.count x := by
  induction l with
  | nil => rfl
  | cons y l ih =>
    rw [mass_cons, ih, List.count_cons]
    by_cases h : y = x
    · simp only [only, h, if_true, beq_self_eq_true]
      omega
    · simp only [only, h, if_false, beq_iff_eq]
      omega

theorem mass_only_pos (h : x ∈ l) : 0 < mass (only x) l := by
  rw [mass_only]
  exact List.count_pos_iff.mpr h

end

/-- Lists that weigh the same, whatever things weigh, hold the same things. -/
theorem perm_of_mass [DecidableEq α] (h : ∀ μ, mass μ l = mass μ l') : l.Perm l' :=
  List.perm_iff_count.mpr fun x => by
    rw [← mass_only, ← mass_only, h]

theorem mass_only_range (n x : ℕ) : mass (only x) (List.range n) = if x < n then 1 else 0 := by
  rw [mass_only]
  split_ifs with h
  · exact List.count_eq_one_of_mem List.nodup_range (List.mem_range.mpr h)
  · exact List.count_eq_zero_of_not_mem fun hm => h (List.mem_range.mp hm)

/-- Things that weigh no more than those below `n` do are different ones. -/
theorem nodup_of_mass {l : List ℕ} {n : ℕ} (h : ∀ μ, mass μ l ≤ mass μ (List.range n)) :
    l.Nodup := by
  refine List.nodup_iff_count_le_one.mpr fun x => ?_
  have := h (only x)
  rw [mass_only, mass_only_range] at this
  split_ifs at this <;> omega

variable [Fintype κ] [DecidableEq κ] {β : Type u}

/-- A sum of which one term changes. -/
theorem sum_update (f : β → ℕ) (g : κ → β) (k : κ) (b : β) :
    ∑ i, f (Function.update g k b i) + f (g k) = ∑ i, f (g i) + f b := by
  have hrest : ∀ i ∈ Finset.univ.erase k, f (Function.update g k b i) = f (g i) := fun i hi => by
    rw [Function.update_of_ne (Finset.ne_of_mem_erase hi)]
  rw [← Finset.add_sum_erase _ _ (Finset.mem_univ k),
    ← Finset.add_sum_erase _ _ (Finset.mem_univ k), Finset.sum_congr rfl hrest,
    Function.update_self]
  omega

/-- The values of all keys weigh what the pairs weigh. -/
theorem mass_valuesAt (μ : α → ℕ) (m : List (κ × α)) :
    ∑ k, mass μ (valuesAt k m) = mass μ (m.map Prod.snd) := by
  induction m with
  | nil => simp
  | cons x m ih =>
    obtain ⟨j, a⟩ := x
    have hcons : ∀ k, mass μ (valuesAt k ((j, a) :: m)) =
        (if j = k then μ a else 0) + mass μ (valuesAt k m) := fun k => by
      by_cases hk : j = k <;> simp [valuesAt, hk]
    simp only [hcons, Finset.sum_add_distrib, Finset.sum_ite_eq, Finset.mem_univ, if_true, ih,
      List.map_cons, mass_cons]

omit [DecidableEq κ] in
theorem le_sum (f : κ → ℕ) (k : κ) : f k ≤ ∑ i, f i :=
  Finset.single_le_sum (fun _ _ => Nat.zero_le _) (Finset.mem_univ k)

theorem two_le_sum (f : κ → ℕ) {j k : κ} (h : j ≠ k) : f j + f k ≤ ∑ i, f i := by
  have h1 := Finset.add_sum_erase Finset.univ f (Finset.mem_univ k)
  have h2 := Finset.single_le_sum (f := f) (fun _ _ => Nat.zero_le _)
    (Finset.mem_erase.mpr ⟨h, Finset.mem_univ j⟩)
  omega

/-! ## Places that hold one thing at most -/

section Held

variable {r : κ → Option α} {l l' : List α} {j k : κ} {x : α}

omit [DecidableEq κ] in
theorem mem_of_held [DecidableEq α]
    (h : ∀ μ, mass μ l = mass μ l' + ∑ i, mass μ (r i).toList) (hk : r k = some x) : x ∈ l := by
  have h1 := le_sum (fun i => mass (only x) (r i).toList) k
  have h2 := h (only x)
  simp only [hk, Option.toList_some, mass_cons, only_self, mass_nil] at h1
  refine List.count_pos_iff.mp ?_
  rw [← mass_only]
  omega

/-- Where nothing is held that was not there once, nothing is held twice. -/
theorem held_inj [DecidableEq α] (h : ∀ μ, mass μ l = mass μ l' + ∑ i, mass μ (r i).toList)
    (hl : l.Nodup) (hj : r j = some x) (hk : r k = some x) : j = k := by
  by_contra hne
  have h1 := two_le_sum (fun i => mass (only x) (r i).toList) hne
  have h2 := h (only x)
  have h3 := List.nodup_iff_count_le_one.mp hl x
  simp only [hj, hk, Option.toList_some, mass_cons, only_self, mass_nil] at h1
  rw [mass_only] at h2
  omega

end Held

end Wss.Lib
