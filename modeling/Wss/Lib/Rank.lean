import Wss.Lib.Machine
import Mathlib.Algebra.BigOperators.Group.Finset.Piecewise
import Mathlib.Algebra.BigOperators.Group.List.Basic
import Mathlib.Algebra.Group.Action.Defs
import Mathlib.Algebra.Order.BigOperators.Group.Finset
import Mathlib.Algebra.Order.Ring.Nat

/-!
# Runs that use something up

A `Priced I ok cost rank` machine has a number `rank` that pays for its steps: in a state where the
invariant `I` holds, a step that `ok` allows lowers `rank` by its `cost` at least.

Results:
* `Priced.path`: what a whole path costs is paid by `rank`.
* `Ranked.length_le`, `Ranked.exists_stopped`: with a cost of `1` for every step, it bounds the
  length of the path, and every path can be led on to a state where no step is left.
* `Priced.countP_le`: with a cost of `1` for the steps of one thread, it bounds how often that
  thread moves, whatever the others do.

The rank of a system of threads is a sum over them. `sum_add_le` is what one thread's step does to
it, `sum_add_le_all` what a step does that costs every thread something, such as a notification: a
thread that has an old number in its hands will look around once more (`staleCost`). `poolRank` is
that of a pool of workers that sleep between jobs and are woken all together.
-/

namespace Wss.Lib.Machine

universe u v

variable {σ : Type u} {Λ : Type v} (M : Machine σ Λ)

/-- `rank` pays for the steps. -/
structure Priced (I : σ → Prop) (ok : σ → Λ → Prop) (cost : Λ → ℕ) (rank : σ → ℕ) : Prop where
  keep : ∀ {s l s'}, I s → ok s l → M.step s l = some s' → I s'
  pay : ∀ {s l s'}, I s → ok s l → M.step s l = some s' → rank s' + cost l ≤ rank s

/-- Every step lowers `rank`. -/
abbrev Ranked (I : σ → Prop) (ok : σ → Λ → Prop) (rank : σ → ℕ) : Prop :=
  M.Priced I ok (fun _ => 1) rank

/-- No step that `ok` allows can be made. -/
def Stopped (ok : σ → Λ → Prop) (s : σ) : Prop := ∀ l, ok s l → M.step s l = none

variable {M} {I : σ → Prop} {ok : σ → Λ → Prop} {cost : Λ → ℕ} {rank : σ → ℕ} {s t : σ}
  {tr : List Λ}

namespace Priced

variable (hM : M.Priced I ok cost rank)
include hM

theorem inv (h : M.Path ok s tr t) (hs : I s) : I t :=
  h.preserves (fun _ _ _ hok hst hI => hM.keep hI hok hst) hs

/-- **What a path costs is paid by the rank.** -/
theorem path (h : M.Path ok s tr t) (hs : I s) : rank t + (tr.map cost).sum ≤ rank s := by
  induction h with
  | nil => exact le_rfl
  | @snoc tr t t' l h hok hst ih =>
    have hpay := hM.pay (hM.inv h hs) hok hst
    rw [List.map_append, List.sum_append, List.map_singleton, List.sum_singleton]
    omega

end Priced

/-- The steps that `p` holds of, where they cost `1`. -/
theorem Priced.countP_le {p : Λ → Bool} (hM : M.Priced I ok (fun l => if p l then 1 else 0) rank)
    (h : M.Path ok s tr t) (hs : I s) : tr.countP p ≤ rank s := by
  have hcount : ∀ ls : List Λ, (ls.map fun l => if p l then 1 else 0).sum = ls.countP p := by
    intro ls
    induction ls with
    | nil => rfl
    | cons l ls ih =>
      rw [List.map_cons, List.sum_cons, ih, List.countP_cons, Nat.add_comm]
  have hpath := hM.path h hs
  rw [hcount] at hpath
  omega

namespace Ranked

variable (hM : M.Ranked I ok rank)
include hM

theorem length_le (h : M.Path ok s tr t) (hs : I s) : tr.length ≤ rank s := by
  have hpath := hM.path h hs
  rw [List.map_const', List.sum_replicate_nat, Nat.mul_one] at hpath
  omega

/-- Going on for as long as possible ends in a state that has stopped. -/
theorem exists_stopped (hs : I s) : ∃ tr t, M.Path ok s tr t ∧ M.Stopped ok t := by
  induction hn : rank s using Nat.strong_induction_on generalizing s with
  | _ n ih =>
    by_cases hstop : M.Stopped ok s
    · exact ⟨[], s, .nil, hstop⟩
    · unfold Stopped at hstop
      push Not at hstop
      obtain ⟨l, hok, hne⟩ := hstop
      obtain ⟨s', hst⟩ := Option.ne_none_iff_exists'.mp hne
      have hlt : rank s' < n := by
        have := hM.pay hs hok hst
        omega
      obtain ⟨tr, t, h, ht⟩ := ih _ hlt (hM.keep hs hok hst) rfl
      exact ⟨l :: tr, t, .cons hok hst h, ht⟩

end Ranked

end Wss.Lib.Machine

namespace Wss.Lib

universe u

/-- What a thread pays for when it has taken another number than `now`. -/
def staleCost (cost now : ℕ) : Option ℕ → ℕ
  | some g => if g = now then 0 else cost
  | none => 0

theorem staleCost_le (cost now : ℕ) (o : Option ℕ) : staleCost cost now o ≤ cost := by
  unfold staleCost
  split
  · split_ifs
    · exact Nat.zero_le _
    · exact le_rfl
  · exact Nat.zero_le _

@[simp] theorem staleCost_none (cost now : ℕ) : staleCost cost now none = 0 := rfl

@[simp] theorem staleCost_now (cost now : ℕ) : staleCost cost now (some now) = 0 := if_pos rfl

theorem staleCost_of_ne (cost : ℕ) {now g : ℕ} (h : now ≠ g) :
    staleCost cost now (some g) = cost := if_neg h.symm

section Sums

variable {κ : Type u} [Fintype κ] [DecidableEq κ] {f g : κ → ℕ} {k : κ} {a b c : ℕ}

/-- A step of one of them. -/
theorem sum_add_le (hother : ∀ i, i ≠ k → g i ≤ f i) (hk : g k + a ≤ f k + b) :
    ∑ i, g i + a ≤ ∑ i, f i + b := by
  rw [← Finset.add_sum_erase _ f (Finset.mem_univ k),
    ← Finset.add_sum_erase _ g (Finset.mem_univ k)]
  have hrest := Finset.sum_le_sum fun i (hi : i ∈ Finset.univ.erase k) =>
    hother i (Finset.ne_of_mem_erase hi)
  omega

omit [DecidableEq κ] in
/-- A step that may cost each of them `c`. -/
theorem sum_le_add_card (h : ∀ i, g i ≤ f i + c) :
    ∑ i, g i ≤ ∑ i, f i + Fintype.card κ * c := by
  refine (Finset.sum_le_sum fun i _ => h i).trans_eq ?_
  rw [Finset.sum_add_distrib, Finset.sum_const, Finset.card_univ, smul_eq_mul]

/-- Such a step of one of them. -/
theorem sum_add_le_all (hother : ∀ i, i ≠ k → g i ≤ f i + c) (hk : g k + a ≤ f k) :
    ∑ i, g i + a ≤ ∑ i, f i + Fintype.card κ * c := by
  have hall : ∀ i, i ≠ k → g i ≤ f i + c := hother
  have h := sum_add_le (f := fun i => f i + c) hall (k := k) (a := a) (b := 0) (by
    show g k + a ≤ f k + c + 0
    omega)
  rw [Finset.sum_add_distrib, Finset.sum_const, Finset.card_univ, smul_eq_mul] at h
  exact h

/-! ## Pools that sleep -/

omit [DecidableEq κ] in
/-- The steps a pool has left. A notification sends every worker through `B` steps, and a job that
has not started, of which there are `j`, makes one and costs `C` steps. Besides, `r` notifications
and `x` steps are left outside the pool, and the workers have `rings` and `left`. -/
def poolRank (B C j r x : ℕ) (rings left : κ → ℕ) : ℕ :=
  Fintype.card κ * B * (j + r + ∑ i, rings i) + C * j + x + ∑ i, left i

variable {B C j j' r r' x x' : ℕ} {rings rings' left left' : κ → ℕ}

omit [DecidableEq κ] in
theorem poolRank_lt (hrings : j' + r' + ∑ i, rings' i + a ≤ j + r + ∑ i, rings i)
    (hleft : C * j' + x' + ∑ i, left' i + 1 ≤
      C * j + x + ∑ i, left i + Fintype.card κ * B * a) :
    poolRank B C j' r' x' rings' left' < poolRank B C j r x rings left := by
  have hB := Nat.mul_le_mul_left (Fintype.card κ * B) hrings
  rw [Nat.mul_add] at hB
  unfold poolRank
  omega

/-- A worker starts `a` jobs and does not notify. -/
theorem poolRank_worker (hj : j' + a = j)
    (hother : ∀ i, i ≠ k → rings' i = rings i ∧ left' i ≤ left i)
    (hrings : rings' k = rings k + a) (hleft : left' k < left k + C * a) :
    poolRank B C j' r x rings' left' < poolRank B C j r x rings left := by
  have h1 : ∑ i, rings' i + 0 ≤ ∑ i, rings i + a :=
    sum_add_le (fun i hi => (hother i hi).1.le) hrings.le
  have h2 : ∑ i, left' i + 1 ≤ ∑ i, left i + C * a :=
    sum_add_le (fun i hi => (hother i hi).2) hleft
  have h3 : C * j' + C * a = C * j := by rw [← hj, Nat.mul_add]
  exact poolRank_lt (a := 0) (by omega) (by omega)

/-- A worker notifies. -/
theorem poolRank_worker_ring (hother : ∀ i, i ≠ k → rings' i = rings i ∧ left' i ≤ left i + B)
    (hrings : rings' k + 1 = rings k) (hleft : left' k < left k) :
    poolRank B C j r x rings' left' < poolRank B C j r x rings left := by
  have h1 : ∑ i, rings' i + 1 ≤ ∑ i, rings i + 0 :=
    sum_add_le (fun i hi => (hother i hi).1.le) hrings.le
  have h2 : ∑ i, left' i + 1 ≤ ∑ i, left i + Fintype.card κ * B :=
    sum_add_le_all (fun i hi => (hother i hi).2) hleft
  exact poolRank_lt (a := 1) (by omega) (by omega)

omit [DecidableEq κ] in
/-- A step outside the pool that does not notify. -/
theorem poolRank_outside (hr : r' ≤ r) (hx : x' < x) (hleft : ∀ i, left' i ≤ left i) :
    poolRank B C j r' x' rings left' < poolRank B C j r x rings left := by
  have h2 : ∑ i, left' i ≤ ∑ i, left i := Finset.sum_le_sum fun i _ => hleft i
  exact poolRank_lt (a := 0) (by omega) (by omega)

omit [DecidableEq κ] in
/-- A step outside the pool that notifies. -/
theorem poolRank_outside_ring (hr : r' < r) (hx : x' < x) (hleft : ∀ i, left' i ≤ left i + B) :
    poolRank B C j r' x' rings left' < poolRank B C j r x rings left := by
  have h2 := sum_le_add_card hleft
  exact poolRank_lt (a := 1) (by omega) (by omega)

end Sums

end Wss.Lib
