import Mathlib.Algebra.Order.Field.Basic

/-!
# Numbers with infinities and NaN

`Ieee K` is an ordered field `K` with `±∞` and NaN, under the rules of IEEE 754 without rounding,
overflow and the sign of zero: NaN is absorbing in `+` and `/`, and no ordered comparison with it
holds.

Results:
* `pos_of_not_le`: so `x ≤ 0` and `0 < x` are no longer each other's negation. Both are false of
  NaN, and of nothing else.
-/

namespace Wss.Lib

/-- A floating-point number, with `K` for the finite ones. -/
inductive Ieee (K : Type*)
  | nan
  | negInf
  | posInf
  | fin (x : K)
  deriving DecidableEq

namespace Ieee

variable {K : Type*}

/-- Neither NaN nor infinite. -/
def IsFin (x : Ieee K) : Prop := ∃ q, x = .fin q

instance : DecidablePred (IsFin (K := K))
  | .nan => isFalse nofun
  | .negInf => isFalse nofun
  | .posInf => isFalse nofun
  | .fin x => isTrue ⟨x, rfl⟩

instance [Zero K] : Zero (Ieee K) := ⟨.fin 0⟩

instance [One K] : One (Ieee K) := ⟨.fin 1⟩

/-- The sum. Infinities of opposite signs have none. -/
protected def add [Add K] : Ieee K → Ieee K → Ieee K
  | .nan, _ | _, .nan | .posInf, .negInf | .negInf, .posInf => .nan
  | .posInf, _ | _, .posInf => .posInf
  | .negInf, _ | _, .negInf => .negInf
  | .fin x, .fin y => .fin (x + y)

instance [Add K] : Add (Ieee K) := ⟨Ieee.add⟩

/-- `x <= y`, false of NaN. -/
protected def le [LE K] : Ieee K → Ieee K → Prop
  | .nan, _ | _, .nan => False
  | .negInf, _ | _, .posInf => True
  | .posInf, _ | _, .negInf => False
  | .fin x, .fin y => x ≤ y

instance [LE K] : LE (Ieee K) := ⟨Ieee.le⟩

instance [LE K] [DecidableLE K] : DecidableLE (Ieee K)
  | .nan, _ | .negInf, .nan | .posInf, .nan | .fin _, .nan => isFalse id
  | .negInf, .negInf | .negInf, .posInf | .negInf, .fin _ => isTrue trivial
  | .posInf, .posInf | .fin _, .posInf => isTrue trivial
  | .posInf, .negInf | .posInf, .fin _ | .fin _, .negInf => isFalse id
  | .fin x, .fin y => inferInstanceAs (Decidable (x ≤ y))

/-- `x < y`, false of NaN. -/
protected def lt [LT K] : Ieee K → Ieee K → Prop
  | .nan, _ | _, .nan => False
  | _, .negInf | .posInf, _ => False
  | .negInf, _ | _, .posInf => True
  | .fin x, .fin y => x < y

instance [LT K] : LT (Ieee K) := ⟨Ieee.lt⟩

instance [LT K] [DecidableLT K] : DecidableLT (Ieee K)
  | .nan, _ | .negInf, .nan | .posInf, .nan | .fin _, .nan => isFalse id
  | .negInf, .negInf | .posInf, .negInf | .fin _, .negInf => isFalse id
  | .posInf, .posInf | .posInf, .fin _ => isFalse id
  | .negInf, .posInf | .negInf, .fin _ | .fin _, .posInf => isTrue trivial
  | .fin x, .fin y => inferInstanceAs (Decidable (x < y))

/-- The quotient of a number by zero. -/
def ofSign [Zero K] [LT K] [DecidableLT K] (x : K) : Ieee K :=
  if 0 < x then .posInf else if x < 0 then .negInf else .nan

/-- The quotient. A division by zero gives an infinity, or NaN if `0` is divided. -/
protected def div [Field K] [LinearOrder K] : Ieee K → Ieee K → Ieee K
  | .nan, _ | _, .nan => .nan
  | .fin x, .fin y => if y = 0 then ofSign x else .fin (x / y)
  | .fin _, _ => .fin 0
  | .posInf, .fin y => if y < 0 then .negInf else .posInf
  | .negInf, .fin y => if y < 0 then .posInf else .negInf
  | _, _ => .nan

instance [Field K] [LinearOrder K] : Div (Ieee K) := ⟨Ieee.div⟩

variable {x y : Ieee K}

theorem IsFin.ne_nan (h : x.IsFin) : x ≠ .nan := by
  obtain ⟨q, rfl⟩ := h
  exact nofun

theorem isFin_zero [Zero K] : (0 : Ieee K).IsFin := ⟨0, rfl⟩

theorem IsFin.add [Add K] (hx : x.IsFin) (hy : y.IsFin) : (x + y).IsFin := by
  obtain ⟨p, rfl⟩ := hx
  obtain ⟨q, rfl⟩ := hy
  exact ⟨p + q, rfl⟩

/-- Finite numbers are totally ordered. -/
theorem IsFin.le_total [LinearOrder K] (hx : x.IsFin) (hy : y.IsFin) : x ≤ y ∨ y ≤ x := by
  obtain ⟨p, rfl⟩ := hx
  obtain ⟨q, rfl⟩ := hy
  exact Std.le_total (a := p) (b := q)

variable [Field K] [LinearOrder K]

/-- A finite number has a finite quotient by a positive one, which may be infinite. -/
theorem IsFin.div (hx : x.IsFin) (hy : 0 < y) : (x / y).IsFin := by
  obtain ⟨p, rfl⟩ := hx
  cases y with
  | nan | negInf => exact hy.elim
  | posInf => exact ⟨0, rfl⟩
  | fin q =>
    have hq : (0 : K) < q := hy
    exact ⟨p / q, if_neg hq.ne'⟩

/-- **Only NaN is neither positive nor at most zero.** -/
theorem pos_of_not_le (hx : x ≠ .nan) (h : ¬ x ≤ 0) : 0 < x := by
  cases x with
  | nan => exact absurd rfl hx
  | negInf => exact absurd trivial h
  | posInf => trivial
  | fin q => exact not_le.mp h

theorem not_pos_nan : ¬ (0 : Ieee K) < .nan := id

protected theorem zero_lt_one [IsStrictOrderedRing K] : (0 : Ieee K) < 1 :=
  (zero_lt_one : (0 : K) < 1)

end Ieee

end Wss.Lib
