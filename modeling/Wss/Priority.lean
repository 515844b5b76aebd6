import Mathlib.Data.Fintype.Defs

/-!
# Priorities

Model of `include/wss/priority.hpp`.
-/

namespace Wss

/-- `Priority`. -/
inductive Priority
  | high
  | normal
  | background
  deriving DecidableEq

/-- The order in which workers search. -/
def kPriorityOrder : List Priority := [.high, .normal, .background]

/-- The index of a priority in an array. -/
def Priority.index : Priority → ℕ
  | .high => 0
  | .normal => 1
  | .background => 2

theorem mem_kPriorityOrder (p : Priority) : p ∈ kPriorityOrder := by cases p <;> decide

instance : Fintype Priority := ⟨⟨kPriorityOrder, by decide⟩, mem_kPriorityOrder⟩

end Wss
