import Mathlib.Algebra.Order.Ring.Int
import Mathlib.Data.Int.ModEq
import Mathlib.Logic.Function.Basic
import Mathlib.Tactic.NormNum
import Mathlib.Tactic.Positivity

/-!
# `ChaseLevDeque::Buffer`

Model of the slot array of `include/wss/chase_lev_deque.hpp` (`Buffer`, `round_up_pow2`). A slot
holds `nullptr` or a box (a heap-allocated item, named by the order of its allocation), and a
deque index `i` lives in slot `index i`, which is `i` masked to the capacity. The capacity is a
power of two that a vector of pointers can have, which is a field of the structure.

`std::int64_t` indices are integers here. `index` casts one to `std::size_t`, which is the
reduction modulo `2 ^ 64`.

Results:
* `roundUpPow2_spec`: the constructor gets a capacity it can have.
* `index_eq`: `index i` is `i mod capacity`.
* `load_store_of_near`: so two indices less than a capacity apart live in different slots.
-/

namespace Wss.ChaseLev

/-- `max_size()` of a vector of eight-byte pointers. -/
def maxSlots : ℕ := (2 ^ 63 - 1) / 8

/-- `Buffer`. `mask` is `capacity - 1`, `slots` a vector of `capacity` atomic pointers. -/
structure Buffer where
  capacity : ℕ
  slots : ℕ → Option ℕ
  pow : capacity.isPowerOfTwo
  fits : capacity ≤ maxSlots

/-- The loop of `round_up_pow2` with `fuel` tests of its condition left. -/
def roundUpPow2Loop (v : ℕ) : ℕ → ℕ → Option ℕ
  | 0, _ => none
  | fuel + 1, p => if p < v then roundUpPow2Loop v fuel ((p <<< 1) % 2 ^ 64) else some p

/-- `round_up_pow2`, `none` where it does not return: after 64 tests `p` has been shifted out to
`0` and stays there. -/
def roundUpPow2 (v : ℕ) : Option ℕ := roundUpPow2Loop v 64 1

theorem roundUpPow2Loop_spec {v c : ℕ} : ∀ {fuel k : ℕ}, fuel + k = 64 →
    roundUpPow2Loop v fuel (2 ^ k) = some c → c.isPowerOfTwo ∧ v ≤ c
  | 0, _, _, h => absurd h (by simp [roundUpPow2Loop])
  | fuel + 1, k, hk, h => by
    unfold roundUpPow2Loop at h
    split at h
    · cases fuel with
      | zero => exact absurd h (by simp [roundUpPow2Loop])
      | succ fuel =>
        have hlt : 2 ^ (k + 1) < 2 ^ 64 := Nat.pow_lt_pow_right (by omega) (by omega)
        have hp : ((2 ^ k) <<< 1) % 2 ^ 64 = 2 ^ (k + 1) := by
          rw [Nat.shiftLeft_eq, pow_one, ← Nat.pow_succ, Nat.mod_eq_of_lt hlt]
        rw [hp] at h
        exact roundUpPow2Loop_spec (by omega) h
    · obtain rfl := Option.some.inj h
      exact ⟨⟨k, rfl⟩, by omega⟩

/-- **`round_up_pow2` returns a power of two at least its argument**, when it returns. -/
theorem roundUpPow2_spec {v c : ℕ} (h : roundUpPow2 v = some c) : c.isPowerOfTwo ∧ v ≤ c :=
  roundUpPow2Loop_spec (k := 0) rfl h

namespace Buffer

/-- `Buffer(cap)`: every slot null, `none` where `slots(cap)` throws `std::length_error`. -/
def make (cap : ℕ) (h : cap.isPowerOfTwo) : Option Buffer :=
  if hf : cap ≤ maxSlots then some ⟨cap, fun _ => none, h, hf⟩ else none

variable (b : Buffer)

/-- The buffer that `grow` allocates. -/
def twice : Option Buffer :=
  make (b.capacity * 2) (Nat.isPowerOfTwo_mul_two_of_isPowerOfTwo b.pow)

/-- `mask`: the capacity is a power of two. -/
def mask : ℕ := b.capacity - 1

/-- `index(i)`: `static_cast<std::size_t>(i) & mask`. -/
def index (i : ℤ) : ℕ := (i % 2 ^ 64).toNat &&& b.mask

/-- `slots[index(i)].load()`. -/
def load (i : ℤ) : Option ℕ := b.slots (b.index i)

/-- `slots[index(i)].store(p)`. -/
def store (i : ℤ) (p : Option ℕ) : Buffer :=
  { b with slots := Function.update b.slots (b.index i) p }

variable {b} {i j : ℤ} {p : Option ℕ}

theorem make_eq_some {cap : ℕ} {h : cap.isPowerOfTwo} (hb : make cap h = some b) :
    b.capacity = cap ∧ b.slots = fun _ => none := by
  unfold make at hb
  split at hb
  · obtain rfl := Option.some.inj hb
    exact ⟨rfl, rfl⟩
  · exact absurd hb (by simp)

theorem capacity_pos (b : Buffer) : 0 < b.capacity := Nat.pos_of_isPowerOfTwo b.pow

theorem index_eq (b : Buffer) (i : ℤ) : b.index i = (i % b.capacity).toNat := by
  obtain ⟨k, hk⟩ := b.pow
  have hlt : k < 64 := by
    by_contra hge
    have h1 : 2 ^ 64 ≤ 2 ^ k := Nat.pow_le_pow_right (by omega) (by omega)
    have h2 := b.fits
    rw [hk] at h2
    have h3 : maxSlots < 2 ^ 64 := by decide
    omega
  have hdvd : (2 : ℤ) ^ k ∣ 2 ^ 64 := pow_dvd_pow 2 (by omega)
  have h0 : 0 ≤ i % 2 ^ 64 := Int.emod_nonneg _ (by norm_num)
  have h1 : 0 ≤ i % 2 ^ k := Int.emod_nonneg _ (by positivity)
  unfold index mask
  rw [hk, Nat.and_two_pow_sub_one_eq_mod]
  have key : (((i % 2 ^ 64).toNat % 2 ^ k : ℕ) : ℤ) = ((i % 2 ^ k).toNat : ℤ) := by
    rw [Int.natCast_emod, Int.toNat_of_nonneg h0, Int.toNat_of_nonneg h1, Nat.cast_pow,
      Nat.cast_ofNat, Int.emod_emod_of_dvd _ hdvd]
  rw [Int.ofNat.inj key, Nat.cast_pow, Nat.cast_ofNat]

/-- A slot index is within the vector. -/
theorem index_lt (b : Buffer) (i : ℤ) : b.index i < b.capacity := by
  have hpos : (0 : ℤ) < b.capacity := by exact_mod_cast b.capacity_pos
  have := Int.emod_lt_of_pos i hpos
  have := Int.emod_nonneg i hpos.ne'
  rw [index_eq]
  omega

/-- Indices less than a capacity apart live in different slots. -/
theorem index_ne (h : i < j) (hc : j - i < b.capacity) : b.index i ≠ b.index j := by
  have hpos : (0 : ℤ) < b.capacity := by exact_mod_cast b.capacity_pos
  rw [index_eq, index_eq]
  intro he
  have hi := Int.emod_nonneg i hpos.ne'
  have hj := Int.emod_nonneg j hpos.ne'
  have hmod : j % b.capacity = i % b.capacity := by omega
  have hdvd : (b.capacity : ℤ) ∣ j - i := Int.ModEq.dvd hmod.symm
  exact absurd (Int.le_of_dvd (by omega) hdvd) (by omega)

@[simp] theorem store_capacity : (b.store i p).capacity = b.capacity := rfl

@[simp] theorem load_store_self : (b.store i p).load i = p := Function.update_self _ _ _

/-- A store leaves alone every index less than a capacity below it. -/
theorem load_store_of_near (h : j < i) (hc : i - j < b.capacity) :
    (b.store i p).load j = b.load j :=
  Function.update_of_ne (index_ne h hc) _ _

end Buffer

end Wss.ChaseLev
