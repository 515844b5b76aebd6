import Mathlib.Data.List.Nodup
import Mathlib.Logic.Function.Basic

/-!
# Ownership of allocated things

A `Ledger` says who holds each of the things allocated so far (numbered in the order of their
allocation) and which were freed: every thing that is not freed has exactly one holder, a held
thing is never a freed one, and nothing is freed twice.

Results:
* `Ledger.alloc`, `Ledger.move`, `Ledger.free`: allocating, handing over and freeing keep this.
-/

namespace Wss.Lib

universe u

variable {η : Type u} [DecidableEq η]

/-- `held h` is what `h` holds, `count` how many things were allocated, `freed` the freed ones. -/
structure Ledger (held : η → Option ℕ) (count : ℕ) (freed : List ℕ) : Prop where
  alive : ∀ {h p}, held h = some p → p < count ∧ p ∉ freed
  unique : ∀ {h h' p}, held h = some p → held h' = some p → h = h'
  accounted : ∀ {p}, p < count → p ∉ freed → ∃ h, held h = some p
  freed_lt : ∀ {p}, p ∈ freed → p < count
  freed_nodup : freed.Nodup

namespace Ledger

variable {held : η → Option ℕ} {count : ℕ} {freed : List ℕ} {h h' : η} {p : ℕ}

omit [DecidableEq η] in
theorem init : Ledger (fun _ : η => none) 0 [] where
  alive hp := absurd hp (by simp)
  unique hp := absurd hp (by simp)
  accounted hp := absurd hp (by omega)
  freed_lt hp := absurd hp (by simp)
  freed_nodup := List.nodup_nil

/-- A new thing is given to `h`, who held nothing. -/
theorem alloc (L : Ledger held count freed) (hn : held h = none) :
    Ledger (Function.update held h (some count)) (count + 1) freed := by
  have old : ∀ {k q}, Function.update held h (some count) k = some q → q ≠ count →
      held k = some q := by
    intro k q hk hq
    by_cases hkh : k = h
    · subst hkh
      rw [Function.update_self] at hk
      exact absurd (Option.some.inj hk).symm hq
    · rwa [Function.update_of_ne hkh] at hk
  have new : ∀ {k}, Function.update held h (some count) k = some count → k = h := by
    intro k hk
    by_contra hkh
    rw [Function.update_of_ne hkh] at hk
    exact absurd (L.alive hk).1 (Nat.lt_irrefl _)
  refine ⟨fun {k q} hk => ?_, fun {k k' q} hk hk' => ?_, fun {q} hq hf => ?_, fun hq => ?_,
    L.freed_nodup⟩
  · by_cases hq : q = count
    · subst hq
      exact ⟨Nat.lt_succ_self _, fun hf => absurd (L.freed_lt hf) (Nat.lt_irrefl _)⟩
    · exact ⟨Nat.lt_succ_of_lt (L.alive (old hk hq)).1, (L.alive (old hk hq)).2⟩
  · by_cases hq : q = count
    · subst hq
      exact (new hk).trans (new hk').symm
    · exact L.unique (old hk hq) (old hk' hq)
  · rcases Nat.lt_succ_iff_lt_or_eq.mp hq with hlt | rfl
    · obtain ⟨k, hk⟩ := L.accounted hlt hf
      have hkh : k ≠ h := fun e => by rw [e, hn] at hk; exact absurd hk (by simp)
      exact ⟨k, by rwa [Function.update_of_ne hkh]⟩
    · exact ⟨h, Function.update_self _ _ _⟩
  · exact Nat.lt_succ_of_lt (L.freed_lt hq)

/-- What `h` holds goes to `h'`, who held nothing. -/
theorem move (L : Ledger held count freed) (hne : h ≠ h') (hn : held h' = none) :
    Ledger (Function.update (Function.update held h none) h' (held h)) count freed := by
  set held' := Function.update (Function.update held h none) h' (held h) with hheld'
  have at' : held' h' = held h := Function.update_self _ _ _
  have ath : held' h = none := by
    rw [hheld', Function.update_of_ne hne, Function.update_self]
  have other : ∀ k, k ≠ h → k ≠ h' → held' k = held k := fun k h1 h2 => by
    rw [hheld', Function.update_of_ne h2, Function.update_of_ne h1]
  -- who holds `q` after the move, in terms of before
  have back : ∀ {k q}, held' k = some q →
      (k = h' ∧ held h = some q) ∨ (k ≠ h ∧ k ≠ h' ∧ held k = some q) := by
    intro k q hk
    by_cases h2 : k = h'
    · exact Or.inl ⟨h2, by rw [← at', ← h2]; exact hk⟩
    · have h1 : k ≠ h := fun e => by rw [e, ath] at hk; exact absurd hk (by simp)
      exact Or.inr ⟨h1, h2, by rw [← other k h1 h2]; exact hk⟩
  refine ⟨fun {k q} hk => ?_, fun {k k' q} hk hk' => ?_, fun {q} hq hf => ?_, L.freed_lt,
    L.freed_nodup⟩
  · rcases back hk with ⟨-, hq⟩ | ⟨-, -, hq⟩ <;> exact L.alive hq
  · rcases back hk with ⟨e, hq⟩ | ⟨h1, -, hq⟩ <;> rcases back hk' with ⟨e', hq'⟩ | ⟨h1', -, hq'⟩
    · exact e.trans e'.symm
    · exact absurd (L.unique hq' hq) h1'
    · exact absurd (L.unique hq hq') h1
    · exact L.unique hq hq'
  · obtain ⟨k, hk⟩ := L.accounted hq hf
    by_cases h1 : k = h
    · exact ⟨h', by rw [at', ← h1]; exact hk⟩
    · have h2 : k ≠ h' := fun e => by rw [e, hn] at hk; exact absurd hk (by simp)
      exact ⟨k, by rw [other k h1 h2]; exact hk⟩

/-- The holder frees what it holds. -/
theorem free (L : Ledger held count freed) (hp : held h = some p) :
    Ledger (Function.update held h none) count (freed ++ [p]) := by
  have back : ∀ {k q}, Function.update held h none k = some q → k ≠ h ∧ held k = some q := by
    intro k q hk
    have h1 : k ≠ h := fun e => by
      rw [e, Function.update_self] at hk
      exact absurd hk (by simp)
    exact ⟨h1, by rwa [Function.update_of_ne h1] at hk⟩
  refine ⟨fun {k q} hk => ?_, fun hk hk' => L.unique (back hk).2 (back hk').2,
    fun {q} hq hf => ?_, fun {q} hq => ?_, ?_⟩
  · obtain ⟨h1, hk⟩ := back hk
    refine ⟨(L.alive hk).1, fun hf => ?_⟩
    rcases List.mem_append.mp hf with hf | hf
    · exact (L.alive hk).2 hf
    · obtain rfl := List.mem_singleton.mp hf
      exact h1 (L.unique hk hp)
  · rw [List.mem_append, not_or, List.mem_singleton] at hf
    obtain ⟨k, hk⟩ := L.accounted hq hf.1
    have h1 : k ≠ h := fun e => by
      rw [e, hp] at hk
      exact hf.2 (Option.some.inj hk).symm
    exact ⟨k, by rwa [Function.update_of_ne h1]⟩
  · rcases List.mem_append.mp hq with hq | hq
    · exact L.freed_lt hq
    · rw [List.mem_singleton.mp hq]
      exact (L.alive hp).1
  · rw [List.nodup_append]
    exact ⟨L.freed_nodup, List.nodup_singleton _, fun a ha b hb e =>
      (L.alive hp).2 (by rw [List.mem_singleton.mp hb] at e; exact e ▸ ha)⟩

end Ledger

end Wss.Lib
