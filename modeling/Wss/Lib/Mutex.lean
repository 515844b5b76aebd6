import Mathlib.Logic.Function.Basic

/-!
# Mutexes and their holders

`Owned holder holds`: every mutex knows its holder and every thread the mutex it holds, one at most.

Results:
* `Owned.stay`, `Owned.acquire`, `Owned.release`: a thread that goes on inside or outside its
  critical section, takes a free mutex or releases its own keeps this.
* `Owned.exclusive`: a mutex has one holder at a time.
-/

namespace Wss.Lib

universe u v

variable {κ : Type u} {τ : Type v}

/-- `holder k` has mutex `k`, and `holds t` is what thread `t` has. -/
def Owned (holder : κ → Option τ) (holds : τ → Option κ) : Prop :=
  ∀ k t, holder k = some t ↔ holds t = some k

namespace Owned

variable {holder : κ → Option τ} {holds holds' : τ → Option κ} {k : κ} {t t' : τ}

theorem free : Owned (fun _ : κ => (none : Option τ)) fun _ => none := fun _ _ => by simp

theorem exclusive (h : Owned holder holds) (ht : holds t = some k) (ht' : holds t' = some k) :
    t = t' :=
  Option.some.inj (((h k t).mpr ht).symm.trans ((h k t').mpr ht'))

/-- A step of a thread inside its critical section, or outside of all. -/
theorem stay (h : Owned holder holds) (hother : ∀ u, holds' u = holds u) : Owned holder holds' :=
  fun k u => by rw [hother]; exact h k u

variable [DecidableEq κ]

/-- A thread that holds no mutex takes a free one. -/
theorem acquire (h : Owned holder holds) (hfree : holder k = none) (ht : holds t = none)
    (hself : holds' t = some k) (hother : ∀ u, u ≠ t → holds' u = holds u) :
    Owned (Function.update holder k (some t)) holds' := by
  intro j u
  by_cases hu : u = t
  · subst hu
    rw [hself]
    by_cases hj : j = k
    · subst hj
      simp
    · have hnot : holder j ≠ some u := fun e => by
        rw [(h j u).mp e] at ht
        exact absurd ht (by simp)
      rw [Function.update_of_ne hj]
      exact ⟨fun e => absurd e hnot, fun e => absurd (Option.some.inj e).symm hj⟩
  · rw [hother u hu]
    by_cases hj : j = k
    · subst hj
      have hnot : holds u ≠ some j := fun e => by
        rw [(h j u).mpr e] at hfree
        exact absurd hfree (by simp)
      rw [Function.update_self]
      exact ⟨fun e => absurd (Option.some.inj e).symm hu, fun e => absurd e hnot⟩
    · rw [Function.update_of_ne hj]
      exact h j u

/-- A thread releases its mutex. -/
theorem release (h : Owned holder holds) (ht : holds t = some k) (hself : holds' t = none)
    (hother : ∀ u, u ≠ t → holds' u = holds u) : Owned (Function.update holder k none) holds' := by
  intro j u
  by_cases hu : u = t
  · subst hu
    rw [hself]
    by_cases hj : j = k
    · subst hj
      simp
    · rw [Function.update_of_ne hj, h j u, ht]
      exact ⟨fun e => absurd (Option.some.inj e).symm hj, fun e => absurd e (by simp)⟩
  · rw [hother u hu]
    by_cases hj : j = k
    · subst hj
      have hnot : holds u ≠ some j := fun e => hu (h.exclusive e ht)
      rw [Function.update_self]
      exact ⟨fun e => absurd e (by simp), fun e => absurd e hnot⟩
    · rw [Function.update_of_ne hj]
      exact h j u

end Owned

end Wss.Lib
