import Wss.Lib.Machine

/-!
# Simulation

`Simulates M ok A ok' R`: what the machine `M` does in the runs that respect `ok`, the machine `A`
can do in runs that respect `ok'`. `R` relates their states; a step of `M` is one step of `A` or
none.

Results:
* `Simulates.reachable`: a state that `M` reaches has a related one that `A` reaches, so what holds
  in every state of `A` can be read off there.
* `Simulates.trans`: one simulation after another.
-/

namespace Wss.Lib

universe u v

variable {σ τ υ : Type u} {Λ Γ Δ : Type v}

/-- `A` simulates the runs of `M` that respect `ok`. -/
structure Simulates (M : Machine σ Λ) (ok : σ → Λ → Prop) (A : Machine τ Γ) (ok' : τ → Γ → Prop)
    (R : σ → τ → Prop) : Prop where
  init : ∀ s, M.init s → ∃ a, A.init a ∧ R s a
  step : ∀ s l s' a, M.ReachableUnder ok s → A.ReachableUnder ok' a → R s a → ok s l →
    M.step s l = some s' → R s' a ∨ ∃ x a', ok' a x ∧ A.step a x = some a' ∧ R s' a'

namespace Simulates

variable {M : Machine σ Λ} {A : Machine τ Γ} {C : Machine υ Δ} {ok : σ → Λ → Prop}
  {ok' : τ → Γ → Prop} {ok'' : υ → Δ → Prop} {R : σ → τ → Prop} {Q : τ → υ → Prop}
  {s s' : σ} {a : τ}

/-- **What `M` reaches has a related state that `A` reaches.** -/
theorem reachable (h : Simulates M ok A ok' R) (hs : M.ReachableUnder ok s) :
    ∃ a, A.ReachableUnder ok' a ∧ R s a := by
  refine hs.invariant (I := fun s => ∃ a, A.ReachableUnder ok' a ∧ R s a) (fun s h₀ => ?_)
    fun s l s' hs hok hst ih => ?_
  · obtain ⟨a, ha, hR⟩ := h.init s h₀
    exact ⟨a, ⟨[], a, ha, .nil⟩, hR⟩
  · obtain ⟨a, ha, hR⟩ := ih
    rcases h.step s l s' a hs ha hR hok hst with hR' | ⟨x, a', hx, hst', hR'⟩
    · exact ⟨a, ha, hR'⟩
    · exact ⟨a', ha.next hx hst', hR'⟩

/-- One simulation after another. -/
theorem trans (h : Simulates M ok A ok' R) (h' : Simulates A ok' C ok'' Q) :
    Simulates M ok C ok'' fun s c => ∃ a, A.ReachableUnder ok' a ∧ R s a ∧ Q a c where
  init s hs := by
    obtain ⟨a, ha, hR⟩ := h.init s hs
    obtain ⟨c, hc, hQ⟩ := h'.init a ha
    exact ⟨c, hc, a, ⟨[], a, ha, .nil⟩, hR, hQ⟩
  step s l s' c hs hc hrel hok hst := by
    obtain ⟨a, ha, hR, hQ⟩ := hrel
    rcases h.step s l s' a hs ha hR hok hst with hR' | ⟨x, a', hx, hst', hR'⟩
    · exact .inl ⟨a, ha, hR', hQ⟩
    · have ha' : A.ReachableUnder ok' a' := ha.next hx hst'
      rcases h'.step a x a' c ha hc hQ hx hst' with hQ' | ⟨y, c', hy, hst'', hQ'⟩
      · exact .inl ⟨a', ha', hR', hQ'⟩
      · exact .inr ⟨y, c', hy, hst'', a', ha', hR', hQ'⟩

end Simulates

end Wss.Lib
