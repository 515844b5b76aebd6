import Mathlib.Logic.Basic
import Mathlib.Tactic.SplitIfs

/-!
# Programs that throw

A program in `ExceptT ε (StateT σ n)` has an effect on a state and returns or throws; what it did
before it threw stays done.

`alloc fail site` is an allocation at `site` in a program of which the allocation at `fail`, if
any, throws; `allocUnless room fail site` is made only where there is no room left.

Results:
* `run_bind_ok`, `run_bind_error`, `run_tryCatch_ok`, `run_tryCatch_error`: what a sequence and a
  handler do, from what their parts do in the state where they are run.
* `run_alloc_ok`, `run_alloc_fail`, `run_allocUnless_ok`, `run_allocUnless_fail`: what an allocation
  does.
-/

namespace Wss.Lib

universe u

variable {ε σ α β : Type u} {n : Type u → Type u} [Monad n] [LawfulMonad n] {s s' : σ}
  {m : ExceptT ε (StateT σ n) α} {f : α → ExceptT ε (StateT σ n) β}
  {handle : ε → ExceptT ε (StateT σ n) α} {a : α} {e : ε}

theorem run_bind_ok (h : m.run.run s = pure (.ok a, s')) :
    (m >>= f).run.run s = (f a).run.run s' := by
  rw [ExceptT.run_bind, StateT.run_bind, h, pure_bind]

theorem run_bind_error (h : m.run.run s = pure (.error e, s')) :
    (m >>= f).run.run s = pure (.error e, s') := by
  rw [ExceptT.run_bind, StateT.run_bind, h, pure_bind]
  rfl

theorem run_get : (get : ExceptT ε (StateT σ n) σ).run.run s = pure (.ok s, s) := by
  show (pure (s, s) >>= fun p => pure (.ok p.1, p.2) : n (Except ε σ × σ)) = _
  rw [pure_bind]

theorem run_modify (g : σ → σ) :
    (modify g : ExceptT ε (StateT σ n) PUnit).run.run s = pure (.ok ⟨⟩, g s) := by
  show (pure (⟨⟩, g s) >>= fun p => pure (.ok p.1, p.2) : n (Except ε PUnit × σ)) = _
  rw [pure_bind]

theorem run_liftM (a : n α) :
    (liftM a : ExceptT ε (StateT σ n) α).run.run s = a >>= fun a => pure (.ok a, s) := by
  show ((a >>= fun a => pure (a, s)) >>= fun p => pure (.ok p.1, p.2) : n (Except ε α × σ)) = _
  rw [bind_assoc]
  simp only [pure_bind]

theorem run_tryCatch_ok (h : m.run.run s = pure (.ok a, s')) :
    (tryCatch m handle).run.run s = pure (.ok a, s') := by
  rw [ExceptT.run_tryCatch, StateT.run_bind, h, pure_bind]
  rfl

theorem run_tryCatch_error (h : m.run.run s = pure (.error e, s')) :
    (tryCatch m handle).run.run s = (handle e).run.run s' := by
  rw [ExceptT.run_tryCatch, StateT.run_bind, h, pure_bind]

section Option

variable {m : ExceptT ε (StateT σ Option) α} {f : α → ExceptT ε (StateT σ Option) β}

/-- A sequence that throws does so in one of its parts. -/
theorem run_bind_eq_error (h : (m >>= f).run.run s = some (.error e, s')) :
    m.run.run s = some (.error e, s') ∨
      ∃ a s₁, m.run.run s = some (.ok a, s₁) ∧ (f a).run.run s₁ = some (.error e, s') := by
  cases hm : m.run.run s with
  | none =>
    rw [ExceptT.run_bind, StateT.run_bind, hm] at h
    exact absurd h nofun
  | some p =>
    obtain ⟨r, s₁⟩ := p
    cases r with
    | error e₁ =>
      obtain ⟨he, rfl⟩ := Prod.mk.inj (Option.some.inj ((run_bind_error hm).symm.trans h))
      obtain rfl := Except.error.inj he
      exact .inl rfl
    | ok a => exact .inr ⟨a, s₁, rfl, (run_bind_ok hm).symm.trans h⟩

/-- A sequence that returns is one of parts that return. -/
theorem run_bind_eq_ok {b : β} (h : (m >>= f).run.run s = some (.ok b, s')) :
    ∃ a s₁, m.run.run s = some (.ok a, s₁) ∧ (f a).run.run s₁ = some (.ok b, s') := by
  cases hm : m.run.run s with
  | none =>
    rw [ExceptT.run_bind, StateT.run_bind, hm] at h
    exact absurd h nofun
  | some p =>
    obtain ⟨r, s₁⟩ := p
    cases r with
    | error e₁ => exact absurd ((run_bind_error hm).symm.trans h) nofun
    | ok a => exact ⟨a, s₁, rfl, (run_bind_ok hm).symm.trans h⟩

end Option

section Zoom

variable {τ : Type u} {get : σ → τ} {set : τ → σ → σ} {m : ExceptT ε (StateT τ n) α}

/-- A program on a part of the state. -/
def zoom (get : σ → τ) (set : τ → σ → σ) (m : ExceptT ε (StateT τ n) α) :
    ExceptT ε (StateT σ n) α :=
  ExceptT.mk fun s => m.run.run (get s) >>= fun p => pure (p.1, set p.2 s)

omit [LawfulMonad n] in
theorem run_zoom : (zoom get set m).run.run s =
    m.run.run (get s) >>= fun p => pure (p.1, set p.2 s) :=
  rfl

end Zoom

/-- `std::bad_alloc`. -/
inductive BadAlloc
  | badAlloc
  deriving DecidableEq

section Alloc

variable {σ : Type} {n : Type → Type} [Monad n] [LawfulMonad n] {ι : Type} [DecidableEq ι]
  {fail : Option ι} {site : ι} {room : Bool}

/-- An allocation. -/
def alloc (fail : Option ι) (site : ι) : ExceptT BadAlloc (StateT σ n) Unit :=
  if fail = some site then throw .badAlloc else pure ()

omit [LawfulMonad n] in
theorem run_alloc_ok (h : fail ≠ some site) (s : σ) :
    (alloc fail site : ExceptT BadAlloc (StateT σ n) Unit).run.run s = pure (.ok (), s) := by
  rw [alloc, if_neg h]
  rfl

omit [LawfulMonad n] in
theorem run_alloc_fail (s : σ) :
    (alloc (some site) site : ExceptT BadAlloc (StateT σ n) Unit).run.run s =
      pure (.error .badAlloc, s) := by
  rw [alloc, if_pos rfl]
  rfl

/-- An allocation that is made where there is no room. -/
def allocUnless (room : Bool) (fail : Option ι) (site : ι) : ExceptT BadAlloc (StateT σ n) Unit :=
  if room = true then pure () else alloc fail site

omit [LawfulMonad n] in
theorem run_allocUnless_ok (h : room = true ∨ fail ≠ some site) (s : σ) :
    (allocUnless room fail site : ExceptT BadAlloc (StateT σ n) Unit).run.run s =
      pure (.ok (), s) := by
  unfold allocUnless
  split_ifs with hroom
  · rfl
  · exact run_alloc_ok (h.resolve_left hroom) s

omit [LawfulMonad n] in
theorem run_allocUnless_fail (h : room = false) (s : σ) :
    (allocUnless room (some site) site : ExceptT BadAlloc (StateT σ n) Unit).run.run s =
      pure (.error .badAlloc, s) := by
  rw [allocUnless, if_neg (by simp [h])]
  exact run_alloc_fail s

end Alloc

end Wss.Lib
