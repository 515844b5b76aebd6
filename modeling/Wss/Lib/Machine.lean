import Mathlib.Logic.Basic
import Mathlib.Data.List.Basic

/-!
# Labelled machines and their runs

A `Machine` is a partial, deterministic step function over labels: the label says which thread
moves and what it chooses, the function says what the move does, `none` where it cannot be made.
An interleaving of threads is a list of labels.

* `Path ok s tr s'`: the labels `tr` lead from `s` to `s'`, each taken in a state where `ok` lets
  it be taken. `ok` carries what a statement assumes of every step of a run; `Free` assumes
  nothing.
* `Run ok tr s`: such a path from an initial state. `Reachable`: the end of a free run.
* `exec`: the machine on a list of labels, to be evaluated.
* `observe f`: what `f` sees of the steps along a list of labels, in their order.

Results:
* `Run.invariant`, `ReachableUnder.invariant`: what holds initially and is kept by each step holds
  along every run. The step case may use that its source is reached by a run.
* `exec_path`, `execUnder_path`: what is evaluated is a path.
-/

namespace Wss.Lib

universe u v

/-- States, initial states, and what each label does. -/
structure Machine (σ : Type u) (Λ : Type v) where
  init : σ → Prop
  step : σ → Λ → Option σ

namespace Machine

variable {σ : Type u} {Λ : Type v} (M : Machine σ Λ)

/-- No assumption on the steps of a run. -/
def Free : σ → Λ → Prop := fun _ _ => True

/-- The labels `tr` lead from `s` to the last state, each step allowed by `ok`. -/
inductive Path (ok : σ → Λ → Prop) (s : σ) : List Λ → σ → Prop
  | nil : Path ok s [] s
  | snoc {tr : List Λ} {t t' : σ} {l : Λ} :
      Path ok s tr t → ok t l → M.step t l = some t' → Path ok s (tr ++ [l]) t'

/-- A path from an initial state. -/
def Run (ok : σ → Λ → Prop) (tr : List Λ) (s : σ) : Prop := ∃ s₀, M.init s₀ ∧ M.Path ok s₀ tr s

/-- The states the runs that respect `ok` end in. -/
def ReachableUnder (ok : σ → Λ → Prop) (s : σ) : Prop := ∃ tr, M.Run ok tr s

/-- The states some run ends in. -/
def Reachable (s : σ) : Prop := M.ReachableUnder Free s

/-- The machine on a list of labels, `none` at the first one it cannot take. -/
def exec (s : σ) : List Λ → Option σ
  | [] => some s
  | l :: ls => (M.step s l).bind fun s' => exec s' ls

/-- The same, `none` also at the first label that `ok` does not let it take. -/
def execUnder (ok : σ → Λ → Prop) [∀ s l, Decidable (ok s l)] (s : σ) : List Λ → Option σ
  | [] => some s
  | l :: ls => if ok s l then (M.step s l).bind fun s' => execUnder ok s' ls else none

/-- What `f` sees of the steps that the machine takes on a list of labels. -/
def observe {α : Type*} (f : σ → Λ → List α) (s : σ) : List Λ → List α
  | [] => []
  | l :: ls => f s l ++ (M.step s l).elim [] fun s' => observe f s' ls

variable {M} {ok ok' : σ → Λ → Prop} {s t t' : σ} {tr tr' : List Λ} {l : Λ}

theorem Path.trans (h : M.Path ok s tr t) (h' : M.Path ok t tr' t') :
    M.Path ok s (tr ++ tr') t' := by
  induction h' with
  | nil => rwa [List.append_nil]
  | snoc _ hok hst ih => rw [← List.append_assoc]; exact ih.snoc hok hst

theorem Path.cons (hok : ok s l) (hst : M.step s l = some t) (h : M.Path ok t tr t') :
    M.Path ok s (l :: tr) t' :=
  (Path.nil.snoc hok hst).trans h

/-- A path under a stronger assumption is one under a weaker. -/
theorem Path.mono (h : M.Path ok s tr t) (hle : ∀ s l, ok s l → ok' s l) :
    M.Path ok' s tr t := by
  induction h with
  | nil => exact .nil
  | snoc _ hok hst ih => exact ih.snoc (hle _ _ hok) hst

/-- The labels of a path are those of its trace. -/
theorem Path.mem (h : M.Path ok s tr t) : M.Path (fun s l => ok s l ∧ l ∈ tr) s tr t := by
  induction h with
  | nil => exact .nil
  | snoc _ hok hst ih =>
    exact (ih.mono fun _ _ h => ⟨h.1, List.mem_append_left _ h.2⟩).snoc
      ⟨hok, List.mem_append_right _ (List.mem_singleton_self _)⟩ hst

/-- What each allowed step keeps, a path keeps. -/
theorem Path.preserves {I : σ → Prop}
    (hstep : ∀ t l t', ok t l → M.step t l = some t' → I t → I t') (h : M.Path ok s tr t)
    (hs : I s) : I t := by
  induction h with
  | nil => exact hs
  | snoc _ hok hst ih => exact hstep _ _ _ hok hst ih

theorem Run.free (h : M.Run ok tr s) : M.Run Free tr s :=
  ⟨h.choose, h.choose_spec.1, h.choose_spec.2.mono fun _ _ _ => trivial⟩

theorem Run.snoc (h : M.Run ok tr s) (hok : ok s l) (hst : M.step s l = some t) :
    M.Run ok (tr ++ [l]) t :=
  ⟨h.choose, h.choose_spec.1, h.choose_spec.2.snoc hok hst⟩

/-- **The invariant rule**, for a property of the trace and the state. -/
theorem Run.invariant {I : List Λ → σ → Prop} (hinit : ∀ s, M.init s → I [] s)
    (hstep : ∀ tr s l s', M.Run ok tr s → ok s l → M.step s l = some s' → I tr s →
      I (tr ++ [l]) s') (h : M.Run ok tr s) : I tr s := by
  obtain ⟨s₀, h₀, hp⟩ := h
  induction hp with
  | nil => exact hinit _ h₀
  | snoc hp hok hst ih => exact hstep _ _ _ _ ⟨s₀, h₀, hp⟩ hok hst ih

theorem ReachableUnder.reachable (h : M.ReachableUnder ok s) : M.Reachable s :=
  h.elim fun tr hr => ⟨tr, hr.free⟩

theorem ReachableUnder.mono (h : M.ReachableUnder ok s) (hle : ∀ s l, ok s l → ok' s l) :
    M.ReachableUnder ok' s := by
  obtain ⟨tr, s₀, h₀, hp⟩ := h
  exact ⟨tr, s₀, h₀, hp.mono hle⟩

theorem ReachableUnder.next (h : M.ReachableUnder ok s) (hok : ok s l)
    (hst : M.step s l = some t) : M.ReachableUnder ok t :=
  h.elim fun _ hr => ⟨_, hr.snoc hok hst⟩

theorem ReachableUnder.path (h : M.ReachableUnder ok s) (hp : M.Path ok s tr t) :
    M.ReachableUnder ok t := by
  obtain ⟨tr₀, s₀, h₀, hp₀⟩ := h
  exact ⟨tr₀ ++ tr, s₀, h₀, hp₀.trans hp⟩

/-- **The invariant rule**, for a property of the state alone. -/
theorem ReachableUnder.invariant {I : σ → Prop} (hinit : ∀ s, M.init s → I s)
    (hstep : ∀ s l s', M.ReachableUnder ok s → ok s l → M.step s l = some s' → I s → I s')
    (h : M.ReachableUnder ok s) : I s := by
  obtain ⟨tr, hr⟩ := h
  exact hr.invariant (I := fun _ s => I s) hinit fun tr s l s' hr => hstep s l s' ⟨tr, hr⟩

theorem Reachable.next (h : M.Reachable s) (hst : M.step s l = some t) : M.Reachable t :=
  ReachableUnder.next h trivial hst

theorem exec_snoc : ∀ {tr : List Λ} {s : σ}, M.exec s tr = some t →
    M.exec s (tr ++ [l]) = M.step t l
  | [], s, h => by
    obtain rfl := Option.some.inj h
    simp [exec]
  | _ :: _, s, h => by
    obtain ⟨s', hst, h'⟩ := Option.bind_eq_some_iff.mp h
    simp only [List.cons_append, exec, hst, Option.bind_some]
    exact exec_snoc h'

/-- A path is what the machine computes. -/
theorem Path.exec (h : M.Path ok s tr t) : M.exec s tr = some t := by
  induction h with
  | nil => rfl
  | snoc _ _ hst ih => rw [exec_snoc ih, hst]

theorem exec_path : ∀ {tr : List Λ} {s : σ}, M.exec s tr = some t → M.Path Free s tr t
  | [], s, h => by
    obtain rfl := Option.some.inj h
    exact .nil
  | l :: ls, s, h => by
    obtain ⟨s', hst, h'⟩ := Option.bind_eq_some_iff.mp h
    exact .cons trivial hst (exec_path h')

theorem execUnder_path [∀ s l, Decidable (ok s l)] : ∀ {tr : List Λ} {s : σ},
    M.execUnder ok s tr = some t → M.Path ok s tr t
  | [], s, h => by
    obtain rfl := Option.some.inj h
    exact .nil
  | l :: ls, s, h => by
    unfold execUnder at h
    split_ifs at h with hok
    obtain ⟨s', hst, h'⟩ := Option.bind_eq_some_iff.mp h
    exact .cons hok hst (execUnder_path h')

/-- What is seen along a path is seen first. -/
theorem observe_append {α : Type*} {f : σ → Λ → List α} : ∀ {tr : List Λ} {s : σ},
    M.exec s tr = some t → M.observe f s (tr ++ tr') = M.observe f s tr ++ M.observe f t tr'
  | [], s, h => by
    obtain rfl := Option.some.inj h
    rfl
  | l :: ls, s, h => by
    obtain ⟨s', hst, h'⟩ := Option.bind_eq_some_iff.mp h
    rw [List.cons_append, observe, observe, hst, Option.elim_some, Option.elim_some,
      observe_append h', List.append_assoc]

theorem Path.observe_snoc {α : Type*} {f : σ → Λ → List α} (h : M.Path ok s tr t)
    (hst : M.step t l = some t') : M.observe f s (tr ++ [l]) = M.observe f s tr ++ f t l := by
  rw [observe_append h.exec, observe, hst, Option.elim_some, observe, List.append_nil]

/-- A state computed from an initial one is reachable. -/
theorem reachable_of_exec (h₀ : M.init s) (h : M.exec s tr = some t) : M.Reachable t :=
  ⟨tr, s, h₀, exec_path h⟩

end Machine

end Wss.Lib
