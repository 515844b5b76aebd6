import Wss.Lib.Machine
import Mathlib.Logic.Function.Basic

/-!
# Linearizability

A concurrent object is linearizable when every history of calls and returns on it can be explained
by a sequential object that each operation visits at one moment between its call and its return.

* `SeqSpec`: the sequential object, a relation, so that an operation may have several results.
* `Canonical`: the sequential object with the calls in progress on it. Its actions are calls,
  returns and linearization points, and a point is enabled only inside its own call.
* `Linearizable S h`: some run of `Canonical` has the history `h`.

Results:
* `linearizable_of_simulation`: a machine that `Canonical` simulates is linearizable.
* `linearizable_of_observed`: the same, where the state shows what a call returns.
-/

namespace Wss.Lib

universe u v w

variable {σ : Type u} {Θ : Type v} {Op Res : Type w}

/-- A sequential object. `apply s op r s'`: in `s` the operation may return `r` and leave `s'`. -/
structure SeqSpec (σ : Type u) (Op Res : Type w) where
  init : σ
  apply : σ → Op → Res → σ → Prop

/-- What a history shows of the threads `Θ`. -/
inductive Event (Θ : Type v) (Op Res : Type w)
  | call (θ : Θ) (op : Op)
  | ret (θ : Θ) (r : Res)

/-- A thread's call: not there, before its linearization point, after it. -/
inductive Status (Op Res : Type w)
  | idle
  | called (op : Op)
  | done (r : Res)

/-- The sequential object with the calls in progress. -/
structure Canonical (σ : Type u) (Θ : Type v) (Op Res : Type w) where
  value : σ
  status : Θ → Status Op Res

/-- An action: an event of the history, or a linearization point. -/
inductive Action (Θ : Type v) (Op Res : Type w)
  | event (e : Event Θ Op Res)
  | point (θ : Θ) (op : Op) (r : Res)

/-- The event of an action, none for a linearization point. -/
def Action.event? : Action Θ Op Res → Option (Event Θ Op Res)
  | .event e => some e
  | .point _ _ _ => none

namespace Canonical

variable [DecidableEq Θ]

/-- The call of thread `θ` goes on. -/
def setStatus (c : Canonical σ Θ Op Res) (θ : Θ) (st : Status Op Res) : Canonical σ Θ Op Res :=
  { c with status := Function.update c.status θ st }

@[simp] theorem setStatus_self (c : Canonical σ Θ Op Res) (θ : Θ) (st : Status Op Res) :
    (c.setStatus θ st).status θ = st :=
  Function.update_self _ _ _

theorem setStatus_of_ne (c : Canonical σ Θ Op Res) {θ θ' : Θ} (st : Status Op Res) (h : θ' ≠ θ) :
    (c.setStatus θ st).status θ' = c.status θ' :=
  Function.update_of_ne h _ _

/-- A thread calls, its call takes effect on the object, or it returns what it got there. -/
inductive Step (S : SeqSpec σ Op Res) :
    Canonical σ Θ Op Res → Action Θ Op Res → Canonical σ Θ Op Res → Prop
  | call {c θ op} : c.status θ = .idle → Step S c (.event (.call θ op)) (c.setStatus θ (.called op))
  | point {c θ op r v} : c.status θ = .called op → S.apply c.value op r v →
      Step S c (.point θ op r) { c.setStatus θ (.done r) with value := v }
  | ret {c θ r} : c.status θ = .done r → Step S c (.event (.ret θ r)) (c.setStatus θ .idle)

/-- Several steps. -/
inductive Run (S : SeqSpec σ Op Res) :
    Canonical σ Θ Op Res → List (Action Θ Op Res) → Canonical σ Θ Op Res → Prop
  | nil {c} : Run S c [] c
  | cons {c c' c'' a as} : Step S c a c' → Run S c' as c'' → Run S c (a :: as) c''

theorem Run.trans {S : SeqSpec σ Op Res} {c c' c'' : Canonical σ Θ Op Res}
    {as as' : List (Action Θ Op Res)} (h : Run S c as c') (h' : Run S c' as' c'') :
    Run S c (as ++ as') c'' := by
  induction h with
  | nil => exact h'
  | cons hst _ ih => exact .cons hst (ih h')

theorem Run.single {S : SeqSpec σ Op Res} {c c' : Canonical σ Θ Op Res} {a : Action Θ Op Res}
    (h : Step S c a c') : Run S c [a] c' :=
  .cons h .nil

/-- No call in progress on the initial object. -/
def start (S : SeqSpec σ Op Res) : Canonical σ Θ Op Res := ⟨S.init, fun _ => .idle⟩

end Canonical

variable [DecidableEq Θ]

/-- **Linearizability** of a history: there is a run of the sequential object, with one point for
each completed operation, between its call and its return, that has this history. -/
def Linearizable (S : SeqSpec σ Op Res) (h : List (Event Θ Op Res)) : Prop :=
  ∃ as c, Canonical.Run S (Canonical.start S) as c ∧ as.filterMap Action.event? = h

/-- **The simulation rule.** `view` maps the states of a machine to the sequential object, and a
step of the machine is matched by actions with the same events. -/
theorem linearizable_of_simulation {τ : Type u} {Λ : Type v} {M : Machine τ Λ}
    {S : SeqSpec σ Op Res} {ev : Λ → Option (Event Θ Op Res)} {view : τ → Canonical σ Θ Op Res}
    {ok : τ → Λ → Prop} (hinit : ∀ s, M.init s → view s = Canonical.start S)
    (hstep : ∀ s l s', M.ReachableUnder ok s → ok s l → M.step s l = some s' →
      ∃ as, Canonical.Run S (view s) as (view s') ∧ as.filterMap Action.event? = (ev l).toList)
    {tr : List Λ} {s : τ} (h : M.Run ok tr s) : Linearizable S (tr.filterMap ev) := by
  suffices hrun : ∃ as, Canonical.Run S (Canonical.start S) as (view s) ∧
      as.filterMap Action.event? = tr.filterMap ev from
    hrun.elim fun as h => ⟨as, view s, h⟩
  refine h.invariant (I := fun tr s => ∃ as, Canonical.Run S (Canonical.start S) as (view s) ∧
    as.filterMap Action.event? = tr.filterMap ev) (fun s h₀ => ?_) fun tr s l s' hr hok hst ih => ?_
  · exact ⟨[], by rw [hinit s h₀]; exact .nil, rfl⟩
  · obtain ⟨as, hrun, has⟩ := ih
    obtain ⟨bs, hrun', hbs⟩ := hstep s l s' ⟨tr, hr⟩ hok hst
    refine ⟨as ++ bs, hrun.trans hrun', ?_⟩
    rw [List.filterMap_append, List.filterMap_append, has, hbs]
    cases hev : ev l <;> simp [hev]

/-- The same for a machine whose events are read off its state and label. -/
theorem linearizable_of_observed {τ : Type u} {Λ : Type v} {M : Machine τ Λ}
    {S : SeqSpec σ Op Res} {ev : τ → Λ → Option (Event Θ Op Res)} {view : τ → Canonical σ Θ Op Res}
    {ok : τ → Λ → Prop} (hinit : ∀ s, M.init s → view s = Canonical.start S)
    (hstep : ∀ s l s', M.ReachableUnder ok s → ok s l → M.step s l = some s' →
      ∃ as, Canonical.Run S (view s) as (view s') ∧ as.filterMap Action.event? = (ev s l).toList)
    {tr : List Λ} {s₀ s : τ} (h₀ : M.init s₀) (h : M.Path ok s₀ tr s) :
    Linearizable S (M.observe (fun s l => (ev s l).toList) s₀ tr) := by
  suffices hrun : ∃ as, Canonical.Run S (Canonical.start S) as (view s) ∧
      as.filterMap Action.event? = M.observe (fun s l => (ev s l).toList) s₀ tr from
    hrun.elim fun as h => ⟨as, view s, h⟩
  induction h with
  | nil => exact ⟨[], by rw [hinit s₀ h₀]; exact .nil, rfl⟩
  | snoc hp hok hst ih =>
    obtain ⟨as, hrun, has⟩ := ih
    obtain ⟨bs, hrun', hbs⟩ := hstep _ _ _ ⟨_, s₀, h₀, hp⟩ hok hst
    refine ⟨as ++ bs, hrun.trans hrun', ?_⟩
    rw [List.filterMap_append, has, hbs, hp.observe_snoc hst]

end Wss.Lib
