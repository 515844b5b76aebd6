import Wss.Fair.Effect
import Mathlib.Algebra.Field.Rat
import Mathlib.Algebra.Order.Ring.Rat

/-!
# The tables of `FairScheduler` stay consistent

`Tables.Ok` in the words of the source: `name_to_id_` maps the known names one to one to the indices
of `classes_`, and a class has an entry, one, exactly as long as it has jobs. What `Tables.Ok`
leaves open is where the weight of a class comes from: from the first lookup of its name along the
run (`Change.weightOf`), and no change touches it again (`Change.keeps_class`).

Nothing here is assumed of the arithmetic, so this holds of `double` as it is.

Results:
* `path_weightOf`: the weight of a class is that of the first lookup of its name.
* `dispatch_isSome`: a worker that finds an entry finds its class, and a job in it.
* `tables_consistent`: all of this, along every run.
-/

namespace Wss.Fair

open Wss.Lib

variable {R : Type}

/-- `name_to_id_` is a bijection between the known names and the indices of `classes_`. -/
structure NamesMatch (t : Tables R) : Prop where
  maps : ∀ name id, t.nameToId name = some id → ∃ c, t.classes[id]? = some c ∧ c.name = name
  injective : ∀ name name' id, t.nameToId name = some id → t.nameToId name' = some id →
    name = name'
  surjective : ∀ id < t.classes.length, ∃ name, t.nameToId name = some id

/-- The entries are those of the classes with jobs. -/
structure EntriesMatch (t : Tables R) : Prop where
  hasEntry : ∀ (id : ClassId) c, t.classes[id]? = some c →
    (c.hasEntry = true ↔ (t.ready.map Prod.snd).count id = 1)
  runnable : ∀ (id : ClassId) c, t.classes[id]? = some c → (c.hasEntry = true ↔ c.runnable ≠ [])
  none : ∀ (id : ClassId) c, t.classes[id]? = some c → c.hasEntry = false →
    (t.ready.map Prod.snd).count id = 0
  known : ∀ x ∈ t.ready, x.2 < t.classes.length

/-- The weight of the class of a name. -/
def Tables.weightOf (t : Tables R) (name : String) : Option R :=
  (t.nameToId name).bind fun id => (t.classes[id]?).map (·.weight)

variable {t t' : Tables R} {id : ClassId} {c : ClassState R} {name : String} {weight : R}

theorem Tables.Ok.namesMatch (ht : t.Ok) : NamesMatch t where
  maps name id h := (ht.names name id).mp h
  injective name name' id h h' := by
    obtain ⟨c, hc, rfl⟩ := (ht.names name id).mp h
    obtain ⟨c', hc', rfl⟩ := (ht.names name' id).mp h'
    rw [Option.some.inj (hc.symm.trans hc')]
  surjective id h :=
    ⟨_, (ht.names _ id).mpr ⟨_, List.getElem?_eq_getElem h, rfl⟩⟩

theorem Tables.Ok.entriesMatch (ht : t.Ok) : EntriesMatch t where
  hasEntry id c hc := by
    rw [ht.ready id, Tables.hasEntry_eq hc]
    split_ifs with h <;> simp [h]
  runnable := ht.entry
  none id c hc h := by rw [ht.ready id, Tables.hasEntry_eq hc, h, if_neg Bool.false_ne_true]
  known := by
    rintro ⟨key, id⟩ hx
    obtain ⟨c, hc, -⟩ := ht.mem_ready hx
    exact (List.getElem?_eq_some_iff.mp hc).1

theorem weightOf_eq (ht : t.Ok) (hc : t.classes[id]? = some c) :
    t.weightOf c.name = some c.weight := by
  rw [Tables.weightOf, (ht.names _ id).mpr ⟨c, hc, rfl⟩, Option.bind_some, hc]
  rfl

section Dispatch

variable [LT R] [DecidableLT R]

/-- **A worker that finds an entry finds its class, and a job in it.** -/
theorem dispatch_isSome (ht : t.Ok) : (dispatch t).isSome := by
  unfold dispatch
  cases hr : t.ready with
  | nil => rfl
  | cons x ready =>
    obtain ⟨key, id⟩ := x
    obtain ⟨c, hc, -, hne⟩ := ht.mem_ready (hr ▸ List.mem_cons_self : (key, id) ∈ t.ready)
    dsimp only
    rw [hc]
    dsimp only
    cases hjob : c.runnable with
    | nil => exact absurd hjob hne
    | cons job rest =>
      dsimp only
      split_ifs <;> rfl

end Dispatch

section Change

variable [Zero R] [Add R] [Div R] [LE R] [LT R] [DecidableLT R] {o : Op R}

/-- No change touches the name or the weight of a class. -/
theorem Change.keeps_class (h : Change t o t') (hc : t.classes[id]? = some c) :
    ∃ c', t'.classes[id]? = some c' ∧ c'.name = c.name ∧ c'.weight = c.weight := by
  cases h with
  | create =>
    exact ⟨c, Tables.addClass_of_some hc, rfl, rfl⟩
  | push hd | wake hd | take _ hd | drain _ hd | account hd =>
    refine Tables.exists_setClass hc hd ⟨rfl, rfl⟩ fun _ he => ?_
    subst he
    exact ⟨rfl, rfl⟩

/-- A change but for `create` leaves the names alone. -/
theorem Change.nameToId (h : Change t o t') (hne : ∀ name weight, o ≠ .create name weight) :
    t'.nameToId = t.nameToId := by
  cases h with
  | create => exact absurd rfl (hne _ _)
  | push | wake | take | drain | account => rfl

/-- The weight of a class is not touched again. -/
theorem Change.weightOf_eq (ht : t.Ok) (h : Change t o t')
    (hne : ∀ name weight, o ≠ .create name weight) (name : String) :
    t'.weightOf name = t.weightOf name := by
  unfold Tables.weightOf
  rw [h.nameToId hne]
  cases hid : t.nameToId name with
  | none => rfl
  | some id =>
    obtain ⟨c, hc, -⟩ := (ht.names name id).mp hid
    obtain ⟨c', hc', -, hw⟩ := h.keeps_class hc
    rw [Option.bind_some, Option.bind_some, hc, hc', Option.map_some, Option.map_some, hw]

/-- A new class has the weight that it is created with. -/
theorem Change.weightOf_create (ht : t.Ok) (h : Change t (.create name weight) t')
    (name' : String) : t.weightOf name = none ∧
      t'.weightOf name' = if name' = name then some weight else t.weightOf name' := by
  cases h with
  | create hnew =>
    refine ⟨by rw [Tables.weightOf, hnew]; rfl, ?_⟩
    unfold Tables.weightOf
    have hid : (t.addClass name weight).nameToId name' =
        Function.update t.nameToId name (some t.classes.length) name' := rfl
    split_ifs with hname
    · rw [hid, hname, Function.update_self, Option.bind_some, Tables.addClass_self]
      rfl
    · rw [hid, Function.update_of_ne hname]
      cases hid' : t.nameToId name' with
      | none => rfl
      | some id =>
        obtain ⟨c, hc, -⟩ := (ht.names name' id).mp hid'
        rw [Option.bind_some, Option.bind_some, hc, Tables.addClass_of_some hc]

end Change

/-! ## Along a run -/

section Run

variable [Zero R] [One R] [Add R] [Div R] [LE R] [DecidableLE R] [LT R] [DecidableLT R]
variable {N : ℕ} {ω : Type} {s s₀ s' : State R N ω} {l : Label R N ω} {tr : List (Label R N ω)}

omit [DecidableLE R] in
/-- A step gives a weight only to a class that has none. -/
theorem Effect.weightOf (ht : s.tables.Ok) (h : Effect s l t) (name : String) :
    t.weightOf name = (s.tables.weightOf name).or (valuesAt name (lookup s l)).head? := by
  have hcreate : ∀ {name' weight t₁}, Change s.tables (.create name' weight) t₁ →
      t₁.weightOf name = (s.tables.weightOf name).or (valuesAt name [(name', weight)]).head? := by
    intro name' weight t₁ hc
    obtain ⟨hnone, heq⟩ := hc.weightOf_create ht name
    rw [heq]
    by_cases hname : name = name'
    · rw [if_pos hname, hname, hnone, valuesAt_self]
      rfl
    · rw [if_neg hname, valuesAt_of_ne (Ne.symm hname)]
      exact (Option.or_none).symm
  have hsame : ∀ {o}, Change s.tables o t → (∀ name weight, o ≠ .create name weight) →
      t.weightOf name = (s.tables.weightOf name).or
        (valuesAt name ([] : List (String × R))).head? := by
    intro o hc hne
    rw [hc.weightOf_eq ht hne, valuesAt_nil]
    exact (Option.or_none).symm
  cases h with
  | quiet hl =>
    rw [hl, valuesAt_nil]
    exact (Option.or_none).symm
  | register hl _ _ hc =>
    rw [hl]
    exact hcreate hc
  | take hl _ _ _ hc | account hl _ _ hc =>
    rw [hl]
    exact hsame hc (by simp)
  | @file job name' weight t₁ t id hl _ _ h1 hid h3 =>
    rw [hl]
    rcases h1 with rfl | h1
    · rw [h3.weightOf_eq ht (by simp)]
      by_cases hname : name' = name
      · obtain ⟨c, hc, rfl⟩ := (ht.names name' id).mp hid
        rw [← hname, Fair.weightOf_eq ht hc]
        rfl
      · rw [valuesAt_of_ne hname]
        exact (Option.or_none).symm
    · rw [h3.weightOf_eq (h1.ok ht) (by simp)]
      exact hcreate h1

variable [DecidableEq ω]

theorem path_ok (h₀ : construct R N ω = some s₀)
    (h : (machine R N ω).Path Machine.Free s₀ tr s) : s.tables.Ok :=
  reachable_ok ⟨tr, s₀, h₀, h⟩

/-- The weight of a class is that of the first lookup of its name. -/
theorem path_weightOf (h₀ : construct R N ω = some s₀)
    (h : (machine R N ω).Path Machine.Free s₀ tr s) (name : String) :
    (valuesAt name (lookups s₀ tr)).head? = s.tables.weightOf name := by
  induction h with
  | nil =>
    unfold construct at h₀
    split_ifs at h₀
    obtain rfl := Option.some.inj h₀
    rfl
  | snoc hp _ hst ih =>
    have heff : Effect _ _ _ := step_effect hst
    rw [heff.weightOf (path_ok h₀ hp), ← ih, lookups, hp.observe_snoc hst, valuesAt_append,
      List.head?_append]
    rfl

theorem path_keeps_class (h : (machine R N ω).Path Machine.Free s tr s')
    (hc : s.tables.classes[id]? = some c) :
    ∃ c', s'.tables.classes[id]? = some c' ∧ c'.name = c.name ∧ c'.weight = c.weight := by
  refine h.preserves (I := fun s => ∃ c', s.tables.classes[id]? = some c' ∧ c'.name = c.name ∧
    c'.weight = c.weight) (fun t l t' _ hst hI => ?_) ⟨c, hc, rfl, rfl⟩
  refine (step_move hst).preserves (P := fun t => ∃ c', t.classes[id]? = some c' ∧
    c'.name = c.name ∧ c'.weight = c.weight) (fun hch hP => ?_) hI
  obtain ⟨c₁, hc₁, hn₁, hw₁⟩ := hP
  obtain ⟨c₂, hc₂, hn₂, hw₂⟩ := hch.keeps_class hc₁
  exact ⟨c₂, hc₂, hn₂.trans hn₁, hw₂.trans hw₁⟩

/-- **The tables of `FairScheduler` stay consistent.** -/
theorem tables_consistent (h₀ : construct R N ω = some s₀)
    (h : (machine R N ω).Path Machine.Free s₀ tr s) :
    NamesMatch s.tables ∧ EntriesMatch s.tables ∧ (dispatch s.tables).isSome ∧
      ∀ (id : ClassId) c, s.tables.classes[id]? = some c →
        (valuesAt c.name (lookups s₀ tr)).head? = some c.weight ∧
        ∀ tr' s', (machine R N ω).Path Machine.Free s tr' s' →
          ∃ c', s'.tables.classes[id]? = some c' ∧ c'.name = c.name ∧ c'.weight = c.weight := by
  have ht := path_ok h₀ h
  refine ⟨ht.namesMatch, ht.entriesMatch, dispatch_isSome ht, fun id c hc => ⟨?_, ?_⟩⟩
  · rw [path_weightOf h₀ h, weightOf_eq ht hc]
  · intro tr' s' h'
    exact path_keeps_class h' hc

end Run

/-- A class is registered with weight `4`, and a job of it submitted that asks for weight `1`. -/
def registerThenSubmit : List (Label ℚ 1 Unit) :=
  .register "interactive" 4 :: .client () ⟨"interactive", 1⟩ :: List.replicate 4 (.clientStep ())

theorem tables_consistent_one : ∃ (s₀ s : State ℚ 1 Unit) (c : ClassState ℚ),
    (machine ℚ 1 Unit).Path Machine.Free s₀ registerThenSubmit s ∧
      s.tables.classes[0]? = some c ∧ c.weight = 4 ∧ NamesMatch s.tables ∧
      (valuesAt c.name (lookups s₀ registerThenSubmit)).head? = some c.weight := by
  let s₀ : State ℚ 1 Unit := (construct ℚ 1 Unit).get (by decide)
  let s := ((machine ℚ 1 Unit).exec s₀ registerThenSubmit).get (by decide +kernel)
  let c := (s.tables.classes[0]?).get (by decide +kernel)
  have h : (machine ℚ 1 Unit).Path Machine.Free s₀ registerThenSubmit s :=
    Machine.exec_path (Option.some_get _).symm
  have hc : s.tables.classes[0]? = some c := (Option.some_get _).symm
  obtain ⟨hnames, -, -, hweight⟩ := tables_consistent (Option.some_get _).symm h
  exact ⟨s₀, s, c, h, hc, by decide +kernel, hnames, (hweight 0 c hc).1⟩

end Wss.Fair
