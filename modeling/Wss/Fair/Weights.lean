import Wss.Fair.Account
import Wss.Fair.Consistent
import Wss.Lib.Ieee

/-!
# The weights that `FairScheduler` admits

`R` is `Ieee K`: the `double` of the source, with its infinities and its NaN. `submit` turns a
weight that is not positive into `1` with `opts.weight > 0.0`; `find_or_create_class_locked` rejects
one with `weight <= 0.0`. NaN passes the second check, and `register_class` makes no other. The
class then has a vruntime of NaN after its first job, and a key of NaN after its second.

Results:
* `path_sound`: in a run where no class is registered with a weight of NaN, every weight is positive
  and every vruntime and key is finite (`Sound`).
* `path_nan_weight`: a class that was registered with one keeps it.
* `admitted_iff`: so this is the only way in.
-/

namespace Wss.Fair

open Wss.Lib

variable {K : Type} [Field K] [LinearOrder K]

/-- No weight breaks the dispatch order. -/
structure Admitted (t : Tables (Ieee K)) : Prop where
  weight : ∀ (id : ClassId) c, t.classes[id]? = some c → 0 < c.weight
  vruntime : ∀ (id : ClassId) c, t.classes[id]? = some c → c.vruntime ≠ .nan
  key : ∀ x ∈ t.ready, x.1 ≠ .nan
  total : ∀ x ∈ t.ready, ∀ y ∈ t.ready, x.1 ≤ y.1 ∨ y.1 ≤ x.1

/-- The time a job took, as `steady_clock` measures it, is finite and not negative. -/
def Measured {N : ℕ} {ω : Type} (_ : State (Ieee K) N ω) : Label (Ieee K) N ω → Prop
  | .account _ elapsed => elapsed.IsFin ∧ 0 ≤ elapsed
  | _ => True

instance {N : ℕ} {ω : Type} (s : State (Ieee K) N ω) : DecidablePred (Measured s)
  | .account _ elapsed => inferInstanceAs (Decidable (elapsed.IsFin ∧ 0 ≤ elapsed))
  | .client _ _ | .clientStep _ | .register _ _ | .nested _ _ | .finish _ | .worker _ | .join _ _
  | .shutdown | .control => inferInstanceAs (Decidable True)

/-- Weights are positive, and what is computed from them is finite. -/
structure Sound (t : Tables (Ieee K)) : Prop where
  classes : ∀ c ∈ t.classes, 0 < c.weight ∧ c.vruntime.IsFin
  ready : ∀ x ∈ t.ready, x.1.IsFin
  floor : t.minVruntime.IsFin

variable {t t' : Tables (Ieee K)} {o : Op (Ieee K)} {id : ClassId} {c c' : ClassState (Ieee K)}
  {key : Ieee K}

theorem Sound.admitted (h : Sound t) : Admitted t where
  weight _ _ hc := (h.classes _ (List.mem_of_getElem? hc)).1
  vruntime _ _ hc := (h.classes _ (List.mem_of_getElem? hc)).2.ne_nan
  key x hx := (h.ready x hx).ne_nan
  total x hx y hy := (h.ready x hx).le_total (h.ready y hy)

omit [Field K] in
theorem isFin_stdMax {x y : Ieee K} (hx : x.IsFin) (hy : y.IsFin) : (stdMax x y).IsFin := by
  unfold stdMax
  split_ifs
  · exact hy
  · exact hx

omit [Field K] in
theorem isFin_insertEntry {ready : List (Ieee K × ClassId)} (h : ∀ x ∈ ready, x.1.IsFin)
    (hk : key.IsFin) : ∀ x ∈ insertEntry key id ready, x.1.IsFin := by
  intro x hx
  rcases mem_insertEntry.mp hx with rfl | hx
  · exact hk
  · exact h x hx

/-- A change of one class. -/
theorem Sound.setClass (h : Sound t) (hc : 0 < c.weight ∧ c.vruntime.IsFin) :
    ∀ d ∈ (t.setClass id c).classes, 0 < d.weight ∧ d.vruntime.IsFin := by
  intro d hd
  rcases List.mem_or_eq_of_mem_set hd with hd | rfl
  · exact h.classes d hd
  · exact hc

/-- **A change that admits no weight of NaN keeps the tables sound.** -/
theorem Change.sound (h : Change t o t')
    (hw : ∀ name weight, o = .create name weight → weight ≠ .nan)
    (he : ∀ x ∈ o.elapsed, x.2.IsFin) (hs : Sound t) : Sound t' := by
  have hclass : ∀ {id : ClassId} {c}, t.classes[id]? = some c → 0 < c.weight ∧ c.vruntime.IsFin :=
    fun hc => hs.classes _ (List.mem_of_getElem? hc)
  have hfirst : ∀ {key} {id : ClassId} {ready}, t.ready = (key, id) :: ready →
      key.IsFin ∧ ∀ x ∈ ready, x.1.IsFin := fun hr => List.forall_mem_cons.mp (hr ▸ hs.ready)
  cases h with
  | @create name weight hnew hpos =>
    refine ⟨fun c hc => ?_, hs.ready, hs.floor⟩
    rcases List.mem_append.mp hc with hc | hc
    · exact hs.classes c hc
    · obtain rfl := List.mem_singleton.mp hc
      exact ⟨Ieee.pos_of_not_le (hw name weight rfl) hpos, hs.floor⟩
  | push hc =>
    have hpos := hclass hc
    exact ⟨hs.setClass hpos, hs.ready, hs.floor⟩
  | wake hc =>
    have hv := isFin_stdMax (hclass hc).2 hs.floor
    exact ⟨hs.setClass ⟨(hclass hc).1, hv⟩, isFin_insertEntry hs.ready hv, hs.floor⟩
  | take hr hc =>
    have hpos := hclass hc
    obtain ⟨hkey, hready⟩ := hfirst hr
    exact ⟨hs.setClass hpos, isFin_insertEntry hready hpos.2, isFin_stdMax hs.floor hkey⟩
  | drain hr hc =>
    have hpos := hclass hc
    obtain ⟨hkey, hready⟩ := hfirst hr
    exact ⟨hs.setClass hpos, hready, isFin_stdMax hs.floor hkey⟩
  | @account id c elapsed hc =>
    have hfin : elapsed.IsFin := he (id, elapsed) (List.mem_singleton_self _)
    have hv := (hclass hc).2.add (hfin.div (hclass hc).1)
    exact ⟨hs.setClass ⟨(hclass hc).1, hv⟩, hs.ready, hs.floor⟩

/-! ## Along a run -/

section Run

variable [IsStrictOrderedRing K] {N : ℕ} {ω : Type} {s s₀ s' : State (Ieee K) N ω}
  {l : Label (Ieee K) N ω} {tr : List (Label (Ieee K) N ω)}

omit [IsStrictOrderedRing K] in
theorem Measured.completed (h : Measured s l) : ∀ x ∈ completed s l, x.2.IsFin := by
  intro x hx
  obtain ⟨w, rfl⟩ := mem_completed hx
  exact h.1

/-- The weight that `submit` gives to a new class is positive. -/
theorem ieee_classWeight_pos (opts : SubmitOptions (Ieee K)) : 0 < opts.classWeight := by
  unfold SubmitOptions.classWeight
  split_ifs with h
  · exact h
  · exact Ieee.zero_lt_one

/-- A weight of NaN comes from `register_class`. -/
theorem lookup_ne_nan (hl : ∀ name, l ≠ .register name .nan) : ∀ x ∈ lookup s l, x.2 ≠ .nan := by
  intro x hx hnan
  rcases mem_lookup hx with rfl | ⟨opts, rfl⟩
  · exact hl x.1 (congrArg _ hnan)
  · have hpos := ieee_classWeight_pos opts
    rw [show opts.classWeight = .nan from hnan] at hpos
    exact Ieee.not_pos_nan hpos

omit [IsStrictOrderedRing K] in
theorem Effect.sound (h : Effect s l t) (hw : ∀ x ∈ lookup s l, x.2 ≠ .nan)
    (he : ∀ x ∈ completed s l, x.2.IsFin) (hs : Sound s.tables) : Sound t := by
  have hnone : ∀ x ∈ ([] : List (ClassId × Ieee K)), x.2.IsFin :=
    fun x hx => absurd hx List.not_mem_nil
  cases h with
  | quiet => exact hs
  | register hl _ _ hc =>
    rw [hl] at hw
    refine hc.sound (fun name weight ho => ?_) hnone hs
    obtain ⟨rfl, rfl⟩ := Op.create.inj ho
    exact hw _ (List.mem_singleton_self _)
  | take _ _ _ _ hc => exact hc.sound nofun hnone hs
  | account _ _ hx hc =>
    rw [hx] at he
    exact hc.sound nofun he hs
  | file hl _ _ h1 _ h3 =>
    rw [hl] at hw
    refine h3.sound nofun hnone ?_
    rcases h1 with rfl | h1
    · exact hs
    · refine h1.sound (fun name weight ho => ?_) hnone hs
      obtain ⟨rfl, rfl⟩ := Op.create.inj ho
      exact hw _ (List.mem_singleton_self _)

variable [DecidableEq ω]

theorem path_sound (h₀ : construct (Ieee K) N ω = some s₀)
    (h : (machine (Ieee K) N ω).Path Measured s₀ tr s) (htr : ∀ name, .register name .nan ∉ tr) :
    Sound s.tables := by
  refine h.mem.preserves (I := fun s => Sound s.tables) (fun t l t' hl hst hs => ?_) ?_
  · refine (step_effect hst).sound (lookup_ne_nan fun name hn => ?_) hl.1.completed hs
    exact htr name (hn ▸ hl.2)
  · unfold construct at h₀
    split_ifs at h₀
    obtain rfl := Option.some.inj h₀
    exact ⟨by simp [emptyTables], by simp [emptyTables], Ieee.isFin_zero⟩

omit [IsStrictOrderedRing K] in
/-- A class registered with a weight of NaN is there for good. -/
theorem path_nan_weight {name : String} (h : (machine (Ieee K) N ω).Path Measured s₀ tr s)
    (hmem : .register name .nan ∈ tr) :
    ∃ (id : ClassId) (c : ClassState (Ieee K)), s.tables.classes[id]? = some c ∧
      c.weight = .nan := by
  induction h with
  | nil => exact absurd hmem List.not_mem_nil
  | @snoc tr t t' l hp _ hst ih =>
    rcases List.mem_append.mp hmem with hmem | hmem
    · obtain ⟨id, c, hc, hnan⟩ := ih hmem
      obtain ⟨c', hc', -, hw⟩ := path_keeps_class (.snoc .nil trivial hst) hc
      exact ⟨id, c', hc', hw.trans hnan⟩
    · obtain rfl := List.mem_singleton.mp hmem
      have hm : Move t (.register name .nan) t' := step_move hst
      cases hm with
      | register hc =>
        cases hc
        exact ⟨_, _, List.getElem?_concat_length, rfl⟩

/-- **No weight but one of NaN at `register_class` can break the dispatch order.** -/
theorem admitted_iff (h₀ : construct (Ieee K) N ω = some s₀)
    (h : (machine (Ieee K) N ω).Path Measured s₀ tr s) :
    Admitted s.tables ↔ ∀ name, .register name .nan ∉ tr := by
  constructor
  · intro hadm name hmem
    obtain ⟨id, c, hc, hnan⟩ := path_nan_weight h hmem
    exact Ieee.not_pos_nan (hnan ▸ hadm.weight id c hc)
  · exact fun htr => (path_sound h₀ h htr).admitted

end Run

/-- A job is filed from outside the pool. -/
def fileWith (weight : Ieee ℚ) : List (Label (Ieee ℚ) 1 Unit) :=
  .client () ⟨"batch", weight⟩ :: List.replicate 4 (.clientStep ())

/-- The worker takes a job and runs it. -/
def turnOf (elapsed : Ieee ℚ) : List (Label (Ieee ℚ) 1 Unit) :=
  let w : Fin 1 := ⟨0, Nat.one_pos⟩
  [.worker w, .worker w, .finish w, .worker w, .worker w, .worker w, .account w elapsed]

/-- Weights of NaN and of `-∞` are submitted and one of `∞` is registered, which does no harm. -/
def submitNan : List (Label (Ieee ℚ) 1 Unit) :=
  List.flatten [[.register "interactive" .posInf], fileWith .nan, fileWith .negInf,
    turnOf (.fin (1 / 2))]

theorem admitted_iff_submit : ∃ s₀ s : State (Ieee ℚ) 1 Unit,
    (machine (Ieee ℚ) 1 Unit).Path Measured s₀ submitNan s ∧ Admitted s.tables := by
  let s₀ : State (Ieee ℚ) 1 Unit := (construct (Ieee ℚ) 1 Unit).get (by decide)
  let s := ((machine (Ieee ℚ) 1 Unit).execUnder Measured s₀ submitNan).get (by decide +kernel)
  have h : (machine (Ieee ℚ) 1 Unit).Path Measured s₀ submitNan s :=
    Machine.execUnder_path (Option.some_get _).symm
  refine ⟨s₀, s, h, (admitted_iff (Option.some_get _).symm h).mpr fun name hmem => ?_⟩
  simp [submitNan, fileWith, turnOf] at hmem

/-- A class is registered with a weight of NaN, and two of its three jobs run. -/
def registerNan : List (Label (Ieee ℚ) 1 Unit) :=
  List.flatten [[.register "batch" .nan], fileWith (.fin 1), fileWith (.fin 1), fileWith (.fin 1),
    turnOf (.fin (1 / 2)), turnOf (.fin (1 / 2))]

/-- Then it has an entry with a key of NaN. -/
theorem not_admitted : ¬ ∀ (s₀ s : State (Ieee ℚ) 1 Unit) (tr : List (Label (Ieee ℚ) 1 Unit)),
    construct (Ieee ℚ) 1 Unit = some s₀ → (machine (Ieee ℚ) 1 Unit).Path Measured s₀ tr s →
    Admitted s.tables := by
  intro hall
  let s₀ : State (Ieee ℚ) 1 Unit := (construct (Ieee ℚ) 1 Unit).get (by decide)
  let s := ((machine (Ieee ℚ) 1 Unit).execUnder Measured s₀ registerNan).get (by decide +kernel)
  have hadm := hall s₀ s registerNan (Option.some_get _).symm
    (Machine.execUnder_path (Option.some_get _).symm)
  have hkey : (.nan, 0) ∈ s.tables.ready := by decide +kernel
  exact hadm.key _ hkey rfl

end Wss.Fair
