import Wss.Fair.Account
import Wss.Fair.Effect
import Mathlib.Algebra.Order.Field.Basic
import Mathlib.Algebra.Field.Rat
import Mathlib.Algebra.Order.Ring.Rat

/-!
# The floor of `FairScheduler`

`min_vruntime_` and the keys in `ready_` bound each other: no key is below the floor, and none is
above the vruntime that its class has now (`Floored`). So the entry taken first is at the floor or
above it, and the floor rises to its key.

Results:
* `reachable_floored`: the keys stay between the floor and the vruntimes.
* `keys_ascend`: along a run, the keys of the entries taken never decrease.
-/

namespace Wss.Fair

open Wss.Lib

/-- The time a job took, as `steady_clock` measures it, is not negative. -/
def Timed {R : Type} [Zero R] [LE R] {N : ℕ} {ω : Type} (_ : State R N ω) : Label R N ω → Prop
  | .account _ elapsed => 0 ≤ elapsed
  | _ => True

instance {R : Type} [Zero R] [LE R] [DecidableLE R] {N : ℕ} {ω : Type} (s : State R N ω) :
    DecidablePred (Timed s)
  | .account _ elapsed => inferInstanceAs (Decidable (0 ≤ elapsed))
  | .client _ _ | .clientStep _ | .register _ _ | .nested _ _ | .finish _ | .worker _ | .join _ _
  | .shutdown | .control => inferInstanceAs (Decidable True)

variable {R : Type} [Field R] [LinearOrder R] [IsStrictOrderedRing R]

/-- The floor, the keys and the vruntimes. -/
structure Floored (t : Tables R) : Prop where
  ok : t.Ok
  weight : ∀ (id : ClassId) c, t.classes[id]? = some c → 0 < c.weight
  ascending : Ascending t.ready
  floor : ∀ x ∈ t.ready, t.minVruntime ≤ x.1
  key : ∀ key (id : ClassId) c, (key, id) ∈ t.ready → t.classes[id]? = some c → key ≤ c.vruntime

variable {t t' : Tables R} {o : Op R} {id : ClassId} {c c' : ClassState R} {key : R}
  {ready : List (R × ClassId)}

omit [Field R] [IsStrictOrderedRing R] in
theorem stdMax_eq_max (a b : R) : stdMax a b = max a b := by
  unfold stdMax
  split_ifs with h
  · exact (max_eq_right h.le).symm
  · exact (max_eq_left (not_lt.mp h)).symm

omit [IsStrictOrderedRing R] in
/-- The first entry is the only one of its class, none is before it, and it is the next floor. -/
theorem Floored.head (hf : Floored t) (hr : t.ready = (key, id) :: ready) :
    stdMax t.minVruntime key = key ∧ (∀ k, (k, id) ∉ ready) ∧ ∀ x ∈ ready, key ≤ x.1 := by
  have hmem : (key, id) ∈ t.ready := hr ▸ List.mem_cons_self
  refine ⟨(stdMax_eq_max _ _).trans (max_eq_right (hf.floor _ hmem)), hf.ok.not_mem_tail hr,
    fun x hx => (hr ▸ hf.ascending).head_le (List.mem_cons_of_mem _ hx)⟩

omit [IsStrictOrderedRing R] in
/-- A change of one class and its entry. -/
theorem Floored.set (hf : Floored t) (hok : t'.Ok) (hc : t.classes[id]? = some c)
    (hcls : t'.classes = (t.setClass id c').classes) (hw : c'.weight = c.weight)
    (hasc : Ascending t'.ready) (hmin : ∀ x ∈ t'.ready, t'.minVruntime ≤ x.1)
    (hother : ∀ k j, j ≠ id → (k, j) ∈ t'.ready → (k, j) ∈ t.ready)
    (hkey : ∀ k, (k, id) ∈ t'.ready → k ≤ c'.vruntime) : Floored t' := by
  have hself : t'.classes[id]? = some c' := by rw [hcls, Tables.setClass_self hc]
  have hne : ∀ j, j ≠ id → t'.classes[j]? = t.classes[j]? := fun j hj => by
    rw [hcls, Tables.setClass_of_ne hj]
  refine ⟨hok, fun j d hd => ?_, hasc, hmin, fun k j d hx hd => ?_⟩
  · by_cases hj : j = id
    · rw [hj, hself] at hd
      obtain rfl := Option.some.inj hd
      exact hw ▸ hf.weight id c hc
    · exact hf.weight j d (hne j hj ▸ hd)
  · by_cases hj : j = id
    · subst hj
      rw [hself] at hd
      obtain rfl := Option.some.inj hd
      exact hkey k hx
    · exact hf.key k j d (hother k j hj hx) (hne j hj ▸ hd)

/-- **Every change keeps the keys between the floor and the vruntimes.** -/
theorem Change.floored (h : Change t o t') (he : ∀ x ∈ o.elapsed, 0 ≤ x.2) (hf : Floored t) :
    Floored t' := by
  have hok := h.ok hf.ok
  cases h with
  | @create name weight hnew hpos =>
    refine ⟨hok, fun j c hc => ?_, hf.ascending, hf.floor, fun k j c hx hc => ?_⟩
    · rcases Tables.addClass_cases hc with hc | ⟨-, rfl⟩
      · exact hf.weight j c hc
      · exact not_le.mp hpos
    · obtain ⟨d, hd, -⟩ := hf.ok.mem_ready hx
      obtain rfl := Option.some.inj (hc.symm.trans (Tables.addClass_of_some hd))
      exact hf.key k j c hx hd
  | @push id c job hc hen =>
    exact hf.set hok hc rfl rfl hf.ascending hf.floor (fun _ _ _ hx => hx)
      fun k hx => hf.key k id c hx hc
  | @wake id c job hc hen =>
    -- the class has no entry yet
    have hnot : ∀ k, (k, id) ∉ t.ready := fun k hx => by
      obtain ⟨d, hd, hd', -⟩ := hf.ok.mem_ready hx
      obtain rfl := Option.some.inj (hc.symm.trans hd)
      exact absurd (hen.symm.trans hd') (by simp)
    refine hf.set hok hc rfl rfl (hf.ascending.insert _ _) (fun x hx => ?_)
      (fun k j hj hx => ?_) fun k hx => ?_
    · rcases mem_insertEntry.mp hx with rfl | hx
      · exact stdMax_eq_max c.vruntime t.minVruntime ▸ le_max_right _ _
      · exact hf.floor x hx
    · rcases mem_insertEntry.mp hx with hx | hx
      · exact absurd (Prod.mk.inj hx).2 hj
      · exact hx
    · rcases mem_insertEntry.mp hx with hx | hx
      · exact (Prod.mk.inj hx).1.le
      · exact absurd hx (hnot k)
  | @take id c key ready job rest hr hc hjob hrest =>
    obtain ⟨hmax, hnot, hle⟩ := hf.head hr
    have hkey := hf.key key id c (hr ▸ List.mem_cons_self) hc
    refine hf.set hok hc rfl rfl ((hr ▸ hf.ascending).tail.insert _ _) (fun x hx => ?_)
      (fun k j hj hx => ?_) fun k hx => ?_
    · rcases mem_insertEntry.mp hx with rfl | hx
      · exact hmax.symm ▸ hkey
      · exact hmax.symm ▸ hle x hx
    · rcases mem_insertEntry.mp hx with hx | hx
      · exact absurd (Prod.mk.inj hx).2 hj
      · exact hr ▸ List.mem_cons_of_mem _ hx
    · rcases mem_insertEntry.mp hx with hx | hx
      · exact (Prod.mk.inj hx).1.le
      · exact absurd hx (hnot k)
  | @drain id c key ready job hr hc hjob =>
    obtain ⟨hmax, hnot, hle⟩ := hf.head hr
    exact hf.set hok hc rfl rfl (hr ▸ hf.ascending).tail (fun x hx => hmax.symm ▸ hle x hx)
      (fun k j _ hx => hr ▸ List.mem_cons_of_mem _ hx) fun k hx => absurd hx (hnot k)
  | @account id c elapsed hc =>
    have hge := div_nonneg (he (id, elapsed) (List.mem_singleton_self _)) (hf.weight id c hc).le
    exact hf.set hok hc rfl rfl hf.ascending hf.floor (fun _ _ _ hx => hx) fun k hx =>
      (hf.key k id c hx hc).trans (le_add_of_nonneg_right hge)

/-! ## Along a run -/

section Run

variable {N : ℕ} {ω : Type} {s s₀ : State R N ω} {l : Label R N ω} {tr : List (Label R N ω)}

omit [IsStrictOrderedRing R] in
theorem Timed.completed (h : Timed s l) : ∀ x ∈ completed s l, 0 ≤ x.2 := by
  intro x hx
  obtain ⟨w, rfl⟩ := mem_completed hx
  exact h

theorem Effect.floored (h : Effect s l t) (hl : Timed s l) (hf : Floored s.tables) :
    Floored t := by
  have htime := hl.completed
  cases h with
  | quiet => exact hf
  | register _ _ _ hc | take _ _ _ _ hc => exact hc.floored (by simp [Op.elapsed]) hf
  | file _ _ _ h1 _ h3 =>
    refine h3.floored (by simp [Op.elapsed]) ?_
    rcases h1 with rfl | h1
    · exact hf
    · exact h1.floored (by simp [Op.elapsed]) hf
  | account _ _ hx hc =>
    rw [hx] at htime
    exact hc.floored htime hf

omit [IsStrictOrderedRing R] in
/-- The floor is left alone, or rises to the key of the entry taken. -/
theorem Effect.floor_cases (h : Effect s l t) (hf : Floored s.tables) :
    dispatched s l = [] ∧ t.minVruntime = s.tables.minVruntime ∨
      ∃ key id, dispatched s l = [(key, id)] ∧ t.minVruntime = key ∧
        s.tables.minVruntime ≤ key := by
  cases h with
  | quiet _ hd => exact .inl ⟨hd, rfl⟩
  | register _ hd _ hc =>
    cases hc
    exact .inl ⟨hd, rfl⟩
  | file _ hd _ h1 _ h3 =>
    refine .inl ⟨hd, ?_⟩
    have h1 : _ = s.tables.minVruntime := h1.elim (congrArg Tables.minVruntime) fun h1 => by
      cases h1
      rfl
    rw [← h1]
    cases h3 <;> rfl
  | account _ hd _ hc =>
    cases hc
    exact .inl ⟨hd, rfl⟩
  | @take key id job t _ hd _ hr hc =>
    refine .inr ⟨key, id, hd, ?_⟩
    obtain ⟨ready, hready⟩ := List.head?_eq_some_iff.mp hr
    have hmax := (hf.head hready).1
    refine ⟨?_, hf.floor _ (hready ▸ List.mem_cons_self)⟩
    cases hc with
    | take hr' | drain hr' =>
      obtain ⟨he, -⟩ := List.cons.inj (hready.symm.trans hr')
      obtain ⟨rfl, -⟩ := Prod.mk.inj he
      exact hmax

omit [IsStrictOrderedRing R] in
theorem construct_floored (h₀ : construct R N ω = some s₀) :
    Floored s₀.tables ∧ s₀.tables.minVruntime = 0 := by
  unfold construct at h₀
  split_ifs at h₀
  obtain rfl := Option.some.inj h₀
  refine ⟨⟨Tables.emptyTables_ok, ?_, List.Pairwise.nil, ?_, ?_⟩, rfl⟩ <;> simp [emptyTables]

variable [DecidableEq ω]

/-- **The keys stay between the floor and the vruntimes.** -/
theorem reachable_floored (h : (machine R N ω).ReachableUnder Timed s) : Floored s.tables :=
  h.invariant (I := fun s => Floored s.tables) (fun _ h₀ => (construct_floored h₀).1)
    fun _ _ _ _ hok hst hf => (step_effect hst).floored hok hf

/-- **The floor and the dispatch keys move only forward.** -/
theorem keys_ascend (h₀ : construct R N ω = some s₀)
    (h : (machine R N ω).Path Timed s₀ tr s) :
    (∀ x ∈ s.tables.ready, s.tables.minVruntime ≤ x.1) ∧
      (∀ key (id : ClassId) c, (key, id) ∈ s.tables.ready → s.tables.classes[id]? = some c →
        key ≤ c.vruntime) ∧
      s.tables.minVruntime = ((dispatches s₀ tr).map Prod.fst).getLastD 0 ∧
      ((dispatches s₀ tr).map Prod.fst).Pairwise (· ≤ ·) := by
  have hf := reachable_floored ⟨tr, s₀, h₀, h⟩
  suffices hrun : s.tables.minVruntime = ((dispatches s₀ tr).map Prod.fst).getLastD 0 ∧
      ((dispatches s₀ tr).map Prod.fst).Pairwise (· ≤ ·) ∧
      ∀ k ∈ (dispatches s₀ tr).map Prod.fst, k ≤ s.tables.minVruntime from
    ⟨hf.floor, hf.key, hrun.1, hrun.2.1⟩
  clear hf
  induction h with
  | nil => exact ⟨(construct_floored h₀).2, .nil, fun k hk => absurd hk List.not_mem_nil⟩
  | @snoc tr t t' l hp hok hst ih =>
    have hf : Floored t.tables := reachable_floored ⟨tr, s₀, h₀, hp⟩
    obtain ⟨hlast, hpw, hle⟩ := ih
    have hsnoc : dispatches s₀ (tr ++ [l]) = dispatches s₀ tr ++ dispatched t l :=
      hp.observe_snoc hst
    rw [hsnoc, List.map_append]
    rcases (step_effect hst).floor_cases hf with ⟨hd, hmin⟩ | ⟨key, id, hd, hmin, hge⟩
    · rw [hd, List.map_nil, List.append_nil, hmin]
      exact ⟨hlast, hpw, hle⟩
    · rw [hd, List.map_singleton, List.getLastD_concat, hmin]
      refine ⟨rfl, List.pairwise_append.mpr ⟨hpw, List.pairwise_singleton _ _, ?_⟩, ?_⟩
      · intro k hk k' hk'
        obtain rfl := List.mem_singleton.mp hk'
        exact (hle k hk).trans hge
      · intro k hk
        rcases List.mem_append.mp hk with hk | hk
        · exact (hle k hk).trans hge
        · exact (List.mem_singleton.mp hk).le

end Run

/-- A job is filed from outside the pool. -/
def fileJob (opts : SubmitOptions ℚ) : List (Label ℚ 1 Unit) :=
  .client () opts :: List.replicate 4 (.clientStep ())

/-- The worker takes a job and runs it for a time. -/
def turn (elapsed : ℚ) : List (Label ℚ 1 Unit) :=
  let w : Fin 1 := ⟨0, Nat.one_pos⟩
  [.worker w, .worker w, .finish w, .worker w, .worker w, .worker w, .account w elapsed]

/-- A class has two jobs, another one has one. -/
def threeTurns : List (Label ℚ 1 Unit) :=
  List.flatten [fileJob ⟨"batch", 1⟩, fileJob ⟨"batch", 1⟩, turn (1 / 2),
    fileJob ⟨"interactive", 4⟩, turn (1 / 2), turn (1 / 2)]

theorem keys_ascend_three : ∃ s₀ s : State ℚ 1 Unit,
    (machine ℚ 1 Unit).Path Timed s₀ threeTurns s ∧
      dispatches s₀ threeTurns = [(0, 0), (0, 0), (0, 1)] ∧
      s.tables.minVruntime = ((dispatches s₀ threeTurns).map Prod.fst).getLastD 0 := by
  let s₀ : State ℚ 1 Unit := (construct ℚ 1 Unit).get (by decide)
  let s := ((machine ℚ 1 Unit).execUnder Timed s₀ threeTurns).get (by decide +kernel)
  have h : (machine ℚ 1 Unit).Path Timed s₀ threeTurns s :=
    Machine.execUnder_path (Option.some_get _).symm
  obtain ⟨-, -, hlast, -⟩ := keys_ascend (Option.some_get _).symm h
  exact ⟨s₀, s, h, by decide +kernel, hlast⟩

end Wss.Fair
