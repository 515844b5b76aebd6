import Wss.Fair.Potential

/-!
# Weighted fair service

Every run of the scheduler is a sequence of changes of the tables with the jobs in flight, so that
`Potential.lean` applies to it.

Results:
* `Move.ticks`, `path_ticks`: the changes of a step, and of a run.
* `reachable_potential`: the classes stay near the floor.
* `weighted_fair_service`: while class `b` has an entry, any other class gets at most
  `(2 * N + 1) * M / w_a + (N + 1) * M / w_b` more service than `b`, weighted.
-/

namespace Wss.Fair

open Wss.Lib

variable {R : Type} [Field R] [LinearOrder R] [IsStrictOrderedRing R]
variable {M : R} {N : ℕ} {id : ClassId} {ω : Type} {s s' : State R N ω} {l : Label R N ω}
  {w : Fin N} {pc : WorkerPc R}

/-- `1` on the jobs of class `id`. -/
def ofClass (id : ClassId) (x : ClassId × ℕ) : ℕ := if x.1 = id then 1 else 0

/-- The tables of a state, and the jobs its workers have in flight. -/
def State.clock (s : State R N ω) : Clock R :=
  ⟨s.tables, fun id => ∑ w, (s.worker w).flight (ofClass id)⟩

/-- No job takes longer than `M`. -/
def Bounded (M : R) (_ : State R N ω) : Label R N ω → Prop
  | .account _ elapsed => 0 ≤ elapsed ∧ elapsed ≤ M
  | _ => True

instance (s : State R N ω) : DecidablePred (Bounded M s)
  | .account _ elapsed => inferInstanceAs (Decidable (0 ≤ elapsed ∧ elapsed ≤ M))
  | .client _ _ | .clientStep _ | .register _ _ | .nested _ _ | .finish _ | .worker _ | .join _ _
  | .shutdown | .control => inferInstanceAs (Decidable True)

omit [Field R] [LinearOrder R] [IsStrictOrderedRing R] in
/-- A worker has one job in flight at most. -/
theorem clock_inFlight_le (s : State R N ω) (id : ClassId) : s.clock.inFlight id ≤ N := by
  have hone : ∀ w ∈ Finset.univ, (s.worker w).flight (ofClass id) ≤ 1 := fun w _ => by
    unfold WorkerPc.flight ofClass
    cases (s.worker w).flying with
    | none => exact Nat.zero_le 1
    | some x =>
      simp only [Option.elim_some]
      split_ifs <;> omega
  have hsum := Finset.sum_le_card_nsmul Finset.univ _ 1 hone
  simpa [State.clock] using hsum

omit [Field R] [LinearOrder R] [IsStrictOrderedRing R] in
theorem ofClass_eq (id : ClassId) (x : ClassId × ℕ) :
    ofClass id x = (valuesAt id [x]).length := by
  rw [length_valuesAt, List.countP_singleton]
  simp [ofClass]

omit [Field R] [LinearOrder R] [IsStrictOrderedRing R] in
/-- A step of one worker. -/
theorem clock_inFlight_worker (hw : s'.worker = Function.update s.worker w pc) (id : ClassId) :
    s'.clock.inFlight id + (s.worker w).flight (ofClass id) =
      s.clock.inFlight id + pc.flight (ofClass id) := by
  simp only [State.clock, hw]
  exact sum_update (fun pc => pc.flight (ofClass id)) s.worker w pc

omit [Field R] [LinearOrder R] [IsStrictOrderedRing R] in
/-- A step of one worker in which it neither takes a job nor accounts for one. -/
theorem clock_inFlight_quiet (hw : s'.worker = Function.update s.worker w pc)
    (hf : pc.flying = (s.worker w).flying) : s'.clock.inFlight = s.clock.inFlight := by
  funext id
  have h := clock_inFlight_worker hw id
  rw [WorkerPc.flight, WorkerPc.flight, hf] at h
  omega

omit [IsStrictOrderedRing R] in
/-- A change of the tables by a worker. -/
theorem Tick.worker {o : Op R} (hc : Change s.tables o s'.tables)
    (hw : s'.worker = Function.update s.worker w pc)
    (hf : ∀ id, pc.flight (ofClass id) + (valuesAt id o.elapsed).length =
      (s.worker w).flight (ofClass id) + (valuesAt id o.taken).length)
    (hb : ∀ x ∈ o.elapsed, 0 ≤ x.2 ∧ x.2 ≤ M) : Tick M N s.clock o s'.clock where
  change := hc
  inFlight id := by
    have h1 := clock_inFlight_worker hw id
    have h2 := hf id
    omega
  workers := clock_inFlight_le s'
  bounded := hb

omit [IsStrictOrderedRing R] in
/-- A change of the tables by no worker. -/
theorem Tick.outside {o : Op R} {t t' : Tables R} (hc : Change t o t') (htaken : o.taken = [])
    (helapsed : o.elapsed = []) :
    Tick M N ⟨t, s.clock.inFlight⟩ o ⟨t', s.clock.inFlight⟩ where
  change := hc
  inFlight id := by rw [htaken, helapsed]; rfl
  workers := clock_inFlight_le s
  bounded := by simp [helapsed]

variable {P : Tables R → Prop}

omit [IsStrictOrderedRing R] in
/-- A new class takes no entry away. -/
theorem Change.hasEntry_create {t t' : Tables R} {name : String} {weight : R}
    (hc : Change t (.create name weight) t') (h : t.hasEntry id = true) :
    t'.hasEntry id = true := by
  cases hc
  exact (elim_addClass (f := ClassState.hasEntry) (b := false) rfl).trans h

omit [IsStrictOrderedRing R] in
/-- A step of `submit` makes two changes at most: a new class, and a job of it. -/
theorem Submitting.ticks {call : SubmitPc R} {call' : Option (SubmitPc R)} {s₁ : State R N ω}
    (hP : ∀ {t t' name weight}, Change t (.create name weight) t' → P t → P t')
    (h : Submitting s call s₁ call') (ht : s'.tables = s₁.tables)
    (hf : s'.clock.inFlight = s.clock.inFlight) (hp : P s.tables) :
    Ticks M N P s.clock s'.clock := by
  have hclock : s'.clock = ⟨s₁.tables, s.clock.inFlight⟩ := by rw [← hf, ← ht]; rfl
  rw [hclock]
  cases h with
  | count | ring | done => exact .refl
  | @enqueue job opts t₁ t id hcreate _ hpush =>
    have htick : Tick M N ⟨t₁, s.clock.inFlight⟩ (.push id job) ⟨t, s.clock.inFlight⟩ :=
      .outside hpush rfl rfl
    rcases hcreate with rfl | hcreate
    · exact .single ⟨hp, _, htick⟩
    · have htick₀ : Tick M N s.clock _ ⟨t₁, s.clock.inFlight⟩ := .outside hcreate rfl rfl
      exact .tail (.single ⟨hp, _, htick₀⟩) ⟨hP hcreate hp, _, htick⟩

variable [DecidableEq ω]

omit [IsStrictOrderedRing R] in
/-- **A step of the scheduler is a sequence of changes of the tables.** -/
theorem Move.ticks (hP : ∀ {t t' name weight}, Change t (.create name weight) t' → P t → P t')
    (hok : Bounded M s l) (h : Move s l s') (hp : P s.tables) :
    Ticks M N P s.clock s'.clock := by
  have quiet : ∀ {w pc} {s' : State R N ω}, s'.tables = s.tables →
      s'.worker = Function.update s.worker w pc → pc.flying = (s.worker w).flying →
      Ticks M N P s.clock s'.clock := fun {_ _ s'} ht hw hf => by
    have hclock : s'.clock = s.clock := by
      rw [State.clock, ht]
      exact congrArg (Clock.mk s.tables) (clock_inFlight_quiet hw hf)
    rw [hclock]
    exact .refl
  cases h with
  | client | join | shutdown | store | controlRing | joinWorker => exact .refl
  | clientStep _ hsub =>
    obtain ⟨hw, -⟩ := hsub.frame
    refine hsub.ticks hP rfl ?_ hp
    simp only [State.clock, hw]
  | nestedStep hpc hsub =>
    obtain ⟨hw, -⟩ := hsub.frame
    refine hsub.ticks hP rfl ?_ hp
    refine clock_inFlight_quiet (congrArg (Function.update · _ _) hw) ?_
    rw [hpc]
    rfl
  | register hc =>
    have htick : Tick M N s.clock _ ⟨_, s.clock.inFlight⟩ := .outside hc rfl rfl
    exact .single ⟨hp, _, htick⟩
  | nested hpc | finish hpc | current hpc | noJob hpc | deliver hpc | uncount hpc | ring hpc
  | flag hpc | noFlag hpc | noPending hpc | pending hpc | wake hpc =>
    exact quiet rfl rfl (by rw [hpc]; rfl)
  | @take w gen id job t hpc hc =>
    refine .single ⟨hp, _, .worker hc rfl (fun j => ?_) (by simp [Op.elapsed])⟩
    rw [hpc]
    exact (Nat.add_comm _ _).trans (congrArg₂ (· + ·) rfl (ofClass_eq j (id, job)))
  | @account w id job elapsed t hpc hc =>
    refine .single ⟨hp, _, .worker hc rfl (fun j => ?_) fun x hx => ?_⟩
    · have h := ofClass_eq j (id, job)
      rw [length_valuesAt] at h
      rw [hpc, show WorkerPc.flight (ofClass j) (.account id job : WorkerPc R) = _ from h]
      simp [WorkerPc.flight, WorkerPc.flying, Op.elapsed, Op.taken, length_valuesAt]
    · obtain rfl := List.mem_singleton.mp hx
      exact hok

omit [IsStrictOrderedRing R] in
/-- A run is one. -/
theorem path_ticks {tr : List (Label R N ω)}
    (hP : ∀ {t t' name weight}, Change t (.create name weight) t' → P t → P t')
    (h : (machine R N ω).Path (fun s l => Bounded M s l ∧ P s.tables) s tr s') :
    Ticks M N P s.clock s'.clock := by
  induction h with
  | nil => exact .refl
  | snoc _ hok hst ih => exact ih.trans ((step_move hst).ticks hP hok.1 hok.2)

/-- **The classes stay near the floor in every reachable state.** -/
theorem reachable_potential (hM : 0 ≤ M) (h : (machine R N ω).ReachableUnder (Bounded M) s) :
    Potential M N s.clock := by
  refine h.invariant (I := fun s => Potential M N s.clock) (fun s hs => ?_)
    fun _ _ _ _ hok hst hp => Ticks.potential (P := fun _ => True) hM
      ((step_move hst).ticks (fun _ => id) hok trivial) hp
  simp only [machine, construct] at hs
  split_ifs at hs
  obtain rfl := Option.some.inj hs
  exact
    { ok := Tables.emptyTables_ok
      workers := clock_inFlight_le _
      weight := fun _ _ h => absurd h (by simp [State.clock, emptyTables])
      ascending := List.Pairwise.nil
      floor := fun _ h => absurd h (by simp [State.clock, emptyTables])
      key := fun _ _ _ h => absurd h (by simp [State.clock, emptyTables])
      ahead := fun _ _ h => absurd h (by simp [State.clock, emptyTables]) }

omit [IsStrictOrderedRing R] in
/-- What holds of the tables all along a run holds at its start. -/
theorem path_start {tr : List (Label R N ω)}
    (h : (machine R N ω).Path (fun s l => Bounded M s l ∧ P s.tables) s tr s')
    (hp : P s'.tables) : P s.tables := by
  induction h with
  | nil => exact hp
  | snoc _ hok _ ih => exact ih hok.2

omit [DecidableEq ω] in
/-- What a class has got is nothing if there is none of this index. -/
theorem served_refl (hM : 0 ≤ M) (hp : Potential M N s.clock) (i : ClassId) :
    Served M N s.clock i s.clock where
  floor := le_rfl
  new h := by
    have h : s.tables.classes[i]? = none := h
    simp [State.clock, Tables.totalBusySeconds, h]
  gain c hc := by
    have hself : s.clock.tables.totalBusySeconds i = c.totalBusySeconds := by
      have hc : s.tables.classes[i]? = some c := hc
      simp [State.clock, Tables.totalBusySeconds, hc]
    have hNM : (0 : R) ≤ N * M := mul_nonneg (Nat.cast_nonneg _) hM
    rw [hself, sub_self]
    by_cases he : c.hasEntry = true
    · have := mul_nonneg (sub_nonneg.mpr (hp.floor_le hc he)) (hp.weight i c hc).le
      exact .inr (by linarith)
    · have := mul_le_mul_of_nonneg_right (Nat.cast_le (α := R).mpr (hp.workers i)) hM
      exact .inl ⟨by simpa using he, by linarith⟩

/-- **Weighted fair service: while `b` has an entry, no class gets more than `b` but for a
constant.** -/
theorem weighted_fair_service {M : ℚ} {s s' : State ℚ N ω}
    {tr : List (Label ℚ N ω)} {a b : ClassId} {ca cb : ClassState ℚ} (hM : 0 ≤ M)
    (hs : (machine ℚ N ω).ReachableUnder (Bounded M) s)
    (hrun : (machine ℚ N ω).Path (fun t l => Bounded M t l ∧ t.tables.hasEntry b = true) s tr s')
    (hb : s'.tables.hasEntry b = true) (hca : s'.tables.classes[a]? = some ca)
    (hcb : s'.tables.classes[b]? = some cb) :
    (s'.tables.totalBusySeconds a - s.tables.totalBusySeconds a) / ca.weight -
        (s'.tables.totalBusySeconds b - s.tables.totalBusySeconds b) / cb.weight ≤
      (2 * N + 1) * M / ca.weight + (N + 1) * M / cb.weight := by
  have hp := reachable_potential hM hs
  have hticks : Ticks M N (fun t => t.hasEntry b = true) s.clock s'.clock :=
    path_ticks (fun hc h => hc.hasEntry_create h) hrun
  have hp' := Ticks.potential hM hticks hp
  have hserved : Served M N s.clock a s'.clock := Ticks.served hM hticks hp (served_refl hM hp a)
  have hb₀ : s.tables.hasEntry b = true := 
    path_start (P := fun t => t.hasEntry b = true) hrun hb
  obtain ⟨c, hc⟩ : ∃ c, s.tables.classes[b]? = some c := by
    unfold Tables.hasEntry at hb₀
    cases hc : s.tables.classes[b]? with
    | none => simp [hc] at hb₀
    | some c => exact ⟨c, rfl⟩
  obtain ⟨cb', hcb', hw, hv⟩ := Ticks.gain hM hticks hp hc
  obtain rfl := Option.some.inj (hcb.symm.trans hcb')
  rw [Tables.hasEntry_eq hcb] at hb
  have h1 := served_le hM hp' hserved hca
  have h2 := served_ge hM hp hp' hc hcb' hb hw hv
  have hb0 : s.tables.totalBusySeconds b = c.totalBusySeconds := by
    simp [Tables.totalBusySeconds, hc]
  have hb1 : s'.tables.totalBusySeconds b = cb.totalBusySeconds := by
    simp [Tables.totalBusySeconds, hcb]
  have ha1 : s'.tables.totalBusySeconds a = ca.totalBusySeconds := by
    simp [Tables.totalBusySeconds, hca]
  rw [hb0, hb1, ha1]
  have ha0 : s.clock.tables.totalBusySeconds a = s.tables.totalBusySeconds a := rfl
  rw [ha0] at h1
  linarith

/-- Two jobs of one class are filed, and one of another. -/
def fileThree : List (Label ℚ 1 Unit) :=
  fileJob ⟨"batch", 1⟩ ++ fileJob ⟨"batch", 1⟩ ++ fileJob ⟨"interactive", 4⟩

/-- The worker runs a job of each. -/
def runTwo : List (Label ℚ 1 Unit) :=
  let w : Fin 1 := ⟨0, Nat.one_pos⟩
  [.worker w, .worker w, .finish w, .worker w, .worker w, .worker w, .account w (1 / 2),
    .worker w, .worker w, .finish w, .worker w, .worker w, .worker w, .account w (1 / 2)]

theorem weighted_fair_service_two : ∃ (s s' : State ℚ 1 Unit) (ca cb : ClassState ℚ),
    (machine ℚ 1 Unit).Path (fun t l => Bounded 1 t l ∧ t.tables.hasEntry 0 = true) s runTwo s' ∧
      ca.weight = 4 ∧ cb.weight = 1 ∧ s'.tables.totalBusySeconds 1 = 1 / 2 ∧
      (s'.tables.totalBusySeconds 1 - s.tables.totalBusySeconds 1) / ca.weight -
          (s'.tables.totalBusySeconds 0 - s.tables.totalBusySeconds 0) / cb.weight ≤
        (2 * (1 : ℕ) + 1) * 1 / ca.weight + ((1 : ℕ) + 1) * 1 / cb.weight := by
  let s₀ : State ℚ 1 Unit := (construct ℚ 1 Unit).get (by decide)
  let s := ((machine ℚ 1 Unit).execUnder (Bounded 1) s₀ fileThree).get (by decide +kernel)
  let s' := ((machine ℚ 1 Unit).execUnder
    (fun t l => Bounded 1 t l ∧ t.tables.hasEntry 0 = true) s runTwo).get (by decide +kernel)
  let ca := (s'.tables.classes[1]?).get (by decide +kernel)
  let cb := (s'.tables.classes[0]?).get (by decide +kernel)
  have hs : (machine ℚ 1 Unit).ReachableUnder (Bounded 1) s :=
    ⟨fileThree, s₀, (Option.some_get _).symm,
      Machine.execUnder_path (Option.some_get _).symm⟩
  have hrun : (machine ℚ 1 Unit).Path
      (fun t l => Bounded 1 t l ∧ t.tables.hasEntry 0 = true) s runTwo s' :=
    Machine.execUnder_path (Option.some_get _).symm
  exact ⟨s, s', ca, cb, hrun, by decide +kernel, by decide +kernel, by decide +kernel,
    weighted_fair_service zero_le_one hs hrun (by decide +kernel) (Option.some_get _).symm
      (Option.some_get _).symm⟩

end Wss.Fair
