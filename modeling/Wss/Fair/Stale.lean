import Wss.Fair.Fairness

/-!
# How stale an entry of `FairScheduler` can be

An entry is put into `ready_` under the vruntime that its class has then, by the `submit` that wakes
the class or by the dispatch that takes its last entry, and stays there untouched until it is
dispatched (`Since`). Meanwhile no job of the class is taken, so those that complete were in flight
when the entry was put there: at most one for each worker. Their costs are what the vruntime has
moved ahead of the key.

Results:
* `staleness_bounded`: this, for every entry along every run.
* `nearly_smallest`: with one worker, the class dispatched is the one with the smallest vruntime up
  to the cost of one job.
* `stale_dispatch`: and no better than that.
-/

namespace Wss.Fair

open Wss.Lib

variable {R : Type} [Field R] [LinearOrder R] [IsStrictOrderedRing R]
variable {t t' : Tables R} {o : Op R} {id : ClassId} {c : ClassState R} {key : R}

/-! ## What the changes do to an entry -/

omit [IsStrictOrderedRing R] in
/-- An entry was there before, or is put there under the vruntime of its class. -/
theorem Change.entry (ht : t.Ok) (h : Change t o t') (hx : (key, id) ∈ t'.ready) :
    ((key, id) ∈ t.ready ∧ ∀ job, o ≠ .take id job) ∨
      (t.hasEntry id = false ∨ ∃ job, o = .take id job) ∧
        ∃ c', t'.classes[id]? = some c' ∧ c'.vruntime = key := by
  cases h with
  | create | push | account => exact .inl ⟨hx, by simp⟩
  | wake hc he =>
    rcases mem_insertEntry.mp hx with hx | hx
    · obtain ⟨rfl, rfl⟩ := Prod.mk.inj hx
      exact .inr ⟨.inl ((Tables.hasEntry_eq hc).trans he), _, Tables.setClass_self hc, rfl⟩
    · exact .inl ⟨hx, by simp⟩
  | @take j c key' ready job rest hr hc hjob hrest =>
    rcases mem_insertEntry.mp hx with hx | hx
    · obtain ⟨rfl, rfl⟩ := Prod.mk.inj hx
      exact .inr ⟨.inr ⟨job, rfl⟩, _, Tables.setClass_self hc, rfl⟩
    · refine .inl ⟨hr ▸ List.mem_cons_of_mem _ hx, fun job' he => ?_⟩
      obtain ⟨rfl, -⟩ := Op.take.inj he
      exact ht.not_mem_tail hr key hx
  | @drain j c key' ready job hr hc hjob =>
    have hx : (key, id) ∈ ready := hx
    refine .inl ⟨hr ▸ List.mem_cons_of_mem _ hx, fun job' he => ?_⟩
    obtain ⟨rfl, -⟩ := Op.take.inj he
    exact ht.not_mem_tail hr key hx

omit [IsStrictOrderedRing R] in
/-- The vruntime of a class with an entry moves with its accounts alone. -/
theorem Change.vruntime (h : Change t o t') (hc : t.classes[id]? = some c)
    (he : c.hasEntry = true) : ∃ c', t'.classes[id]? = some c' ∧ c'.weight = c.weight ∧
      c'.vruntime = c.vruntime + ((valuesAt id o.elapsed).map (· / c.weight)).sum := by
  have hsame : c.weight = c.weight ∧
      c.vruntime = c.vruntime + (([] : List R).map (· / c.weight)).sum := ⟨rfl, (add_zero _).symm⟩
  cases h with
  | create =>
    exact ⟨c, Tables.addClass_of_some hc, hsame⟩
  | push hd | take _ hd | drain _ hd =>
    refine Tables.exists_setClass hc hd hsame fun _ he => ?_
    subst he
    exact hsame
  | wake hd he' =>
    refine Tables.exists_setClass hc hd hsame fun _ hcd => ?_
    subst hcd
    exact absurd (he.symm.trans he') (by simp)
  | @account j d elapsed hd =>
    by_cases hj : id = j
    · subst hj
      obtain rfl := Option.some.inj (hc.symm.trans hd)
      refine ⟨_, Tables.setClass_self hc, rfl, ?_⟩
      simp [Op.elapsed, ClassState.account]
    · refine ⟨c, (Tables.setClass_of_ne hj).trans hc, rfl, ?_⟩
      simp [Op.elapsed, valuesAt_of_ne (Ne.symm hj)]

/-! ## What a step does to an entry -/

section Step

variable {N : ℕ} {ω : Type} {s s' : State R N ω} {l : Label R N ω}

omit [IsStrictOrderedRing R] in
theorem Effect.entry (ht : s.tables.Ok) (h : Effect s l t) (hx : (key, id) ∈ t.ready) :
    ((key, id) ∈ s.tables.ready ∧ id ∉ (dispatched s l).map Prod.snd) ∨
      (s.tables.hasEntry id = false ∨ id ∈ (dispatched s l).map Prod.snd) ∧
        ∃ c', t.classes[id]? = some c' ∧ c'.vruntime = key := by
  have hquiet : ∀ {o}, Change s.tables o t → (∀ j job, o ≠ .take j job) → dispatched s l = [] →
      ((key, id) ∈ s.tables.ready ∧ id ∉ (dispatched s l).map Prod.snd) ∨
        (s.tables.hasEntry id = false ∨ id ∈ (dispatched s l).map Prod.snd) ∧
          ∃ c', t.classes[id]? = some c' ∧ c'.vruntime = key := by
    intro o hc ho hd
    rcases hc.entry ht hx with ⟨hx, -⟩ | ⟨hnew | ⟨job, hj⟩, hc'⟩
    · exact .inl ⟨hx, by simp [hd]⟩
    · exact .inr ⟨.inl hnew, hc'⟩
    · exact absurd hj (ho _ _)
  cases h with
  | quiet _ hd => exact .inl ⟨hx, by simp [hd]⟩
  | register _ hd _ hc | account _ hd _ hc => exact hquiet hc (by simp) hd
  | @take key' j job t _ hd _ _ hc =>
    rcases hc.entry ht hx with ⟨hx, hne⟩ | ⟨hnew | ⟨job', hj⟩, hc'⟩
    · refine .inl ⟨hx, fun hmem => ?_⟩
      rw [hd] at hmem
      obtain rfl := List.mem_singleton.mp hmem
      exact hne job rfl
    · exact .inr ⟨.inl hnew, hc'⟩
    · obtain ⟨rfl, -⟩ := Op.take.inj hj
      exact .inr ⟨.inr (by rw [hd]; exact List.mem_singleton_self _), hc'⟩
  | @file job name weight t₁ t j _ hd _ h1 _ h3 =>
    rcases h1 with rfl | h1
    · exact hquiet h3 (by simp) hd
    · rcases h3.entry (h1.ok ht) hx with ⟨hx, -⟩ | ⟨hnew | ⟨job', hj⟩, hc'⟩
      · cases h1
        exact .inl ⟨hx, by simp [hd]⟩
      · refine .inr ⟨.inl ?_, hc'⟩
        cases h1
        exact (elim_addClass (f := ClassState.hasEntry) (b := false) rfl).symm.trans hnew
      · exact absurd hj (by simp)

omit [IsStrictOrderedRing R] in
theorem Effect.vruntime (h : Effect s l t) (hc : s.tables.classes[id]? = some c)
    (he : c.hasEntry = true) : ∃ c', t.classes[id]? = some c' ∧ c'.weight = c.weight ∧
      c'.vruntime = c.vruntime + ((valuesAt id (completed s l)).map (· / c.weight)).sum := by
  have hchange : ∀ {o}, Change s.tables o t → o.elapsed = completed s l →
      ∃ c', t.classes[id]? = some c' ∧ c'.weight = c.weight ∧
        c'.vruntime = c.vruntime + ((valuesAt id (completed s l)).map (· / c.weight)).sum := by
    intro o hch ho
    rw [← ho]
    exact hch.vruntime hc he
  cases h with
  | quiet _ _ hcomp => exact ⟨c, hc, rfl, by rw [hcomp]; exact (add_zero _).symm⟩
  | register _ _ hcomp hch | take _ _ hcomp _ hch | account _ _ hcomp hch =>
    exact hchange hch hcomp.symm
  | file _ _ hcomp h1 _ h3 =>
    rcases h1 with rfl | h1
    · exact hchange h3 hcomp.symm
    · obtain ⟨c₁, hc₁, hw₁, hv₁⟩ := h1.vruntime hc he
      have he₁ : c₁.hasEntry = true := by
        rw [← Tables.hasEntry_eq hc₁]
        exact h1.hasEntry_create ((Tables.hasEntry_eq hc).trans he)
      obtain ⟨c₂, hc₂, hw₂, hv₂⟩ := h3.vruntime hc₁ he₁
      refine ⟨c₂, hc₂, hw₂.trans hw₁, ?_⟩
      rw [hcomp, hv₂, hv₁]
      simp [Op.elapsed]

variable [DecidableEq ω]

omit [IsStrictOrderedRing R] in
/-- A step changes the jobs in flight by the one it takes and the one it accounts for. -/
theorem Move.inFlight (h : Move s l s') (id : ClassId) :
    s'.clock.inFlight id + (valuesAt id (completed s l)).length =
      s.clock.inFlight id + ((dispatched s l).map Prod.snd).count id := by
  have quiet : ∀ {s' : State R N ω}, s'.clock.inFlight = s.clock.inFlight → completed s l = [] →
      dispatched s l = [] → s'.clock.inFlight id + (valuesAt id (completed s l)).length =
        s.clock.inFlight id + ((dispatched s l).map Prod.snd).count id := by
    intro s' hf hcomp hd
    rw [hcomp, hd, hf]
    rfl
  cases h with
  | client | register | join | shutdown | store | controlRing | joinWorker =>
    exact quiet rfl rfl rfl
  | clientStep _ hsub =>
    obtain ⟨hw, -⟩ := hsub.frame
    exact quiet (by simp only [State.clock, hw]) rfl rfl
  | nestedStep hpc hsub =>
    obtain ⟨hw, -⟩ := hsub.frame
    refine quiet (clock_inFlight_quiet (congrArg (Function.update · _ _) hw) ?_) rfl
      (by simp [dispatched, hpc])
    rw [hpc]
    rfl
  | nested hpc | finish hpc =>
    exact quiet (clock_inFlight_quiet rfl (by rw [hpc]; rfl)) rfl rfl
  | noJob hpc hr =>
    exact quiet (clock_inFlight_quiet rfl (by rw [hpc]; rfl)) rfl (by simp [dispatched, hpc, hr])
  | current hpc | deliver hpc | uncount hpc | ring hpc | flag hpc | noFlag hpc | noPending hpc
  | pending hpc | wake hpc =>
    exact quiet (clock_inFlight_quiet rfl (by rw [hpc]; rfl)) rfl (by simp [dispatched, hpc])
  | @take w gen j job t hpc hc =>
    obtain ⟨key, hr⟩ := hc.take_head
    have hd : dispatched s (.worker w) = [(key, j)] := by
      simp [dispatched, hpc, List.take_one, hr]
    have hw : ∀ {s' : State R N ω}, s'.worker = Function.update s.worker w (.body j job none) →
        s'.clock.inFlight id = s.clock.inFlight id + if j = id then 1 else 0 := fun h => by
      simpa [hpc, WorkerPc.flight, WorkerPc.flying, ofClass] using clock_inFlight_worker h id
    rw [hw rfl, hd, List.map_singleton, List.count_singleton]
    simp [completed]
  | @account w j job elapsed t hpc hc =>
    have hcomp : completed s (.account w elapsed) = [(j, elapsed)] := by simp [completed, hpc]
    have hw : ∀ {s' : State R N ω}, s'.worker = Function.update s.worker w .current →
        s'.clock.inFlight id + (if j = id then 1 else 0) = s.clock.inFlight id := fun h => by
      simpa [hpc, WorkerPc.flight, WorkerPc.flying, ofClass] using clock_inFlight_worker h id
    rw [hcomp, length_valuesAt, List.countP_singleton]
    simp only [decide_eq_true_eq]
    exact hw rfl

end Step

/-! ## Since an entry was put there -/

section Run

variable {N : ℕ} {ω : Type} [DecidableEq ω] {s₀ s₁ s₂ s s' : State R N ω} {l : Label R N ω}
  {tr₂ tr : List (Label R N ω)}

/-- The entry `(key, id)` is put into `ready_` by the step `l` from `s₁` to `s₂`, and stays there
along `tr₂`. -/
structure Since (s₁ : State R N ω) (l : Label R N ω) (s₂ : State R N ω) (tr₂ : List (Label R N ω))
    (s : State R N ω) (key : R) (id : ClassId) : Prop where
  step : (machine R N ω).step s₁ l = some s₂
  path : (machine R N ω).Path Machine.Free s₂ tr₂ s
  fresh : s₁.tables.hasEntry id = false ∨ id ∈ (dispatched s₁ l).map Prod.snd
  entry : (key, id) ∈ s₂.tables.ready
  stays : id ∉ (dispatches s₂ tr₂).map Prod.snd

/-- Where an entry comes from, and what became of its class since then. -/
def Story (s₀ : State R N ω) (tr : List (Label R N ω)) (s : State R N ω) (key : R)
    (id : ClassId) : Prop :=
  ∃ tr₁ l tr₂ s₁ s₂ c₂ c, tr = tr₁ ++ l :: tr₂ ∧ (machine R N ω).Path Machine.Free s₀ tr₁ s₁ ∧
    Since s₁ l s₂ tr₂ s key id ∧ s₂.tables.classes[id]? = some c₂ ∧ c₂.vruntime = key ∧
    s.tables.classes[id]? = some c ∧
    (valuesAt id (completions s₂ tr₂)).length + s.clock.inFlight id ≤ N ∧
    c.vruntime - key = ((valuesAt id (completions s₂ tr₂)).map (· / c.weight)).sum

omit [IsStrictOrderedRing R] in
/-- The story of an entry goes on. -/
theorem Story.next (hs : Story s₀ tr s key id) (ht : s.tables.Ok) (hst : step s l = some s')
    (hx : (key, id) ∈ s.tables.ready) (hstay : id ∉ (dispatched s l).map Prod.snd) :
    Story s₀ (tr ++ [l]) s' key id := by
  obtain ⟨tr₁, l₁, tr₂, s₁, s₂, c₂, c, rfl, hp, hsince, hc₂, hkey, hc, hlen, hsum⟩ := hs
  have hcomp : completions s₂ (tr₂ ++ [l]) = completions s₂ tr₂ ++ completed s l :=
    hsince.path.observe_snoc hst
  have hdisp : dispatches s₂ (tr₂ ++ [l]) = dispatches s₂ tr₂ ++ dispatched s l :=
    hsince.path.observe_snoc hst
  obtain ⟨d, hd, hent, -⟩ := ht.mem_ready hx
  obtain rfl := Option.some.inj (hc.symm.trans hd)
  obtain ⟨c', hc', hw', hv'⟩ := (step_effect hst).vruntime hc hent
  refine ⟨tr₁, l₁, tr₂ ++ [l], s₁, s₂, c₂, c', by simp, hp, ⟨hsince.step,
    hsince.path.snoc trivial hst, hsince.fresh, hsince.entry, ?_⟩, hc₂, hkey, hc', ?_, ?_⟩
  · rw [hdisp, List.map_append]
    exact fun hmem => (List.mem_append.mp hmem).elim hsince.stays hstay
  · have hfl := (step_move hst).inFlight id
    rw [List.count_eq_zero.mpr hstay] at hfl
    rw [hcomp, valuesAt_append, List.length_append]
    omega
  · rw [hcomp, valuesAt_append, List.map_append, List.sum_append, hv', hw', ← hsum]
    ring

omit [IsStrictOrderedRing R] in
/-- Every entry has a story. -/
theorem path_story (h₀ : construct R N ω = some s₀)
    (h : (machine R N ω).Path Machine.Free s₀ tr s) :
    ∀ key id, (key, id) ∈ s.tables.ready → Story s₀ tr s key id := by
  induction h with
  | nil =>
    intro key id hx
    unfold construct at h₀
    split_ifs at h₀
    obtain rfl := Option.some.inj h₀
    exact absurd hx List.not_mem_nil
  | @snoc tr t t' l hp _ hst ih =>
    intro key id hx
    have ht : t.tables.Ok := reachable_ok ⟨tr, s₀, h₀, hp⟩
    rcases (step_effect hst).entry ht hx with ⟨hx', hstay⟩ | ⟨hfresh, c', hc', hkey⟩
    · exact (ih key id hx').next ht hst hx' hstay
    · refine ⟨tr, l, [], t, t', c', c', rfl, hp, ⟨hst, .nil, hfresh, hx, List.not_mem_nil⟩, hc',
        hkey, hc', ?_, ?_⟩
      · exact (Nat.zero_add _).le.trans (clock_inFlight_le t' id)
      · rw [hkey, sub_self]
        rfl

omit [IsStrictOrderedRing R] in
/-- **An entry is stale by at most one job for each worker.** -/
theorem staleness_bounded (h₀ : construct R N ω = some s₀)
    (h : (machine R N ω).Path Machine.Free s₀ tr s) (hx : (key, id) ∈ s.tables.ready) :
    ∃ tr₁ l tr₂ s₁ s₂ c₂ c, tr = tr₁ ++ l :: tr₂ ∧ (machine R N ω).Path Machine.Free s₀ tr₁ s₁ ∧
      Since s₁ l s₂ tr₂ s key id ∧ s₂.tables.classes[id]? = some c₂ ∧ c₂.vruntime = key ∧
      s.tables.classes[id]? = some c ∧ (valuesAt id (completions s₂ tr₂)).length ≤ N ∧
      c.vruntime - key = ((valuesAt id (completions s₂ tr₂)).map (· / c.weight)).sum := by
  obtain ⟨tr₁, l, tr₂, s₁, s₂, c₂, c, htr, hp, hsince, hc₂, hkey, hc, hlen, hsum⟩ :=
    path_story h₀ h key id hx
  exact ⟨tr₁, l, tr₂, s₁, s₂, c₂, c, htr, hp, hsince, hc₂, hkey, hc,
    (Nat.le_add_right _ _).trans hlen, hsum⟩

/-- **A lone worker takes the class with the smallest vruntime, up to the cost of one job.** -/
theorem nearly_smallest {s₀ s s' : State R 1 ω} {tr : List (Label R 1 ω)} {l : Label R 1 ω}
    (h₀ : construct R 1 ω = some s₀) (h : (machine R 1 ω).Path Timed s₀ tr s)
    (_ : (machine R 1 ω).step s l = some s') (hd : dispatched s l = [(key, id)]) :
    ∃ tr₁ l₁ tr₂ s₁ s₂ c, tr = tr₁ ++ l₁ :: tr₂ ∧
      (machine R 1 ω).Path Machine.Free s₀ tr₁ s₁ ∧ Since s₁ l₁ s₂ tr₂ s key id ∧
      s.tables.classes[id]? = some c ∧ c.runnable ≠ [] ∧
      (valuesAt id (completions s₂ tr₂)).length ≤ 1 ∧
      ∀ (j : ClassId) d, s.tables.classes[j]? = some d → d.runnable ≠ [] → c.vruntime ≤
        d.vruntime + ((valuesAt id (completions s₂ tr₂)).map (· / c.weight)).sum := by
  have hf : Floored s.tables := reachable_floored ⟨tr, s₀, h₀, h⟩
  obtain ⟨ready, hr⟩ := dispatched_head hd
  have hx : (key, id) ∈ s.tables.ready := hr ▸ List.mem_cons_self
  obtain ⟨tr₁, l₁, tr₂, s₁, s₂, -, c, htr, hp, hsince, -, -, hc, hlen, hstale⟩ :=
    staleness_bounded h₀ (h.mono fun _ _ _ => trivial) hx
  obtain ⟨c', hc', -, hjobs⟩ := hf.ok.mem_ready hx
  obtain rfl := Option.some.inj (hc.symm.trans hc')
  refine ⟨tr₁, l₁, tr₂, s₁, s₂, c, htr, hp, hsince, hc, hjobs, hlen, fun j d hj hrun => ?_⟩
  -- the key is the smallest, and none is ahead of the vruntime of its class
  obtain ⟨k, hk⟩ := hf.ok.exists_entry hj hrun
  have hkey : key ≤ k := (hr ▸ hf.ascending).head_le (hr ▸ hk)
  have hle : key ≤ d.vruntime := hkey.trans (hf.key k j d hk hj)
  rw [← hstale]
  linarith only [hle]

end Run

/-- A class has two jobs, and the first of them has run. -/
def oneOfTwo : List (Label ℚ 1 Unit) :=
  List.flatten [fileJob ⟨"batch", 1⟩, fileJob ⟨"batch", 1⟩, turn (1 / 2)]

theorem staleness_bounded_one : ∃ s₀ s : State ℚ 1 Unit,
    (machine ℚ 1 Unit).Path Machine.Free s₀ oneOfTwo s ∧ (0, 0) ∈ s.tables.ready ∧
      ∃ s₂ : State ℚ 1 Unit, ∃ tr₂ c, s.tables.classes[0]? = some c ∧
        (valuesAt 0 (completions s₂ tr₂)).length ≤ 1 ∧
        c.vruntime - 0 = ((valuesAt 0 (completions s₂ tr₂)).map (· / c.weight)).sum := by
  let s₀ : State ℚ 1 Unit := (construct ℚ 1 Unit).get (by decide)
  let s := ((machine ℚ 1 Unit).exec s₀ oneOfTwo).get (by decide +kernel)
  have h : (machine ℚ 1 Unit).Path Machine.Free s₀ oneOfTwo s :=
    Machine.exec_path (Option.some_get _).symm
  have hx : ((0 : ℚ), 0) ∈ s.tables.ready := by decide +kernel
  obtain ⟨-, -, tr₂, -, s₂, -, c, -, -, -, -, -, hc, hlen, hsum⟩ :=
    staleness_bounded (Option.some_get _).symm h hx
  exact ⟨s₀, s, h, hx, s₂, tr₂, c, hc, hlen, hsum⟩

/-- Two classes have two jobs each. The first job of one takes long, and that of the other does
not. -/
def longThenShort : List (Label ℚ 1 Unit) :=
  List.flatten [fileJob ⟨"long", 1⟩, fileJob ⟨"long", 1⟩, fileJob ⟨"short", 1⟩,
    fileJob ⟨"short", 1⟩, turn 10, turn 1, [.worker ⟨0, Nat.one_pos⟩]]

theorem nearly_smallest_long : ∃ s₀ s : State ℚ 1 Unit,
    (machine ℚ 1 Unit).Path Timed s₀ longThenShort s ∧
      ∃ s₂ : State ℚ 1 Unit, ∃ tr₂ c, s.tables.classes[0]? = some c ∧
        (valuesAt 0 (completions s₂ tr₂)).length ≤ 1 ∧
        ∀ (j : ClassId) d, s.tables.classes[j]? = some d → d.runnable ≠ [] → c.vruntime ≤
          d.vruntime + ((valuesAt 0 (completions s₂ tr₂)).map (· / c.weight)).sum := by
  let M := machine ℚ 1 Unit
  let s₀ : State ℚ 1 Unit := (construct ℚ 1 Unit).get (by decide)
  let s := (M.execUnder Timed s₀ longThenShort).get (by decide +kernel)
  let s' := (M.step s (.worker ⟨0, Nat.one_pos⟩)).get (by decide +kernel)
  have h : M.Path Timed s₀ longThenShort s := Machine.execUnder_path (Option.some_get _).symm
  have hst : M.step s (.worker ⟨0, Nat.one_pos⟩) = some s' := (Option.some_get _).symm
  have hd : dispatched s (.worker ⟨0, Nat.one_pos⟩) = [(0, 0)] := by decide +kernel
  obtain ⟨-, -, tr₂, -, s₂, c, -, -, -, hc, -, hlen, hle⟩ :=
    nearly_smallest (Option.some_get _).symm h hst hd
  exact ⟨s₀, s, h, s₂, tr₂, c, hc, hlen, hle⟩

/-- The lone worker takes a job of the class that is ahead, though the other one has a job too. -/
theorem stale_dispatch : ¬ ∀ (s₀ s s' : State ℚ 1 Unit) (tr : List (Label ℚ 1 Unit))
    (l : Label ℚ 1 Unit) (key : ℚ) (id : ClassId), construct ℚ 1 Unit = some s₀ →
    (machine ℚ 1 Unit).Path Timed s₀ tr s → (machine ℚ 1 Unit).step s l = some s' →
    dispatched s l = [(key, id)] → ∃ c, s.tables.classes[id]? = some c ∧
      ∀ (j : ClassId) d, s.tables.classes[j]? = some d → d.runnable ≠ [] →
        c.vruntime ≤ d.vruntime := by
  intro hall
  let M := machine ℚ 1 Unit
  let s₀ : State ℚ 1 Unit := (construct ℚ 1 Unit).get (by decide)
  let s := (M.execUnder Timed s₀ longThenShort).get (by decide +kernel)
  let s' := (M.step s (.worker ⟨0, Nat.one_pos⟩)).get (by decide +kernel)
  obtain ⟨c, hc, hle⟩ := hall s₀ s s' longThenShort (.worker ⟨0, Nat.one_pos⟩) 0 0
    (Option.some_get _).symm (Machine.execUnder_path (Option.some_get _).symm)
    (Option.some_get _).symm (by decide +kernel)
  have hlong : s.tables.classes[0]?.map ClassState.vruntime = some 10 := by decide +kernel
  have hshort : s.tables.classes[1]?.map ClassState.vruntime = some 1 := by decide +kernel
  have hjobs : s.tables.classes[1]?.map ClassState.runnable = some [3] := by decide +kernel
  obtain ⟨d, hd, hv⟩ := Option.map_eq_some_iff.mp hshort
  rw [hd, Option.map_some] at hjobs
  rw [hc, Option.map_some] at hlong
  have hlt := hle 1 d hd (by rw [Option.some.inj hjobs]; exact List.cons_ne_nil _ _)
  rw [Option.some.inj hlong, hv] at hlt
  exact absurd hlt (by norm_num)

end Wss.Fair
