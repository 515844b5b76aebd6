import Wss.Fair.Floor

/-!
# A class woken at the floor gets its turn

Where a job is filed under a class that has no entry and is not ahead of the floor, the new entry
gets the floor as its key. From then on every entry is put behind it: no key is below the floor, and
`std::multimap` puts an entry behind those with an equal key. So the entries before it are those
that were there, and each dispatch takes one of them away (`Waits`).

Results:
* `Effect.waits`, `path_waits`: what is still before the entry, after a step and along a run.
* `woken_class_turn`: with `m` entries before it, a class is dispatched no later than the dispatch
  number `m + 1`.
-/

namespace Wss.Fair

open Wss.Lib

variable {R : Type} [Field R] [LinearOrder R] [IsStrictOrderedRing R]

/-- Class `id` has an entry at the floor, with at most `k` entries before it. -/
def Waits (id : ClassId) (k : ℕ) (t : Tables R) : Prop :=
  ∃ before key after, t.ready = before ++ (key, id) :: after ∧ before.length ≤ k ∧
    key ≤ t.minVruntime

variable {t t' : Tables R} {o : Op R} {id j : ClassId} {c : ClassState R} {k : ℕ}

omit [Field R] [IsStrictOrderedRing R] in
/-- An entry with a key from the floor on goes behind one at the floor. -/
theorem insert_behind {before after : List (R × ClassId)} {key v : R}
    (hasc : Ascending (before ++ (key, id) :: after)) (hle : key ≤ v) :
    ∃ after', insertEntry v j (before ++ (key, id) :: after) = before ++ (key, id) :: after' := by
  have hle' : ∀ x ∈ before ++ [(key, id)], ¬ v < x.1 := by
    intro x hx
    rcases List.mem_append.mp hx with hx | hx
    · exact not_lt.mpr (((List.pairwise_append.mp hasc).2.2 x hx _ List.mem_cons_self).trans hle)
    · obtain rfl := List.mem_singleton.mp hx
      exact not_lt.mpr hle
  refine ⟨insertEntry v j after, ?_⟩
  rw [List.append_cons, insertEntry_behind hle', ← List.append_cons]

omit [IsStrictOrderedRing R] in
/-- A change that takes no entry leaves the class where it is. -/
theorem Change.waits (hf : Floored t) (hw : Waits id k t) (h : Change t o t')
    (ho : ∀ j job, o ≠ .take j job) : Waits id k t' := by
  obtain ⟨before, key, after, hr, hlen, hkey⟩ := hw
  cases h with
  | create | push | account => exact ⟨before, key, after, hr, hlen, hkey⟩
  | take | drain => exact absurd rfl (ho _ _)
  | @wake j c job hc he =>
    have hle : key ≤ stdMax c.vruntime t.minVruntime :=
      hkey.trans (stdMax_eq_max c.vruntime t.minVruntime ▸ le_max_right _ _)
    obtain ⟨after', hins⟩ := insert_behind (j := j) (hr ▸ hf.ascending) hle
    exact ⟨before, key, after', (congrArg _ hr).trans hins, hlen, hkey⟩

omit [IsStrictOrderedRing R] in
/-- An entry taken is that of the class, or one before it. -/
theorem Change.waits_take {job : ℕ} (hf : Floored t) (hw : Waits id k t)
    (h : Change t (.take j job) t') : j = id ∨ ∃ k', k = k' + 1 ∧ Waits id k' t' := by
  obtain ⟨before, key, after, hr, hlen, hkey⟩ := hw
  cases before with
  | nil =>
    refine .inl ?_
    cases h with
    | take hr' | drain hr' =>
      exact (Prod.mk.inj (List.cons.inj (hr'.symm.trans hr)).1).2
  | cons x before =>
    obtain ⟨k', rfl⟩ := Nat.exists_eq_succ_of_ne_zero (by simp at hlen; omega : k ≠ 0)
    have hlen' : before.length ≤ k' := Nat.le_of_succ_le_succ hlen
    have hmin : ∀ {a : R}, key ≤ stdMax t.minVruntime a := fun {a} =>
      hkey.trans (stdMax_eq_max t.minVruntime a ▸ le_max_left _ _)
    refine .inr ⟨k', rfl, ?_⟩
    cases h with
    | @drain _ c key' ready _ hr' hc hjob =>
      obtain ⟨-, hready⟩ := List.cons.inj (hr'.symm.trans hr)
      exact ⟨before, key, after, hready, hlen', hmin⟩
    | @take _ c key' ready _ rest hr' hc hjob hrest =>
      obtain ⟨hx, hready⟩ := List.cons.inj (hr'.symm.trans hr)
      have hmem : (key', j) ∈ t.ready := hr' ▸ List.mem_cons_self
      have hle : key ≤ c.vruntime :=
        hkey.trans ((hf.floor _ hmem).trans (hf.key key' j c hmem hc))
      have hasc : Ascending ready := (hr' ▸ hf.ascending).tail
      obtain ⟨after', hins⟩ := insert_behind (j := j) (hready ▸ hasc) hle
      exact ⟨before, key, after', (congrArg _ hready).trans hins, hlen', hmin⟩

section Run

variable {N : ℕ} {ω : Type} {s s₁ s' : State R N ω} {l : Label R N ω} {tr : List (Label R N ω)}

theorem Effect.waits (hf : Floored s.tables) (hw : Waits id k s.tables) (h : Effect s l t) :
    dispatched s l = [] ∧ Waits id k t ∨ ∃ key j, dispatched s l = [(key, j)] ∧
      (j = id ∨ ∃ k', k = k' + 1 ∧ Waits id k' t) := by
  cases h with
  | quiet _ hd => exact .inl ⟨hd, hw⟩
  | register _ hd _ hc => exact .inl ⟨hd, hc.waits hf hw (by simp)⟩
  | account _ hd _ hc => exact .inl ⟨hd, hc.waits hf hw (by simp)⟩
  | take _ hd _ _ hc => exact .inr ⟨_, _, hd, hc.waits_take hf hw⟩
  | file _ hd _ h1 _ h3 =>
    rcases h1 with rfl | h1
    · exact .inl ⟨hd, h3.waits hf hw (by simp)⟩
    · have hf₁ := h1.floored (by simp [Op.elapsed]) hf
      exact .inl ⟨hd, h3.waits hf₁ (h1.waits hf hw (by simp)) (by simp)⟩

variable [DecidableEq ω]

/-- Along a run the class is among the first `k + 1` dispatched, or still waits behind fewer. -/
theorem path_waits (hs : (machine R N ω).ReachableUnder Timed s₁) (hw : Waits id k s₁.tables)
    (h : (machine R N ω).Path Timed s₁ tr s') :
    id ∈ ((dispatches s₁ tr).take (k + 1)).map Prod.snd ∨
      ∃ k', k' + (dispatches s₁ tr).length = k ∧ Waits id k' s'.tables := by
  induction h with
  | nil => exact .inr ⟨k, rfl, hw⟩
  | @snoc tr t t' l hp hok hst ih =>
    have hsnoc : dispatches s₁ (tr ++ [l]) = dispatches s₁ tr ++ dispatched t l :=
      hp.observe_snoc hst
    rw [hsnoc, List.take_append, List.map_append, List.length_append]
    rcases ih with hmem | ⟨k', hk, hw'⟩
    · exact .inl (List.mem_append_left _ hmem)
    · have hf : Floored t.tables := reachable_floored (hs.path hp)
      rcases (step_effect hst).waits hf hw' with ⟨hd, hw'⟩ | ⟨key, j, hd, rfl | ⟨k'', rfl, hw''⟩⟩
      · exact .inr ⟨k', by rw [hd]; exact hk, hw'⟩
      · refine .inl (List.mem_append_right _ ?_)
        rw [hd, List.take_of_length_le (by rw [List.length_singleton]; omega)]
        exact List.mem_singleton_self _
      · refine .inr ⟨k'', ?_, hw''⟩
        rw [hd, List.length_singleton]
        omega

omit [IsStrictOrderedRing R] [DecidableEq ω] in
/-- A class without an entry that is not ahead of the floor gets one at the floor. -/
theorem Change.waits_push {job : ℕ} (h : Change t (.push id job) t')
    (hwoken : ∀ c, t.classes[id]? = some c → c.hasEntry = false ∧ c.vruntime ≤ t.minVruntime) :
    Waits id t.ready.length t' := by
  cases h with
  | push hc he => exact absurd (he.symm.trans (hwoken _ hc).1) (by simp)
  | @wake _ c job hc he =>
    have hkey : stdMax c.vruntime t.minVruntime = t.minVruntime :=
      (stdMax_eq_max _ _).trans (max_eq_right (hwoken c hc).2)
    obtain ⟨before, after, hr, hins⟩ :=
      insertEntry_split (stdMax c.vruntime t.minVruntime) id t.ready
    refine ⟨before, _, after, hins, ?_, hkey.le⟩
    rw [hr, List.length_append]
    exact Nat.le_add_right _ _

/-- **A class woken at the floor is dispatched after at most one turn of each class that was
waiting.** -/
theorem woken_class_turn {job : ℕ} (hs : (machine R N ω).ReachableUnder Timed s)
    (hst : (machine R N ω).step s l = some s₁) (hfile : s₁.enqueued = s.enqueued ++ [(id, job)])
    (hwoken : ∀ c, s.tables.classes[id]? = some c →
      c.hasEntry = false ∧ c.vruntime ≤ s.tables.minVruntime)
    (h : (machine R N ω).Path Timed s₁ tr s')
    (hlen : s.tables.ready.length + 1 ≤ (dispatches s₁ tr).length) :
    id ∈ ((dispatches s₁ tr).take (s.tables.ready.length + 1)).map Prod.snd := by
  have hl : Timed s l := by
    cases l with
    | account w elapsed =>
      have hm : Move s (.account w elapsed) s₁ := step_move hst
      cases hm
      simp [State.setWorker] at hfile
    | _ => trivial
  obtain ⟨t₁, h1, h2⟩ := (step_move hst).files hfile
  have hw : Waits id s.tables.ready.length s₁.tables := by
    rcases h1 with rfl | ⟨name, weight, h1⟩
    · exact h2.waits_push hwoken
    · cases h1
      refine h2.waits_push fun c hc => ?_
      rcases Tables.addClass_cases hc with hc | ⟨-, rfl⟩
      · exact hwoken c hc
      · exact ⟨rfl, le_rfl⟩
  rcases path_waits (hs.next hl hst) hw h with hmem | ⟨k, hk, -⟩
  · exact hmem
  · omega

end Run

/-- A class has one more job queued when a job of another one is about to be filed. -/
def beforeWoken : List (Label ℚ 1 Unit) :=
  List.flatten [fileJob ⟨"batch", 1⟩, fileJob ⟨"batch", 1⟩, turn (1 / 2),
    [.client () ⟨"interactive", 4⟩, .clientStep ()]]

/-- It is filed, and two jobs are run. -/
def afterWoken : List (Label ℚ 1 Unit) :=
  List.flatten [List.replicate 2 (.clientStep ()), turn (1 / 2), turn (1 / 2)]

theorem woken_class_turn_two : ∃ s₁ s' : State ℚ 1 Unit,
    (machine ℚ 1 Unit).Path Timed s₁ afterWoken s' ∧
      1 ∈ ((dispatches s₁ afterWoken).take 2).map Prod.snd := by
  let M := machine ℚ 1 Unit
  let s₀ : State ℚ 1 Unit := (construct ℚ 1 Unit).get (by decide)
  let s := (M.execUnder Timed s₀ beforeWoken).get (by decide +kernel)
  let s₁ := (M.step s (.clientStep ())).get (by decide +kernel)
  let s' := (M.execUnder Timed s₁ afterWoken).get (by decide +kernel)
  have hs : M.ReachableUnder Timed s :=
    ⟨beforeWoken, s₀, (Option.some_get _).symm, Machine.execUnder_path (Option.some_get _).symm⟩
  have hst : M.step s (.clientStep ()) = some s₁ := (Option.some_get _).symm
  have h : M.Path Timed s₁ afterWoken s' := Machine.execUnder_path (Option.some_get _).symm
  have hfile : s₁.enqueued = s.enqueued ++ [(1, 2)] := by decide +kernel
  have hnew : s.tables.classes[1]? = none :=
    List.getElem?_eq_none (by decide +kernel : s.tables.classes.length ≤ 1)
  have hready : s.tables.ready.length = 1 := by decide +kernel
  have hturn := woken_class_turn hs hst hfile (fun c hc => by simp [hnew] at hc) h
    (by decide +kernel)
  rw [hready] at hturn
  exact ⟨s₁, s', h, hturn⟩

end Wss.Fair
