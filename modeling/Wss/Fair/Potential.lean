import Wss.Fair.Floor
import Mathlib.Algebra.Order.Field.Basic
import Mathlib.Algebra.Field.Rat
import Mathlib.Algebra.Order.Ring.Rat
import Mathlib.Logic.Relation
import Mathlib.Tactic.Linarith
import Mathlib.Tactic.FieldSimp
import Mathlib.Tactic.Ring

/-!
# How far a class is ahead

A class may run ahead of the floor `min_vruntime_`, since its next job is offered under the vruntime
it has before the job taken last has run. `Potential` bounds this: with `n` of its jobs in flight,
each of which may still add `M / weight`, a class is never more than `(N + 1) * M / weight` ahead of
the floor (`ahead`), and never more than `N * M / weight` ahead of its own entry (`key`).

The tables and the numbers of jobs in flight are all this is about (`Clock`), and the changes of the
tables all that happens to them (`Tick`).

The floor is also what the service of a class is compared with.

Results:
* `Tick.potential`: every change keeps the classes near the floor and near their entries.
* `Tick.served`: a class gets little more than the floor rises, and while it has an entry little
  less.
-/

namespace Wss.Fair

open Wss.Lib

variable {R : Type} [Field R] [LinearOrder R] [IsStrictOrderedRing R]

/-- The tables, and how many jobs of each class are in flight. -/
structure Clock (R : Type) where
  tables : Tables R
  inFlight : ClassId → ℕ

/-- A change of the tables, by one of `N` workers or outside, in which no time above `M` is
accounted for. -/
structure Tick (M : R) (N : ℕ) (a : Clock R) (o : Op R) (a' : Clock R) : Prop where
  change : Change a.tables o a'.tables
  inFlight : ∀ id, a'.inFlight id + (valuesAt id o.elapsed).length =
    a.inFlight id + (valuesAt id o.taken).length
  workers : ∀ id, a'.inFlight id ≤ N
  bounded : ∀ x ∈ o.elapsed, 0 ≤ x.2 ∧ x.2 ≤ M

/-- How far the classes are ahead of the floor and of their entries. -/
structure Potential (M : R) (N : ℕ) (a : Clock R) : Prop where
  ok : a.tables.Ok
  workers : ∀ id, a.inFlight id ≤ N
  weight : ∀ (id : ClassId) c, a.tables.classes[id]? = some c → 0 < c.weight
  ascending : Ascending a.tables.ready
  floor : ∀ x ∈ a.tables.ready, a.tables.minVruntime ≤ x.1
  key : ∀ key (id : ClassId) c, (key, id) ∈ a.tables.ready → a.tables.classes[id]? = some c →
    key ≤ c.vruntime ∧
      c.vruntime * c.weight + a.inFlight id * M ≤ key * c.weight + N * M
  ahead : ∀ (id : ClassId) c, a.tables.classes[id]? = some c →
    c.vruntime * c.weight + a.inFlight id * M ≤ a.tables.minVruntime * c.weight + (N + 1) * M

variable {M : R} {N : ℕ} {a a' : Clock R} {o : Op R} {id : ClassId} {c : ClassState R}

omit [IsStrictOrderedRing R] in
/-- A class with an entry is at the floor or ahead of it. -/
theorem Potential.floor_le (hp : Potential M N a) (hc : a.tables.classes[id]? = some c)
    (he : c.hasEntry = true) : a.tables.minVruntime ≤ c.vruntime := by
  obtain ⟨key, hx⟩ := hp.ok.exists_entry hc ((hp.ok.entry id c hc).mp he)
  exact (hp.floor _ hx).trans (hp.key key id c hx hc).1

omit [IsStrictOrderedRing R] in
/-- The floor only rises. -/
theorem Tick.floor_le (ht : Tick M N a o a') : a.tables.minVruntime ≤ a'.tables.minVruntime := by
  obtain ⟨t, n⟩ := a
  obtain ⟨t', n'⟩ := a'
  have hch := ht.change
  simp only at hch ⊢
  cases hch with
  | take | drain => exact (le_max_left _ _).trans (stdMax_eq_max _ _).ge
  | _ => exact le_rfl

omit [IsStrictOrderedRing R] in
theorem Potential.floored (hp : Potential M N a) : Floored a.tables :=
  ⟨hp.ok, hp.weight, hp.ascending, hp.floor, fun key id c hx hc => (hp.key key id c hx hc).1⟩

/-- A change of one class and its entry. -/
theorem Potential.set {c' : ClassState R} (hp : Potential M N a) (hf : Floored a'.tables)
    (hwk : ∀ j, a'.inFlight j ≤ N) (hc : a.tables.classes[id]? = some c)
    (hcls : a'.tables.classes = (a.tables.setClass id c').classes) (hw : c'.weight = c.weight)
    (hn : ∀ j, j ≠ id → a'.inFlight j = a.inFlight j)
    (hfloor : a.tables.minVruntime ≤ a'.tables.minVruntime)
    (hother : ∀ key j, j ≠ id → (key, j) ∈ a'.tables.ready → (key, j) ∈ a.tables.ready)
    (hkey : ∀ key, (key, id) ∈ a'.tables.ready →
      c'.vruntime * c.weight + a'.inFlight id * M ≤ key * c.weight + N * M)
    (hahead : c'.vruntime * c.weight + a'.inFlight id * M ≤
      a'.tables.minVruntime * c.weight + (N + 1) * M) : Potential M N a' := by
  have hself : a'.tables.classes[id]? = some c' := by rw [hcls, Tables.setClass_self hc]
  have hne : ∀ j, j ≠ id → a'.tables.classes[j]? = a.tables.classes[j]? := fun j hj => by
    rw [hcls, Tables.setClass_of_ne hj]
  refine ⟨hf.ok, hwk, hf.weight, hf.ascending, hf.floor,
    fun key j d hx hd => ⟨hf.key key j d hx hd, ?_⟩, fun j d hd => ?_⟩
  · by_cases hj : j = id
    · subst hj
      rw [hself] at hd
      obtain rfl := Option.some.inj hd
      exact hw ▸ hkey key hx
    · rw [hn j hj]
      exact (hp.key key j d (hother key j hj hx) (hne j hj ▸ hd)).2
  · by_cases hj : j = id
    · subst hj
      rw [hself] at hd
      obtain rfl := Option.some.inj hd
      exact hw ▸ hahead
    · rw [hne j hj] at hd
      rw [hn j hj]
      have h1 := hp.ahead j d hd
      have h2 := mul_le_mul_of_nonneg_right hfloor (hp.weight j d hd).le
      linarith

/-- **Every change keeps the classes near the floor and near their entries.** -/
theorem Tick.potential (hM : 0 ≤ M) (ht : Tick M N a o a') (hp : Potential M N a) :
    Potential M N a' := by
  have hcast : ∀ {k : ℕ}, k ≤ N → (k : R) * M ≤ N * M := fun hk =>
    mul_le_mul_of_nonneg_right (Nat.cast_le.mpr hk) hM
  have hf' := ht.change.floored (fun x hx => (ht.bounded x hx).1) hp.floored
  have hrise := ht.floor_le
  obtain ⟨t, n⟩ := a
  obtain ⟨t', n'⟩ := a'
  have hch := ht.change
  have hfl := ht.inFlight
  have hwk := ht.workers
  have hbd := ht.bounded
  simp only at hch hfl hwk hf' hrise
  cases hch with
  | @create name weight hnew hpos =>
    have hn : ∀ j, n' j = n j := hfl
    refine ⟨hf'.ok, hwk, hf'.weight, hp.ascending, hp.floor, fun key j c hx hc => ?_,
      fun j c hc => ?_⟩
    · obtain ⟨d, hd, -⟩ := hp.ok.mem_ready hx
      obtain rfl := Option.some.inj (hc.symm.trans (Tables.addClass_of_some hd))
      simp only [hn]
      exact hp.key key j c hx hd
    · simp only [hn]
      rcases Tables.addClass_cases hc with h | ⟨-, rfl⟩
      · exact hp.ahead j c h
      · have h1 := hcast (hp.workers j)
        simp only [Tables.newClass, Tables.addClass]
        linarith
  | @push id c job hc he =>
    have hn : ∀ j, n' j = n j := hfl
    exact hp.set hf' hwk hc rfl rfl (fun j _ => hn j) hrise (fun _ _ _ h => h)
      (fun key hx => by simp only [hn]; exact (hp.key key id c hx hc).2)
      (by simp only [hn]; exact hp.ahead id c hc)
  | @wake id c job hc he =>
    have hn : ∀ j, n' j = n j := hfl
    -- the class has no entry yet
    have hnot : ∀ key, (key, id) ∉ t.ready := fun key hx => by
      obtain ⟨d, hd, hd', -⟩ := hp.ok.mem_ready hx
      obtain rfl := Option.some.inj (hc.symm.trans hd)
      exact absurd (he.symm.trans hd') (by simp)
    have h1 := hcast (hp.workers id)
    have h2 := hp.ahead id c hc
    have hmax := stdMax_eq_max c.vruntime t.minVruntime
    refine hp.set hf' hwk hc rfl rfl (fun j _ => hn j) hrise (fun key j hj hx => ?_)
      (fun key hx => ?_) ?_
    · rcases mem_insertEntry.mp hx with hx | hx
      · exact absurd (Prod.mk.inj hx).2 hj
      · exact hx
    · rcases mem_insertEntry.mp hx with hx | hx
      · obtain rfl := (Prod.mk.inj hx).1
        simp only [hn]
        linarith
      · exact absurd hx (hnot key)
    · simp only [hn, hmax]
      rcases max_choice c.vruntime t.minVruntime with h | h <;> rw [h]
      · exact h2
      · show t.minVruntime * c.weight + n id * M ≤ t.minVruntime * c.weight + (N + 1) * M
        linarith
  | @take id c key ready job rest hr hc hjob hrest =>
    obtain ⟨hmax, hnot, -⟩ := hp.floored.head hr
    obtain ⟨-, hstale⟩ := hp.key key id c (hr ▸ List.mem_cons_self) hc
    have hn : n' id = n id + 1 := by simpa [Op.elapsed, Op.taken] using hfl id
    have hn' : ∀ j, j ≠ id → n' j = n j := fun j hj => by
      simpa [Op.elapsed, Op.taken, valuesAt_of_ne (Ne.symm hj)] using hfl j
    refine hp.set hf' hwk hc rfl rfl hn' hrise (fun k j hj hx => ?_) (fun k hx => ?_) ?_
    · rcases mem_insertEntry.mp hx with hx | hx
      · exact absurd (Prod.mk.inj hx).2 hj
      · exact hr ▸ List.mem_cons_of_mem _ hx
    · rcases mem_insertEntry.mp hx with hx | hx
      · obtain rfl := (Prod.mk.inj hx).1
        have h1 := hcast (hwk id)
        linarith
      · exact absurd hx (hnot k)
    · simp only [hmax, hn]
      push_cast
      linarith
  | @drain id c key ready job hr hc hjob =>
    obtain ⟨hmax, hnot, -⟩ := hp.floored.head hr
    obtain ⟨-, hstale⟩ := hp.key key id c (hr ▸ List.mem_cons_self) hc
    have hn : n' id = n id + 1 := by simpa [Op.elapsed, Op.taken] using hfl id
    have hn' : ∀ j, j ≠ id → n' j = n j := fun j hj => by
      simpa [Op.elapsed, Op.taken, valuesAt_of_ne (Ne.symm hj)] using hfl j
    refine hp.set hf' hwk hc rfl rfl hn' hrise (fun k j hj hx => hr ▸ List.mem_cons_of_mem _ hx)
      (fun k hx => absurd hx (hnot k)) ?_
    simp only [hmax, hn]
    push_cast
    linarith
  | @account id c elapsed hc =>
    have hn : n' id + 1 = n id := by
      have := hfl id
      simpa [Op.elapsed, Op.taken] using this
    have hn' : ∀ j, j ≠ id → n' j = n j := fun j hj => by
      have := hfl j
      simpa [Op.elapsed, Op.taken, valuesAt_of_ne (Ne.symm hj)] using this
    obtain ⟨-, heM⟩ := hbd (id, elapsed) (List.mem_singleton_self _)
    have hw := hp.weight id c hc
    have hv : (c.account elapsed).vruntime * c.weight = c.vruntime * c.weight + elapsed := by
      simp only [ClassState.account]
      field_simp
    have hcastn : (n id : R) = n' id + 1 := by rw [← hn]; push_cast; rfl
    refine hp.set hf' hwk hc rfl rfl hn' hrise (fun _ _ _ h => h) (fun key hx => ?_) ?_
    · have h2 := (hp.key key id c hx hc).2
      simp only [hcastn] at h2
      rw [hv]
      linarith
    · have h2 := hp.ahead id c hc
      simp only [hcastn] at h2
      rw [hv]
      show _ ≤ t.minVruntime * c.weight + (N + 1) * M
      linarith

/-! ## The service of one class against the floor -/

/-- What class `i` has got since `a₀`: without an entry since then, the jobs it had in flight, else
no more than its vruntime is ahead of the floor of `a₀`. -/
structure Served (M : R) (N : ℕ) (a₀ : Clock R) (i : ClassId) (a : Clock R) : Prop where
  floor : a₀.tables.minVruntime ≤ a.tables.minVruntime
  new : a.tables.classes[i]? = none → a₀.tables.totalBusySeconds i = 0
  gain : ∀ c, a.tables.classes[i]? = some c →
    c.hasEntry = false ∧
        c.totalBusySeconds - a₀.tables.totalBusySeconds i + a.inFlight i * M ≤ N * M ∨
      c.totalBusySeconds - a₀.tables.totalBusySeconds i ≤
        N * M + (c.vruntime - a₀.tables.minVruntime) * c.weight

variable {a₀ : Clock R} {i : ClassId}

omit [IsStrictOrderedRing R] in
/-- A change of class `id`. -/
theorem Served.set {c' : ClassState R} (hs : Served M N a₀ i a) (ht : Tick M N a o a')
    (hc : a.tables.classes[id]? = some c)
    (hcls : a'.tables.classes = (a.tables.setClass id c').classes)
    (hn : ∀ j, j ≠ id → a'.inFlight j = a.inFlight j)
    (hgain : id = i →
      (c.hasEntry = false ∧
          c.totalBusySeconds - a₀.tables.totalBusySeconds i + a.inFlight i * M ≤ N * M ∨
        c.totalBusySeconds - a₀.tables.totalBusySeconds i ≤
          N * M + (c.vruntime - a₀.tables.minVruntime) * c.weight) →
      (c'.hasEntry = false ∧
          c'.totalBusySeconds - a₀.tables.totalBusySeconds i + a'.inFlight i * M ≤ N * M ∨
        c'.totalBusySeconds - a₀.tables.totalBusySeconds i ≤
          N * M + (c'.vruntime - a₀.tables.minVruntime) * c'.weight)) : Served M N a₀ i a' := by
  refine ⟨hs.floor.trans ht.floor_le, fun h => ?_, fun d hd => ?_⟩
  · by_cases hi : id = i
    · rw [hcls, ← hi, Tables.setClass_self hc] at h
      exact absurd h (by simp)
    · rw [hcls, Tables.setClass_of_ne (Ne.symm hi)] at h
      exact hs.new h
  · by_cases hi : id = i
    · subst hi
      rw [hcls, Tables.setClass_self hc] at hd
      obtain rfl := Option.some.inj hd
      exact hgain rfl (hs.gain c hc)
    · rw [hcls, Tables.setClass_of_ne (Ne.symm hi)] at hd
      rw [hn i (Ne.symm hi)]
      exact hs.gain d hd

/-- **Every change keeps what a class has got within bounds.** -/
theorem Tick.served (hM : 0 ≤ M) (ht : Tick M N a o a') (hp : Potential M N a)
    (hs : Served M N a₀ i a) : Served M N a₀ i a' := by
  have hfloor := ht.floor_le
  obtain ⟨t, n⟩ := a
  obtain ⟨t', n'⟩ := a'
  have hch := ht.change
  have hfl := ht.inFlight
  have hbd := ht.bounded
  simp only at hch hfl hfloor
  have h0 : ∀ j, (0 : R) ≤ n j * M := fun j => mul_nonneg (Nat.cast_nonneg _) hM
  cases hch with
  | @create name weight hnew hpos =>
    have hn : ∀ j, n' j = n j := hfl
    refine ⟨hs.floor, fun h => hs.new ?_, fun c hc => ?_⟩
    · refine Option.eq_none_iff_forall_ne_some.mpr fun c hc => ?_
      exact Option.some_ne_none c ((Tables.addClass_of_some hc).symm.trans h)
    · rcases Tables.addClass_cases hc with hc | ⟨hnone, rfl⟩
      · simp only [hn]
        exact hs.gain c hc
      · refine .inl ⟨rfl, ?_⟩
        have hz : a₀.tables.totalBusySeconds i = 0 := hs.new hnone
        have hwk := mul_le_mul_of_nonneg_right (Nat.cast_le (α := R).mpr (hp.workers i)) hM
        simp only [hn, hz, Tables.newClass, sub_zero, zero_add]
        exact hwk
  | @push id c job hc he =>
    refine hs.set ht hc rfl (fun j _ => hfl j) fun hi h => .inr ?_
    rcases h with ⟨h, -⟩ | h
    · exact absurd (he.symm.trans h) (by simp)
    · exact h
  | @wake id c job hc he =>
    refine hs.set ht hc rfl (fun j _ => hfl j) fun hi h => .inr ?_
    have hw := hp.weight id c hc
    have hmax := stdMax_eq_max c.vruntime t.minVruntime
    rcases h with ⟨-, h⟩ | h
    · have hv : 0 ≤ stdMax c.vruntime t.minVruntime - a₀.tables.minVruntime := by
        have := hs.floor.trans (le_max_right c.vruntime t.minVruntime)
        rw [hmax]
        linarith
      have := mul_nonneg hv hw.le
      have := h0 i
      simp only at h ⊢
      linarith
    · have hv : c.vruntime - a₀.tables.minVruntime ≤
          stdMax c.vruntime t.minVruntime - a₀.tables.minVruntime := by
        have := le_max_left c.vruntime t.minVruntime
        rw [hmax]
        linarith
      have := mul_le_mul_of_nonneg_right hv hw.le
      simp only
      linarith
  | @take id c key ready job rest hr hc hjob hrest =>
    obtain ⟨d, hd, he, -⟩ := hp.ok.mem_ready (hr ▸ List.mem_cons_self : (key, id) ∈ t.ready)
    obtain rfl := Option.some.inj (hc.symm.trans hd)
    refine hs.set ht hc rfl (fun j hj => ?_) fun hi h => .inr ?_
    · simpa [Op.elapsed, Op.taken, valuesAt_of_ne (Ne.symm hj)] using hfl j
    · rcases h with ⟨h, -⟩ | h
      · exact absurd (he.symm.trans h) (by simp)
      · exact h
  | @drain id c key ready job hr hc hjob =>
    obtain ⟨d, hd, he, -⟩ := hp.ok.mem_ready (hr ▸ List.mem_cons_self : (key, id) ∈ t.ready)
    obtain rfl := Option.some.inj (hc.symm.trans hd)
    refine hs.set ht hc rfl (fun j hj => ?_) fun hi h => .inr ?_
    · simpa [Op.elapsed, Op.taken, valuesAt_of_ne (Ne.symm hj)] using hfl j
    · rcases h with ⟨h, -⟩ | h
      · exact absurd (he.symm.trans h) (by simp)
      · exact h
  | @account id c elapsed hc =>
    refine hs.set ht hc rfl (fun j hj => ?_) fun hi h => ?_
    · simpa [Op.elapsed, Op.taken, valuesAt_of_ne (Ne.symm hj)] using hfl j
    · subst hi
      have hn : (n id : R) = n' id + 1 := by
        have : n' id + 1 = n id := by simpa [Op.elapsed, Op.taken] using hfl id
        rw [← this]
        push_cast
        rfl
      have hw := (hp.weight id c hc).ne'
      have hle := (hbd (id, elapsed) (List.mem_singleton_self _)).2
      simp only [hn] at h
      refine h.imp (fun h => ⟨h.1, ?_⟩) fun h => ?_
      · simp only [ClassState.account]
        linarith [h.2]
      · have hv : (c.vruntime + elapsed / c.weight - a₀.tables.minVruntime) * c.weight =
            (c.vruntime - a₀.tables.minVruntime) * c.weight + elapsed := by
          field_simp
          ring
        simp only [ClassState.account, hv]
        linarith

omit [IsStrictOrderedRing R] in
/-- While a class has an entry its vruntime and its service go together. -/
theorem Tick.gain (ht : Tick M N a o a') (hp : Potential M N a)
    (hc : a.tables.classes[id]? = some c) (he : c.hasEntry = true) :
    ∃ c', a'.tables.classes[id]? = some c' ∧ c'.weight = c.weight ∧
      (c'.vruntime - c.vruntime) * c.weight = c'.totalBusySeconds - c.totalBusySeconds := by
  obtain ⟨t, n⟩ := a
  obtain ⟨t', n'⟩ := a'
  have hch := ht.change
  simp only at hch hc ⊢
  have hsame : c.weight = c.weight ∧
      (c.vruntime - c.vruntime) * c.weight = c.totalBusySeconds - c.totalBusySeconds :=
    ⟨rfl, by simp⟩
  cases hch with
  | create => exact ⟨c, Tables.addClass_of_some hc, hsame⟩
  | push hd | take _ hd | drain _ hd =>
    refine Tables.exists_setClass hc hd hsame fun _ hcd => ?_
    subst hcd
    exact hsame
  | wake hd he' =>
    refine Tables.exists_setClass hc hd hsame fun _ hcd => ?_
    subst hcd
    exact absurd (he.symm.trans he') (by simp)
  | @account j d elapsed hd =>
    refine Tables.exists_setClass hc hd hsame fun _ hcd => ?_
    subst hcd
    have hw := (hp.weight id c hc).ne'
    refine ⟨rfl, ?_⟩
    simp only [ClassState.account]
    field_simp
    ring

/-! ## Along a run -/

/-- A sequence of changes, each from tables with the property `P`. -/
def Ticks (M : R) (N : ℕ) (P : Tables R → Prop) : Clock R → Clock R → Prop :=
  Relation.ReflTransGen fun a a' => P a.tables ∧ ∃ o, Tick M N a o a'

section Ticks

variable {P : Tables R → Prop}

theorem Ticks.potential (hM : 0 ≤ M) (h : Ticks M N P a a') (hp : Potential M N a) :
    Potential M N a' := by
  induction h with
  | refl => exact hp
  | tail _ ht ih =>
    obtain ⟨-, o, ht⟩ := ht
    exact ht.potential hM ih

theorem Ticks.served (hM : 0 ≤ M) (h : Ticks M N P a a') (hp : Potential M N a)
    (hs : Served M N a₀ i a) : Served M N a₀ i a' := by
  induction h with
  | refl => exact hs
  | tail hab ht ih =>
    obtain ⟨-, o, ht⟩ := ht
    exact ht.served hM (Ticks.potential hM hab hp) ih

/-- While a class has an entry, all along, its vruntime and its service go together. -/
theorem Ticks.gain (hM : 0 ≤ M) (h : Ticks M N (fun t => t.hasEntry id = true) a a')
    (hp : Potential M N a) (hc : a.tables.classes[id]? = some c) :
    ∃ c', a'.tables.classes[id]? = some c' ∧ c'.weight = c.weight ∧
      (c'.vruntime - c.vruntime) * c.weight = c'.totalBusySeconds - c.totalBusySeconds := by
  induction h with
  | refl => exact ⟨c, hc, rfl, by simp⟩
  | @tail a₁ _ hab ht ih =>
    obtain ⟨he, o, ht⟩ := ht
    obtain ⟨d, hd, hw, hv⟩ := ih
    have hp₁ : Potential M N a₁ := Ticks.potential (P := fun t => t.hasEntry id = true) hM hab hp
    rw [Tables.hasEntry_eq hd] at he
    obtain ⟨e, hd', hw', hv'⟩ := ht.gain hp₁ hd he
    refine ⟨e, hd', hw'.trans hw, ?_⟩
    rw [hw] at hv'
    linarith

/-- A class gets little more than the floor rises. -/
theorem served_le (hM : 0 ≤ M) (hp : Potential M N a') (hs : Served M N a i a')
    (hc : a'.tables.classes[i]? = some c) :
    (c.totalBusySeconds - a.tables.totalBusySeconds i) / c.weight ≤
      (2 * N + 1) * M / c.weight + (a'.tables.minVruntime - a.tables.minVruntime) := by
  have hw := hp.weight i c hc
  have hn : (0 : R) ≤ a'.inFlight i * M := mul_nonneg (Nat.cast_nonneg _) hM
  have hNM : (0 : R) ≤ N * M := mul_nonneg (Nat.cast_nonneg _) hM
  have hfloor := mul_nonneg (sub_nonneg.mpr hs.floor) hw.le
  have hgain : c.totalBusySeconds - a.tables.totalBusySeconds i ≤
      (2 * N + 1) * M + (a'.tables.minVruntime - a.tables.minVruntime) * c.weight := by
    rcases hs.gain c hc with ⟨-, h⟩ | h
    · linarith
    · have := hp.ahead i c hc
      linarith
  rw [div_le_iff₀ hw, add_mul, div_mul_cancel₀ _ hw.ne']
  exact hgain

/-- A class with an entry gets little less than the floor rises. -/
theorem served_ge (hM : 0 ≤ M) (hp : Potential M N a) (hp' : Potential M N a')
    {c' : ClassState R} (hc : a.tables.classes[id]? = some c)
    (hc' : a'.tables.classes[id]? = some c') (he : c'.hasEntry = true) (hw : c'.weight = c.weight)
    (hv : (c'.vruntime - c.vruntime) * c.weight = c'.totalBusySeconds - c.totalBusySeconds) :
    a'.tables.minVruntime - a.tables.minVruntime - (N + 1) * M / c'.weight ≤
      (c'.totalBusySeconds - c.totalBusySeconds) / c'.weight := by
  have hpos := hp.weight id c hc
  have hn : (0 : R) ≤ a.inFlight id * M := mul_nonneg (Nat.cast_nonneg _) hM
  have hfloor := mul_le_mul_of_nonneg_right (hp'.floor_le hc' he) hpos.le
  have hahead := hp.ahead id c hc
  rw [hw, le_div_iff₀ hpos, sub_mul, div_mul_cancel₀ _ hpos.ne', ← hv]
  linarith

end Ticks

end Wss.Fair
