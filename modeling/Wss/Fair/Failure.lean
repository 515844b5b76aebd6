import Wss.Fair.Step
import Wss.Lib.Throwing
import Mathlib.Algebra.Order.Field.Basic

/-!
# `FairScheduler::submit` with a failing allocation

After `pending_.fetch_add`, `submit` copies the class name and wraps the job, and in the critical
section the containers grow. Which of these operations allocate is not all up to this code: a
wrapped job and the nodes of `name_to_id_` and `ready_` are allocated whenever they are made, but a
string may be short enough to be stored in place, and a deque or a vector may have room. `Library`
is what the standard library does in a call where that is open.

A container that throws is as it was, but for `classes_`, whose elements may have been moved when a
reallocation fails. What was done before stays done. `wrapAndFile lib fail job opts` is this part of
`submit` as a program that may throw, on the tables. `submit` is a whole call that no other thread
interrupts, and `failing` the scheduler in which any call may make an allocation that fails: a call
that throws is over.

Results:
* `wrapAndFile_completes`, `submit_completes`: a call that does not make the failing allocation is
  that of `Model.lean`.
* `wrapAndFile_throws`, `submit_throws`: a call that makes it throws, and has counted its job in
  `pending_`; `leftover` is what it leaves in the tables.
* `restores_iff`: so a call of which an allocation fails leaves the scheduler as it was exactly if
  it does not make that allocation.
-/

namespace Wss.Fair

open Wss.Lib

/-- The allocations of `submit`. -/
inductive Site
  /-- The copy of the class name. -/
  | className
  | wrap
  /-- The state of a new class, with a copy of its name. -/
  | classState
  /-- `classes_.push_back`. -/
  | classes
  /-- `name_to_id_.emplace`. -/
  | nameToId
  /-- `runnable.push_back`. -/
  | runnable
  /-- `ready_.insert`. -/
  | ready
  deriving DecidableEq

/-- What the standard library does in a call of `submit`, where this code leaves it open. -/
structure Library (R : Type) where
  /-- The class name is copied without an allocation. -/
  className : Bool
  /-- The state of a class is made without an allocation, with its copy of the name. -/
  classState : Bool
  /-- `classes_` has capacity left. -/
  classes : Bool
  /-- The last node of `runnable` has room. -/
  runnable : Bool
  /-- What a `classes_.push_back` that throws leaves of the `i`-th class: a class that was moved to
  the larger buffer already has lost its name, for one. -/
  moved : ℕ → ClassState R → ClassState R

/-- A program on what `mu_` guards, `none` where it would read a class that is not there. -/
abbrev Exec (R α : Type) := ExceptT BadAlloc (StateT (Tables R) Option) α

variable {R : Type}

section Code

variable [Zero R] [LE R] [DecidableLE R] [LT R] [DecidableLT R]

/-- `classes_.push_back`. -/
def pushClass (lib : Library R) (fail : Option Site) (c : ClassState R) : Exec R Unit :=
  if lib.classes = false ∧ fail = some .classes then do
    modify fun t => { t with classes := t.classes.mapIdx lib.moved }
    throw .badAlloc
  else modify fun t => { t with classes := t.classes ++ [c] }

/-- `find_or_create_class_locked`. -/
def findOrCreate (lib : Library R) (fail : Option Site) (name : String) (weight : R) :
    Exec R ClassId := do
  let t ← get
  match t.nameToId name with
  | some id => pure id
  | none =>
    if weight ≤ 0 then liftM (none : Option ClassId)
    else
      let id := t.classes.length
      allocUnless lib.classState fail .classState
      pushClass lib fail (t.newClass name weight)
      alloc fail .nameToId
      modify fun t => { t with nameToId := Function.update t.nameToId name (some id) }
      pure id

/-- The critical section of `submit` once the class is known. -/
def pushJob (lib : Library R) (fail : Option Site) (id : ClassId) (job : ℕ) : Exec R Unit := do
  let t ← get
  let c ← (liftM t.classes[id]? : Exec R (ClassState R))
  allocUnless lib.runnable fail .runnable
  let c := { c with runnable := c.runnable ++ [job] }
  modify fun t => t.setClass id c
  if c.hasEntry then pure ()
  else
    let c := { c with vruntime := stdMax c.vruntime t.minVruntime }
    modify fun t => t.setClass id c
    alloc fail .ready
    modify fun t => { t with ready := insertEntry c.vruntime id t.ready }
    modify fun t => t.setClass id { c with hasEntry := true }

/-- What `submit` does before it notifies. -/
def wrapAndFile [One R] (lib : Library R) (fail : Option Site) (job : ℕ) (opts : SubmitOptions R) :
    Exec R ClassId := do
  allocUnless lib.className fail .className
  alloc fail .wrap
  let id ← findOrCreate lib fail opts.name opts.classWeight
  pushJob lib fail id job
  pure id

variable {N : ℕ} {ω : Type} [One R]

/-- `submit`. -/
def submit (lib : Library R) (fail : Option Site) (s : State R N ω) (job : ℕ)
    (opts : SubmitOptions R) : Option (Except BadAlloc Unit × State R N ω) :=
  let s := { s with pending := s.pending + 1 }
  ((wrapAndFile lib fail job opts).run.run s.tables).map fun (r, t) =>
    let s := { s with tables := t }
    match r with
    | .error e => (.error e, s)
    | .ok id => (.ok (), { s with enqueued := s.enqueued ++ [(id, job)], gen := s.gen + 1 })

/-- What the threads do where allocations may fail. -/
inductive FailLabel (R : Type) (N : ℕ) (ω : Type)
  | run (l : Label R N ω)
  /-- The call of a thread outside the pool throws: its allocation at `site` fails. -/
  | client (c : ω) (lib : Library R) (site : Site)
  /-- The call of the job worker `w` runs throws. -/
  | nested (w : Fin N) (lib : Library R) (site : Site)

/-- A call throws in the next step of it. -/
def throwSubmit (s : State R N ω) (lib : Library R) (site : Site) :
    SubmitPc R → Option (State R N ω)
  | .enqueue job opts =>
    match (wrapAndFile lib (some site) job opts).run.run s.tables with
    | some (.error _, t) => some { s with tables := t }
    | _ => none
  | _ => none

variable [Add R] [Div R] [DecidableEq ω]

/-- What each label does. -/
def stepFailing (s : State R N ω) : FailLabel R N ω → Option (State R N ω)
  | .run l => step s l
  | .client c lib site =>
    (s.client c).bind fun call => (throwSubmit s lib site call).map fun s =>
      { s with client := Function.update s.client c none }
  | .nested w lib site =>
    match s.worker w with
    | .body id job (some call) =>
      (throwSubmit s lib site call).map (·.setWorker w (.body id job none))
    | _ => none

end Code

/-- A scheduler whose allocations may fail. -/
def failing (R : Type) [Zero R] [One R] [Add R] [Div R] [LE R] [DecidableLE R] [LT R]
    [DecidableLT R] (N : ℕ) (ω : Type) [DecidableEq ω] :
    Machine (State R N ω) (FailLabel R N ω) where
  init s := construct R N ω = some s
  step := stepFailing

/-! ## The critical section -/

variable {t : Tables R} {lib : Library R} {fail : Option Site} {site : Site} {name : String}
  {weight : R}
  {id : ClassId} {job : ℕ} {c : ClassState R} {opts : SubmitOptions R}

section Create

theorem pushClass_completes (hf : lib.classes = true ∨ fail ≠ some .classes) (c : ClassState R)
    (t : Tables R) : (pushClass lib fail c).run.run t =
      some (.ok (), { t with classes := t.classes ++ [c] }) := by
  rw [pushClass, if_neg fun h => hf.elim (by simp [h.1]) (absurd h.2)]
  exact run_modify _

/-- The classes that are there may have been moved. -/
theorem pushClass_throws (h : lib.classes = false) (c : ClassState R) (t : Tables R) :
    (pushClass lib (some .classes) c).run.run t =
      some (.error .badAlloc, { t with classes := t.classes.mapIdx lib.moved }) := by
  rw [pushClass, if_pos ⟨h, rfl⟩, run_bind_ok (run_modify _)]
  rfl

variable [Zero R] [LE R] [DecidableLE R]

/-- It makes the class, if it is new, where what a new class allocates succeeds. -/
theorem findOrCreate_completes (lib : Library R) (fail : Option Site) (t : Tables R)
    (name : String) (weight : R)
    (hf : t.nameToId name = none → (lib.classState = true ∨ fail ≠ some .classState) ∧
      (lib.classes = true ∨ fail ≠ some .classes) ∧ fail ≠ some .nameToId) :
    (findOrCreate lib fail name weight).run.run t =
      (findOrCreateClassLocked t name weight).map fun (t, id) => (.ok id, t) := by
  unfold findOrCreate findOrCreateClassLocked
  rw [run_bind_ok run_get]
  dsimp only
  cases h : t.nameToId name with
  | some id => rfl
  | none =>
    obtain ⟨hstate, hclasses, hname⟩ := hf h
    dsimp only
    by_cases hw : weight ≤ 0
    · rw [if_pos hw, if_pos hw]
      rfl
    · rw [if_neg hw, if_neg hw, run_bind_ok (run_allocUnless_ok hstate _),
        run_bind_ok (pushClass_completes hclasses _ _), run_bind_ok (run_alloc_ok hname _),
        run_bind_ok (run_modify _)]
      rfl

/-- Where the state of a new class cannot be made, the tables are not touched; where it cannot be
put into `classes_`, the others may have been moved; where its name cannot be entered, it stays
there. -/
theorem findOrCreate_throws (h : t.nameToId name = none) (hw : ¬ weight ≤ 0) :
    (lib.classState = false → (findOrCreate lib (some .classState) name weight).run.run t =
      some (.error .badAlloc, t)) ∧
    (lib.classes = false → (findOrCreate lib (some .classes) name weight).run.run t =
      some (.error .badAlloc, { t with classes := t.classes.mapIdx lib.moved })) ∧
    (findOrCreate lib (some .nameToId) name weight).run.run t =
      some (.error .badAlloc, { t with classes := t.classes ++ [t.newClass name weight] }) := by
  unfold findOrCreate
  refine ⟨fun hroom => ?_, fun hroom => ?_, ?_⟩ <;>
    rw [run_bind_ok run_get] <;> dsimp only <;> rw [h, if_neg hw]
  · exact run_bind_error (run_allocUnless_fail hroom _)
  · rw [run_bind_ok (run_allocUnless_ok (.inr (by decide)) _)]
    exact run_bind_error (pushClass_throws hroom _ _)
  · rw [run_bind_ok (run_allocUnless_ok (.inr (by decide)) _),
      run_bind_ok (pushClass_completes (.inr (by decide)) _ _)]
    exact run_bind_error (run_alloc_fail _)

end Create

section Push

variable [LT R] [DecidableLT R]

theorem pushJob_completes (hc : t.classes[id]? = some c)
    (hf : lib.runnable = true ∨ fail ≠ some .runnable)
    (he : c.hasEntry = true ∨ fail ≠ some .ready) :
    (pushJob lib fail id job).run.run t = (pushRunnable t id job).map fun t => (.ok (), t) := by
  unfold pushJob pushRunnable
  rw [run_bind_ok run_get, hc, run_bind_ok (run_liftM (pure c)),
    run_bind_ok (run_allocUnless_ok hf _), run_bind_ok (run_modify _)]
  dsimp only [Option.map_some]
  by_cases h : c.hasEntry = true
  · rw [if_pos h, if_pos h]
    rfl
  · rw [if_neg h, if_neg h, run_bind_ok (run_modify _),
      run_bind_ok (run_alloc_ok (he.resolve_left h) _), run_bind_ok (run_modify _), run_modify]
    simp [Tables.setClass]

theorem pushJob_throws (hc : t.classes[id]? = some c) :
    (lib.runnable = false →
      (pushJob lib (some .runnable) id job).run.run t = some (.error .badAlloc, t)) ∧
    (c.hasEntry = false → (pushJob lib (some .ready) id job).run.run t =
      some (.error .badAlloc, t.setClass id { c with
        runnable := c.runnable ++ [job], vruntime := stdMax c.vruntime t.minVruntime })) := by
  unfold pushJob
  refine ⟨fun hroom => ?_, fun he => ?_⟩ <;>
    rw [run_bind_ok run_get, hc, run_bind_ok (run_liftM _)]
  · exact run_bind_error (run_allocUnless_fail hroom _)
  · rw [run_bind_ok (run_allocUnless_ok (.inr (by decide)) _), run_bind_ok (run_modify _),
      if_neg (by simp [he]), run_bind_ok (run_modify _), run_bind_error (run_alloc_fail _)]
    simp [Tables.setClass]

end Push

section Whole

variable [Zero R] [One R] [LE R] [DecidableLE R] [LT R] [DecidableLT R]

/-- The allocations that a call makes. -/
def Allocates (lib : Library R) (t : Tables R) (opts : SubmitOptions R) : Site → Prop
  | .className => lib.className = false
  | .wrap => True
  | .classState => lib.classState = false ∧ t.nameToId opts.name = none
  | .classes => lib.classes = false ∧ t.nameToId opts.name = none
  | .nameToId => t.nameToId opts.name = none
  | .runnable => lib.runnable = false
  | .ready => ∀ id, t.nameToId opts.name = some id → t.hasEntry id = false

/-- What a call of which the allocation at a site fails leaves of the tables. -/
def leftover (lib : Library R) (t : Tables R) (job : ℕ) (opts : SubmitOptions R) :
    Site → Option (Tables R)
  | .className | .wrap | .classState => some t
  | .classes => some { t with classes := t.classes.mapIdx lib.moved }
  | .nameToId => some { t with classes := t.classes ++ [t.newClass opts.name opts.classWeight] }
  | .runnable => (findOrCreateClassLocked t opts.name opts.classWeight).map Prod.fst
  | .ready => (findOrCreateClassLocked t opts.name opts.classWeight).bind fun (t, id) =>
    (t.classes[id]?).map fun c => t.setClass id { c with
      runnable := c.runnable ++ [job], vruntime := stdMax c.vruntime t.minVruntime }

/-- A name is that of a class. -/
def Named (t : Tables R) : Prop := ∀ name id, t.nameToId name = some id → id < t.classes.length

theorem wrapAndFile_run (hclass : lib.className = true ∨ fail ≠ some .className)
    (hwrap : fail ≠ some .wrap) {r : Except BadAlloc ClassId × Tables R}
    (h : (findOrCreate lib fail opts.name opts.classWeight).run.run t = some r) :
    (wrapAndFile lib fail job opts).run.run t =
      match r with
      | (.error e, t) => some (.error e, t)
      | (.ok id, t) => ((pushJob lib fail id job).run.run t).map fun (r, t) =>
        (match r with | .error e => .error e | .ok () => .ok id, t) := by
  unfold wrapAndFile
  rw [run_bind_ok (run_allocUnless_ok hclass _), run_bind_ok (run_alloc_ok hwrap _)]
  obtain ⟨r | id, t'⟩ := r
  · exact run_bind_error h
  · rw [run_bind_ok h]
    dsimp only
    cases hp : (pushJob lib fail id job).run.run t' with
    | none =>
      rw [ExceptT.run_bind, StateT.run_bind, hp]
      rfl
    | some r =>
      obtain ⟨r | ⟨⟩, t''⟩ := r
      · exact run_bind_error hp
      · exact run_bind_ok hp

/-- The class that a job is filed under, if its weight is positive. -/
theorem exists_class (hn : Named t) (hw : ¬ opts.classWeight ≤ 0) :
    ∃ t₁ id c, findOrCreateClassLocked t opts.name opts.classWeight = some (t₁, id) ∧
      t₁.classes[id]? = some c ∧
      (c.hasEntry = false ↔ ∀ id, t.nameToId opts.name = some id → t.hasEntry id = false) := by
  unfold findOrCreateClassLocked
  cases h : t.nameToId opts.name with
  | some id =>
    obtain ⟨c, hc⟩ : ∃ c, t.classes[id]? = some c := ⟨_, List.getElem?_eq_getElem (hn _ _ h)⟩
    refine ⟨t, id, c, rfl, hc, ?_⟩
    rw [← Tables.hasEntry_eq hc]
    simp
  | none =>
    refine ⟨_, _, t.newClass opts.name opts.classWeight, if_neg hw, List.getElem?_concat_length, ?_⟩
    simp [Tables.newClass]

/-- Where a call makes no failing allocation it is the call of `Tables.lean`. -/
theorem wrapAndFile_completes (job : ℕ) (hn : Named t) (hw : ¬ opts.classWeight ≤ 0)
    (hf : ∀ site, fail = some site → ¬ Allocates lib t opts site) :
    (wrapAndFile lib fail job opts).run.run t =
      (enqueue t job opts).map fun (t, id) => (.ok id, t) := by
  obtain ⟨t₁, id, c, hcreate, hc, hready⟩ := exists_class hn hw
  -- where there is no room, the failing allocation is another one
  have hroom : ∀ {room : Bool} {site}, (room = false → Allocates lib t opts site) →
      room = true ∨ fail ≠ some site := fun {room site} h => by
    cases room with
    | true => exact .inl rfl
    | false => exact .inr fun hs => hf _ hs (h rfl)
  have hwrap : fail ≠ some .wrap := fun h => hf _ h trivial
  have hnew : t.nameToId opts.name = none → (lib.classState = true ∨ fail ≠ some .classState) ∧
      (lib.classes = true ∨ fail ≠ some .classes) ∧ fail ≠ some .nameToId :=
    fun h => ⟨hroom fun hr => ⟨hr, h⟩, hroom fun hr => ⟨hr, h⟩, fun hs => hf _ hs h⟩
  have hrun := (findOrCreate_completes lib fail t opts.name opts.classWeight hnew).trans
    (congrArg _ hcreate)
  rw [wrapAndFile_run (hroom fun h => h) hwrap hrun, enqueue, hcreate]
  dsimp only [Option.bind_some]
  rw [pushJob_completes hc (hroom fun h => h), Option.map_map, Option.map_map]
  · rfl
  · by_cases he : c.hasEntry = true
    · exact .inl he
    · exact .inr fun h => hf _ h (hready.mp (Bool.eq_false_iff.mpr he))

/-- **A call that makes the failing allocation throws, and nothing that it has done is undone.** -/
theorem wrapAndFile_throws (job : ℕ) (hn : Named t) (hw : ¬ opts.classWeight ≤ 0)
    (h : Allocates lib t opts site) : ∃ t', leftover lib t job opts site = some t' ∧
      (wrapAndFile lib (some site) job opts).run.run t = some (.error .badAlloc, t') := by
  obtain ⟨t₁, id, c, hcreate, hc, hready⟩ := exists_class hn hw
  cases site with
  | className => exact ⟨t, rfl, run_bind_error (run_allocUnless_fail h _)⟩
  | wrap =>
    refine ⟨t, rfl, ?_⟩
    unfold wrapAndFile
    rw [run_bind_ok (run_allocUnless_ok (.inr (by decide)) _)]
    exact run_bind_error (run_alloc_fail _)
  | classState =>
    exact ⟨t, rfl, wrapAndFile_run (.inr (by decide)) (by decide)
      ((findOrCreate_throws h.2 hw).1 h.1)⟩
  | classes =>
    exact ⟨_, rfl, wrapAndFile_run (.inr (by decide)) (by decide)
      ((findOrCreate_throws h.2 hw).2.1 h.1)⟩
  | nameToId =>
    exact ⟨_, rfl, wrapAndFile_run (.inr (by decide)) (by decide) (findOrCreate_throws h hw).2.2⟩
  | runnable =>
    have hrun := (findOrCreate_completes lib (some .runnable) t opts.name opts.classWeight fun _ =>
      ⟨.inr (by decide), .inr (by decide), by decide⟩).trans
      (congrArg _ hcreate)
    refine ⟨t₁, by rw [leftover, hcreate]; rfl, ?_⟩
    rw [wrapAndFile_run (.inr (by decide)) (by decide) hrun]
    dsimp only
    rw [(pushJob_throws hc).1 h]
    rfl
  | ready =>
    have hrun := (findOrCreate_completes lib (some .ready) t opts.name opts.classWeight fun _ =>
      ⟨.inr (by decide), .inr (by decide), by decide⟩).trans
      (congrArg _ hcreate)
    refine ⟨_, by rw [leftover, hcreate]; dsimp only [Option.bind_some]; rw [hc]; rfl, ?_⟩
    rw [wrapAndFile_run (.inr (by decide)) (by decide) hrun]
    dsimp only
    rw [(pushJob_throws hc).2 (hready.mpr h)]
    rfl

end Whole

/-! ## The names along a run -/

section Names

variable {t' : Tables R}

theorem Named.mono (hn : Named t) (hname : t'.nameToId = t.nameToId)
    (hlen : t.classes.length ≤ t'.classes.length) : Named t' := fun name id h =>
  (hn name id (hname ▸ h)).trans_le hlen

theorem Named.setClass (hn : Named t) (id : ClassId) (c : ClassState R) : Named (t.setClass id c) :=
  hn.mono rfl (List.length_set ..).ge

theorem Named.addClass [Zero R] (hn : Named t) : Named (t.addClass name weight) := by
  intro name' id h
  have hlen : (t.addClass name weight).classes.length = t.classes.length + 1 := by
    simp [Tables.addClass]
  have h : Function.update t.nameToId name (some t.classes.length) name' = some id := h
  rw [hlen]
  by_cases hname : name' = name
  · rw [hname, Function.update_self] at h
    exact Option.some.inj h ▸ Nat.lt_succ_self _
  · rw [Function.update_of_ne hname] at h
    exact (hn _ _ h).trans (Nat.lt_succ_self _)

variable [Zero R] [LE R] [LT R] [DecidableLT R]

theorem Change.named [Add R] [Div R] {o : Op R} (h : Change t o t') (hn : Named t) : Named t' := by
  cases h with
  | create => exact hn.addClass
  | push | wake | take | drain | account => exact (hn.setClass _ _).mono rfl le_rfl

theorem leftover_named [One R] [DecidableLE R] (h : leftover lib t job opts site = some t')
    (hn : Named t) : Named t' := by
  have hcreate : ∀ {t₁ id}, findOrCreateClassLocked t opts.name opts.classWeight = some (t₁, id) →
      Named t₁ := fun h => by
    unfold findOrCreateClassLocked at h
    split at h
    · obtain ⟨rfl, -⟩ := Prod.mk.inj (Option.some.inj h)
      exact hn
    · split_ifs at h
      obtain ⟨rfl, -⟩ := Prod.mk.inj (Option.some.inj h)
      exact hn.addClass
  cases site with
  | className | wrap | classState =>
    obtain rfl := Option.some.inj h
    exact hn
  | classes =>
    obtain rfl := Option.some.inj h
    exact hn.mono rfl (by simp)
  | nameToId =>
    obtain rfl := Option.some.inj h
    exact hn.mono rfl (by simp)
  | runnable =>
    obtain ⟨⟨t₁, id⟩, h₁, rfl⟩ := Option.map_eq_some_iff.mp h
    exact hcreate h₁
  | ready =>
    obtain ⟨⟨t₁, id⟩, h₁, h⟩ := Option.bind_eq_some_iff.mp h
    obtain ⟨c, -, rfl⟩ := Option.map_eq_some_iff.mp h
    exact (hcreate h₁).setClass _ _

end Names

section Run

variable {N : ℕ} {ω : Type} {s s' : State R N ω}

variable [Field R] [LinearOrder R] [IsStrictOrderedRing R]

theorem classWeight_pos : ¬ opts.classWeight ≤ 0 := by
  unfold SubmitOptions.classWeight
  split_ifs with h
  · exact h.not_ge
  · exact one_pos.not_ge

/-- A call throws in its critical section, or before it. -/
theorem throwSubmit_leftover {call : SubmitPc R} (hn : Named s.tables)
    (h : throwSubmit s lib site call = some s') : ∃ job opts t, call = .enqueue job opts ∧
      leftover lib s.tables job opts site = some t ∧ s' = { s with tables := t } := by
  cases call with
  | count | ring | done => exact absurd h (by simp [throwSubmit])
  | enqueue job opts =>
    by_cases ha : Allocates lib s.tables opts site
    · obtain ⟨t, ht, hrun⟩ := wrapAndFile_throws job hn classWeight_pos ha
      simp only [throwSubmit, hrun, Option.some.injEq] at h
      exact ⟨job, opts, t, rfl, ht, h.symm⟩
    · have hf : ∀ site', some site = some site' → ¬ Allocates lib s.tables opts site' :=
        fun _ hs => Option.some.inj hs ▸ ha
      have hrun := wrapAndFile_completes job hn classWeight_pos hf
      cases he : enqueue s.tables job opts with
      | none => simp [throwSubmit, hrun, he] at h
      | some r => simp [throwSubmit, hrun, he] at h

theorem throwSubmit_named {call : SubmitPc R} (hn : Named s.tables)
    (h : throwSubmit s lib site call = some s') : Named s'.tables := by
  obtain ⟨job, opts, t, -, ht, rfl⟩ := throwSubmit_leftover hn h
  exact leftover_named ht hn

variable [DecidableEq ω]

theorem stepFailing_named {l : FailLabel R N ω} (h : stepFailing s l = some s')
    (hn : Named s.tables) : Named s'.tables := by
  cases l with
  | run l => exact (step_move h).preserves Change.named hn
  | client c lib site =>
    obtain ⟨call, -, h⟩ := Option.bind_eq_some_iff.mp h
    obtain ⟨s₁, h₁, rfl⟩ := Option.map_eq_some_iff.mp h
    exact (throwSubmit_named hn h₁ :)
  | nested w lib site =>
    simp only [stepFailing] at h
    split at h
    · obtain ⟨s₁, h₁, rfl⟩ := Option.map_eq_some_iff.mp h
      exact (throwSubmit_named hn h₁ :)
    · exact absurd h (by simp)

/-- A name is that of a class, whatever failed before. -/
theorem reachable_named (h : (failing R N ω).Reachable s) : Named s.tables := by
  refine h.invariant (I := fun s => Named s.tables) (fun s hs => ?_)
    fun _ _ _ _ _ hst hn => stepFailing_named hst hn
  simp only [failing, construct] at hs
  split_ifs at hs
  obtain rfl := Option.some.inj hs
  exact fun _ _ h => absurd h (by simp [emptyTables])

/-! ## A call that throws -/

omit [DecidableEq ω]

/-- Where it makes no failing allocation, a call is that of `Model.lean`. -/
theorem submit_completes (hn : Named s.tables)
    (hf : ∀ site, fail = some site → ¬ Allocates lib s.tables opts site) :
    submit lib fail s job opts = (enqueue s.tables job opts).map fun (t, id) =>
      (.ok (), { s with
        pending := s.pending + 1, tables := t, enqueued := s.enqueued ++ [(id, job)]
        gen := s.gen + 1 }) := by
  simp only [submit, wrapAndFile_completes job hn classWeight_pos hf, Option.map_map]
  rfl

/-- **Where it makes the failing allocation, a call throws, and has counted its job.** -/
theorem submit_throws (job : ℕ) (hn : Named s.tables) (h : Allocates lib s.tables opts site) :
    ∃ t, leftover lib s.tables job opts site = some t ∧ submit lib (some site) s job opts =
      some (.error .badAlloc, { s with pending := s.pending + 1, tables := t }) := by
  obtain ⟨t, ht, hrun⟩ := wrapAndFile_throws job hn classWeight_pos h
  refine ⟨t, ht, ?_⟩
  simp only [submit, hrun]
  rfl

/-- The calls that throw are runs of the scheduler. -/
theorem submit_path [DecidableEq ω] (hn : Named s.tables) {c : ω} (hc : s.client c = none)
    (h : submit lib (some site) s s.next opts = some (.error .badAlloc, s')) :
    (failing R N ω).Path Machine.Free s
      [.run (.client c opts), .run (.clientStep c), .client c lib site]
      { s' with next := s.next + 1 } := by
  have ha : Allocates lib s.tables opts site := by
    by_contra ha
    rw [submit_completes hn fun _ he => Option.some.inj he ▸ ha] at h
    obtain ⟨_, -, he⟩ := Option.map_eq_some_iff.mp h
    exact absurd (congrArg Prod.fst he) (by simp)
  obtain ⟨t, ht, hs⟩ := submit_throws s.next hn ha
  obtain ⟨t', ht', hrun⟩ := wrapAndFile_throws s.next hn classWeight_pos ha
  obtain rfl := Option.some.inj (ht.symm.trans ht')
  obtain rfl := (Prod.mk.inj (Option.some.inj (hs.symm.trans h))).2
  refine .cons trivial (t := { s with
    client := Function.update s.client c (some (.count s.next opts)), next := s.next + 1 }) ?_
    (.cons trivial (t := { s with
      client := Function.update s.client c (some (.enqueue s.next opts)), next := s.next + 1
      pending := s.pending + 1 }) ?_ (.cons trivial ?_ .nil))
  · simp only [failing, stepFailing, step, hc]
  · simp [failing, stepFailing, step, stepSubmit]
  · simp [failing, stepFailing, throwSubmit, hrun, hc]

/-- A call that throws leaves the scheduler as it was. -/
def Restores (lib : Library R) (s : State R N ω) (job : ℕ) (opts : SubmitOptions R) (site : Site) :
    Prop :=
  ∀ s', submit lib (some site) s job opts = some (.error .badAlloc, s') →
    s'.pending = s.pending ∧ (∀ c ∈ s'.tables.classes, job ∉ c.runnable) ∧
      s'.tables.classes = s.tables.classes ∧ s'.tables.nameToId = s.tables.nameToId ∧
      s'.tables.ready = s.tables.ready

theorem restores_iff (hn : Named s.tables) :
    Restores lib s job opts site ↔ ¬ Allocates lib s.tables opts site := by
  refine ⟨fun h ha => ?_, fun h s' hs => ?_⟩
  · obtain ⟨t, -, hs⟩ := submit_throws job hn ha
    exact absurd (h _ hs).1 (Nat.succ_ne_self _)
  · rw [submit_completes hn fun _ he => Option.some.inj he ▸ h] at hs
    obtain ⟨_, -, he⟩ := Option.map_eq_some_iff.mp hs
    exact absurd (congrArg Prod.fst he) (by simp)

end Run

end Wss.Fair
