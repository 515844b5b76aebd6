import Wss.Lib.Multimap
import Mathlib.Algebra.Group.Defs
import Mathlib.Logic.Function.Basic

/-!
# `FairScheduler`: what `mu_` guards

Model of the critical sections of `src/fair_scheduler.cpp`: `find_or_create_class_locked`,
`register_class`, the locked part of `submit`, the two of `worker_loop` and `fairness_snapshot`,
each as a function on the tables. A `double` is a value of `R`, with the operations the code uses;
the theorems are about exact arithmetic, an ordered field. A job is its number.

A critical section is `none` where it throws `std::invalid_argument`, or where it would read a class
or a job that is not there. `Change` lists what the critical sections do to the tables, and
`Tables.Ok` is what every change keeps.

Results:
* `registerClass_change`, `enqueue_change`, `dispatch_change`, `account_change`: the critical
  sections do nothing but the changes listed.
* `Change.ok`: every change keeps the tables in agreement.
-/

namespace Wss.Fair

open Wss.Lib

/-- The index of a class in `classes_`. -/
abbrev ClassId := ℕ

/-- `ClassState`. -/
structure ClassState (R : Type) where
  name : String
  weight : R
  vruntime : R
  runnable : List ℕ
  hasEntry : Bool
  completed : ℕ
  totalBusySeconds : R

/-- What `mu_` guards. -/
structure Tables (R : Type) where
  nameToId : String → Option ClassId
  classes : List (ClassState R)
  ready : List (R × ClassId)
  minVruntime : R

/-- The options that `FairScheduler::submit` reads. -/
structure SubmitOptions (R : Type) where
  className : String
  weight : R

/-- `ClassSnapshot`. -/
structure ClassSnapshot (R : Type) where
  name : String
  weight : R
  vruntime : R
  completed : ℕ
  totalBusySeconds : R

/-- The class of a job whose options name none. -/
def kDefaultClassName : String := "default"

variable {R : Type}

/-- The class that `submit` files a job under. -/
def SubmitOptions.name (opts : SubmitOptions R) : String :=
  if opts.className.isEmpty then kDefaultClassName else opts.className

/-- `fairness_snapshot`. -/
def fairnessSnapshot (t : Tables R) : List (ClassSnapshot R) :=
  t.classes.map fun c => ⟨c.name, c.weight, c.vruntime, c.completed, c.totalBusySeconds⟩

namespace Tables

/-- The state of class `id` is `c` from now on. -/
def setClass (t : Tables R) (id : ClassId) (c : ClassState R) : Tables R :=
  { t with classes := t.classes.set id c }

/-- The state of a class seen for the first time. -/
def newClass [Zero R] (t : Tables R) (name : String) (weight : R) : ClassState R :=
  { name, weight, vruntime := t.minVruntime, runnable := [], hasEntry := false, completed := 0
    totalBusySeconds := 0 }

/-- `classes_.push_back` and `name_to_id_.emplace` of a new class. -/
def addClass [Zero R] (t : Tables R) (name : String) (weight : R) : Tables R :=
  { t with
    classes := t.classes ++ [t.newClass name weight]
    nameToId := Function.update t.nameToId name (some t.classes.length) }

end Tables

/-- The tables of a scheduler just constructed. -/
def emptyTables [Zero R] : Tables R := ⟨fun _ => none, [], [], 0⟩

section Code

variable [Zero R] [LE R] [DecidableLE R] [LT R] [DecidableLT R]

/-- `std::max`. -/
def stdMax (a b : R) : R := if a < b then b else a

/-- The weight that `submit` gives to a new class. -/
def SubmitOptions.classWeight [One R] (opts : SubmitOptions R) : R :=
  if 0 < opts.weight then opts.weight else 1

/-- `find_or_create_class_locked`. -/
def findOrCreateClassLocked (t : Tables R) (name : String) (weight : R) :
    Option (Tables R × ClassId) :=
  match t.nameToId name with
  | some id => some (t, id)
  | none => if weight ≤ 0 then none else some (t.addClass name weight, t.classes.length)

/-- `register_class`. -/
def registerClass (t : Tables R) (name : String) (weight : R) : Option (Tables R) :=
  if (t.nameToId name).isSome then none
  else (findOrCreateClassLocked t name weight).map Prod.fst

/-- The critical section of `submit` once the class is known. -/
def pushRunnable (t : Tables R) (id : ClassId) (job : ℕ) : Option (Tables R) :=
  (t.classes[id]?).map fun c =>
    let c := { c with runnable := c.runnable ++ [job] }
    if c.hasEntry then t.setClass id c
    else
      let c := { c with vruntime := stdMax c.vruntime t.minVruntime, hasEntry := true }
      { t.setClass id c with ready := insertEntry c.vruntime id t.ready }

/-- The critical section of `submit`. -/
def enqueue [One R] (t : Tables R) (job : ℕ) (opts : SubmitOptions R) :
    Option (Tables R × ClassId) :=
  (findOrCreateClassLocked t opts.name opts.classWeight).bind fun (t, id) =>
    (pushRunnable t id job).map fun t => (t, id)

/-- The critical section of `worker_loop` in which a worker takes a job. -/
def dispatch (t : Tables R) : Option (Tables R × Option (ClassId × ℕ)) :=
  match t.ready with
  | [] => some (t, none)
  | (key, id) :: ready =>
    match t.classes[id]? with
    | none => none
    | some c =>
      match c.runnable with
      | [] => none
      | job :: rest =>
        let t := { t with ready := ready, minVruntime := stdMax t.minVruntime key }
        if rest ≠ [] then
          some ({ t.setClass id { c with runnable := rest } with
            ready := insertEntry c.vruntime id ready }, some (id, job))
        else some (t.setClass id { c with runnable := rest, hasEntry := false }, some (id, job))

omit [Zero R] [LE R] [DecidableLE R] [LT R] [DecidableLT R]

/-- A class after one more of its jobs. -/
def ClassState.account [Add R] [Div R] (c : ClassState R) (elapsed : R) : ClassState R :=
  { c with
    vruntime := c.vruntime + elapsed / c.weight
    completed := c.completed + 1
    totalBusySeconds := c.totalBusySeconds + elapsed }

/-- The critical section of `worker_loop` in which a worker accounts for a job. -/
def account [Add R] [Div R] (t : Tables R) (id : ClassId) (elapsed : R) : Option (Tables R) :=
  (t.classes[id]?).map fun c => t.setClass id (c.account elapsed)

end Code

/-! ## What the critical sections do -/

/-- What happens to the tables. -/
inductive Op (R : Type)
  | create (name : String) (weight : R)
  | push (id : ClassId) (job : ℕ)
  | take (id : ClassId) (job : ℕ)
  | account (id : ClassId) (elapsed : R)

section Change

variable [Zero R] [Add R] [Div R] [LE R] [LT R] [DecidableLT R]

/-- The changes of the tables. -/
inductive Change : Tables R → Op R → Tables R → Prop
  /-- A class is seen for the first time. -/
  | create {t name weight} : t.nameToId name = none → ¬ weight ≤ 0 →
      Change t (.create name weight) (t.addClass name weight)
  /-- A job of a class that has an entry. -/
  | push {t id c job} : t.classes[id]? = some c → c.hasEntry = true →
      Change t (.push id job) (t.setClass id { c with runnable := c.runnable ++ [job] })
  /-- A job of a class that has none. -/
  | wake {t id c job} : t.classes[id]? = some c → c.hasEntry = false →
      Change t (.push id job)
        { t.setClass id { c with
            runnable := c.runnable ++ [job]
            vruntime := stdMax c.vruntime t.minVruntime
            hasEntry := true } with
          ready := insertEntry (stdMax c.vruntime t.minVruntime) id t.ready }
  /-- A job is taken, and its class has more. -/
  | take {t id c key ready job rest} : t.ready = (key, id) :: ready → t.classes[id]? = some c →
      c.runnable = job :: rest → rest ≠ [] → Change t (.take id job)
        { t.setClass id { c with runnable := rest } with
          ready := insertEntry c.vruntime id ready
          minVruntime := stdMax t.minVruntime key }
  /-- The last job of a class is taken. -/
  | drain {t id c key ready job} : t.ready = (key, id) :: ready → t.classes[id]? = some c →
      c.runnable = [job] → Change t (.take id job)
        { t.setClass id { c with runnable := [], hasEntry := false } with
          ready := ready
          minVruntime := stdMax t.minVruntime key }
  /-- A job has run. -/
  | account {t id c elapsed} : t.classes[id]? = some c →
      Change t (.account id elapsed) (t.setClass id (c.account elapsed))

variable {t t' : Tables R} {name : String} {weight elapsed : R} {id : ClassId} {job : ℕ}
  {opts : SubmitOptions R}

theorem findOrCreateClassLocked_change [DecidableLE R]
    (h : findOrCreateClassLocked t name weight = some (t', id)) :
    t' = t ∧ t.nameToId name = some id ∨
      Change t (.create name weight) t' ∧ t'.nameToId name = some id := by
  unfold findOrCreateClassLocked at h
  split at h
  · rename_i id' hid
    obtain ⟨rfl, rfl⟩ := Prod.mk.inj (Option.some.inj h)
    exact .inl ⟨rfl, hid⟩
  · rename_i hid
    split_ifs at h with hw
    obtain ⟨rfl, rfl⟩ := Prod.mk.inj (Option.some.inj h)
    exact .inr ⟨.create hid hw, Function.update_self _ _ _⟩

theorem registerClass_change [DecidableLE R] (h : registerClass t name weight = some t') :
    Change t (.create name weight) t' := by
  unfold registerClass at h
  split_ifs at h with hn
  obtain ⟨⟨t₁, id⟩, hf, rfl⟩ := Option.map_eq_some_iff.mp h
  rcases findOrCreateClassLocked_change hf with ⟨-, hid⟩ | ⟨hc, -⟩
  · exact absurd (by rw [hid]; rfl) hn
  · exact hc

theorem pushRunnable_change (h : pushRunnable t id job = some t') : Change t (.push id job) t' := by
  obtain ⟨c, hc, rfl⟩ := Option.map_eq_some_iff.mp h
  dsimp only
  split_ifs with he
  · exact .push hc he
  · exact .wake hc (by simpa using he)

/-- The critical section of `submit` creates the class, if it is new, and files the job. -/
theorem enqueue_change [One R] [DecidableLE R] (h : enqueue t job opts = some (t', id)) :
    ∃ t₁, (t₁ = t ∨ Change t (.create opts.name opts.classWeight) t₁) ∧
      t₁.nameToId opts.name = some id ∧ Change t₁ (.push id job) t' := by
  obtain ⟨⟨t₁, id₁⟩, hf, h⟩ := Option.bind_eq_some_iff.mp h
  obtain ⟨t₂, hp, he⟩ := Option.map_eq_some_iff.mp h
  obtain ⟨rfl, rfl⟩ := Prod.mk.inj he
  refine ⟨t₁, ?_, ?_, pushRunnable_change hp⟩
  · exact (findOrCreateClassLocked_change hf).imp And.left And.left
  · rcases findOrCreateClassLocked_change hf with ⟨rfl, hid⟩ | ⟨-, hid⟩ <;> exact hid

/-- A worker takes a job, or there is no entry. -/
theorem dispatch_change {r : Option (ClassId × ℕ)} (h : dispatch t = some (t', r)) :
    r = none ∧ t.ready = [] ∧ t' = t ∨
      ∃ id job, r = some (id, job) ∧ Change t (.take id job) t' := by
  unfold dispatch at h
  split at h
  · rename_i hr
    obtain ⟨rfl, rfl⟩ := Prod.mk.inj (Option.some.inj h)
    exact .inl ⟨rfl, hr, rfl⟩
  · rename_i key id ready hr
    split at h
    · exact absurd h (by simp)
    · rename_i c hc
      split at h
      · exact absurd h (by simp)
      · rename_i job rest hjob
        refine .inr ⟨id, job, ?_⟩
        split_ifs at h with hrest
        · obtain ⟨rfl, rfl⟩ := Prod.mk.inj (Option.some.inj h)
          exact ⟨rfl, .take hr hc hjob hrest⟩
        · obtain ⟨rfl, rfl⟩ := Prod.mk.inj (Option.some.inj h)
          obtain rfl := not_not.mp hrest
          exact ⟨rfl, .drain hr hc hjob⟩

theorem account_change (h : account t id elapsed = some t') :
    Change t (.account id elapsed) t' := by
  obtain ⟨c, hc, rfl⟩ := Option.map_eq_some_iff.mp h
  exact .account hc

end Change

/-! ## The tables agree with each other -/

namespace Tables

variable {t t' : Tables R} {id j : ClassId} {c c' : ClassState R}

/-- `has_entry` of a class, if there is one of this index. -/
def hasEntry (t : Tables R) (id : ClassId) : Bool := (t.classes[id]?).elim false (·.hasEntry)

/-- Every class has its name and its index, exactly the classes with jobs have an entry, and they
have one. -/
structure Ok (t : Tables R) : Prop where
  entry : ∀ (id : ClassId) c, t.classes[id]? = some c → (c.hasEntry = true ↔ c.runnable ≠ [])
  ready : ∀ id, (t.ready.map Prod.snd).count id = if t.hasEntry id = true then 1 else 0
  names : ∀ name (id : ClassId), t.nameToId name = some id ↔
    ∃ c, t.classes[id]? = some c ∧ c.name = name

theorem setClass_self (h : t.classes[id]? = some c) :
    (t.setClass id c').classes[id]? = some c' := by
  have hlt := (List.getElem?_eq_some_iff.mp h).1
  simp only [setClass, List.getElem?_set_self hlt]

theorem setClass_of_ne (h : j ≠ id) : (t.setClass id c').classes[j]? = t.classes[j]? :=
  List.getElem?_set_ne (Ne.symm h)

/-- What holds of a class and of what replaces it holds of it afterwards. -/
theorem exists_setClass {P : ClassState R → Prop} {d d' : ClassState R}
    (hc : t.classes[id]? = some c) (hd : t.classes[j]? = some d) (hP : P c)
    (hP' : id = j → c = d → P d') : ∃ c', (t.setClass j d').classes[id]? = some c' ∧ P c' := by
  by_cases hj : id = j
  · subst hj
    exact ⟨d', setClass_self hc, hP' rfl (Option.some.inj (hc.symm.trans hd))⟩
  · exact ⟨c, (setClass_of_ne hj).trans hc, hP⟩

section AddClass

variable [Zero R] {name : String} {weight : R}

theorem addClass_self :
    (t.addClass name weight).classes[t.classes.length]? = some (t.newClass name weight) :=
  List.getElem?_concat_length

theorem addClass_of_ne (h : j ≠ t.classes.length) :
    (t.addClass name weight).classes[j]? = t.classes[j]? := by
  rcases Nat.lt_or_gt_of_ne h with h | h
  · exact List.getElem?_append_left h
  · have hlen : (t.classes ++ [t.newClass name weight]).length ≤ j := by
      rw [List.length_append, List.length_singleton]
      omega
    exact (List.getElem?_eq_none hlen).trans (List.getElem?_eq_none h.le).symm

/-- A class stays at its index. -/
theorem addClass_of_some (hc : t.classes[j]? = some c) :
    (t.addClass name weight).classes[j]? = some c :=
  (addClass_of_ne (List.getElem?_eq_some_iff.mp hc).1.ne).trans hc

theorem addClass_cases (hc : (t.addClass name weight).classes[j]? = some c) :
    t.classes[j]? = some c ∨ t.classes[j]? = none ∧ c = t.newClass name weight := by
  by_cases hj : j = t.classes.length
  · rw [hj, addClass_self] at hc
    exact .inr ⟨List.getElem?_eq_none hj.ge, (Option.some.inj hc).symm⟩
  · exact .inl ((addClass_of_ne hj).symm.trans hc)

end AddClass

theorem hasEntry_eq (h : t.classes[id]? = some c) : t.hasEntry id = c.hasEntry := by
  simp only [hasEntry, h, Option.elim_some]

/-- An entry is that of a class with jobs. -/
theorem Ok.mem_ready (ht : t.Ok) {key : R} (h : (key, id) ∈ t.ready) :
    ∃ c, t.classes[id]? = some c ∧ c.hasEntry = true ∧ c.runnable ≠ [] := by
  have hpos : 0 < (t.ready.map Prod.snd).count id :=
    List.count_pos_iff.mpr (List.mem_map_of_mem h)
  rw [ht.ready id] at hpos
  split_ifs at hpos with he
  · cases hc : t.classes[id]? with
    | none => simp [hasEntry, hc] at he
    | some c =>
      rw [hasEntry_eq hc] at he
      exact ⟨c, rfl, he, (ht.entry id c hc).mp he⟩
  · exact absurd hpos (lt_irrefl 0)

/-- The entry of a class is its only one. -/
theorem Ok.not_mem_tail (ht : t.Ok) {key : R} {ready : List (R × ClassId)}
    (hr : t.ready = (key, id) :: ready) (k : R) : (k, id) ∉ ready := by
  intro hk
  obtain ⟨c, hc, he, -⟩ := ht.mem_ready (hr ▸ List.mem_cons_self : (key, id) ∈ t.ready)
  have hcount := ht.ready id
  rw [hasEntry_eq hc, if_pos he, hr, List.map_cons, List.count_cons_self] at hcount
  have hpos : 0 < (ready.map Prod.snd).count id :=
    List.count_pos_iff.mpr (List.mem_map_of_mem hk)
  omega

/-- A class with jobs has an entry. -/
theorem Ok.exists_entry (ht : t.Ok) (hc : t.classes[id]? = some c) (hrun : c.runnable ≠ []) :
    ∃ key, (key, id) ∈ t.ready := by
  have hcount := ht.ready id
  rw [hasEntry_eq hc, if_pos ((ht.entry id c hc).mpr hrun)] at hcount
  have hmem : id ∈ t.ready.map Prod.snd := List.count_pos_iff.mp (hcount ▸ Nat.one_pos)
  obtain ⟨⟨key, _⟩, hx, rfl⟩ := List.mem_map.mp hmem
  exact ⟨key, hx⟩

/-- Where no class has an entry, none has a job. -/
theorem Ok.runnable_nil (ht : t.Ok) (hr : t.ready = []) (hc : c ∈ t.classes) : c.runnable = [] := by
  obtain ⟨id, hid⟩ := List.mem_iff_getElem?.mp hc
  by_contra hne
  obtain ⟨key, hx⟩ := ht.exists_entry hid hne
  exact absurd (hr ▸ hx) List.not_mem_nil

/-- A change of one class and its entry. -/
theorem Ok.set (ht : t.Ok) (hc : t.classes[id]? = some c)
    (hcls : t'.classes = (t.setClass id c').classes) (hn : t'.nameToId = t.nameToId)
    (hname : c'.name = c.name) (hentry : c'.hasEntry = true ↔ c'.runnable ≠ [])
    (hself : (t'.ready.map Prod.snd).count id = if c'.hasEntry = true then 1 else 0)
    (hother : ∀ j, j ≠ id → (t'.ready.map Prod.snd).count j = (t.ready.map Prod.snd).count j) :
    t'.Ok where
  entry j d hd := by
    rw [hcls] at hd
    by_cases hj : j = id
    · rw [hj, setClass_self hc] at hd
      obtain rfl := Option.some.inj hd
      exact hentry
    · rw [setClass_of_ne hj] at hd
      exact ht.entry j d hd
  ready j := by
    by_cases hj : j = id
    · rw [hj, hself, hasEntry, hcls, setClass_self hc]
      rfl
    · rw [hother j hj, hasEntry, hcls, setClass_of_ne hj]
      exact ht.ready j
  names name j := by
    rw [hn, hcls, ht.names]
    by_cases hj : j = id
    · rw [hj, setClass_self hc, hc]
      simp [hname]
    · rw [setClass_of_ne hj]

theorem emptyTables_ok [Zero R] : (emptyTables : Tables R).Ok where
  entry _ _ h := absurd h (by simp [emptyTables])
  ready _ := by simp [emptyTables, hasEntry]
  names _ _ := by simp [emptyTables]

end Tables

section Ok

variable [Zero R] [Add R] [Div R] [LE R] [LT R] [DecidableLT R] {t t' : Tables R} {o : Op R}

/-- **Every critical section keeps the tables in agreement.** -/
theorem Change.ok (h : Change t o t') (ht : t.Ok) : t'.Ok := by
  have hone : ∀ {id : ClassId} {c : ClassState R}, t.classes[id]? = some c →
      (t.ready.map Prod.snd).count id = if c.hasEntry = true then 1 else 0 := fun hc => by
    rw [ht.ready, Tables.hasEntry_eq hc]
  cases h with
  | @create name weight hnew hw =>
    have hlen : t.classes[t.classes.length]? = none := List.getElem?_eq_none le_rfl
    have hnone : t.hasEntry t.classes.length = false := by
      simp only [Tables.hasEntry, hlen, Option.elim_none]
    refine ⟨fun j d hd => ?_, fun j => ?_, fun n j => ?_⟩
    · rcases Tables.addClass_cases hd with hd | ⟨-, rfl⟩
      · exact ht.entry j d hd
      · simp [Tables.newClass]
    · have hready : (t.addClass name weight).ready = t.ready := rfl
      rw [hready, ht.ready j]
      by_cases hj : j = t.classes.length
      · rw [hj, hnone, Tables.hasEntry, Tables.addClass_self]
        rfl
      · rw [Tables.hasEntry, Tables.hasEntry, Tables.addClass_of_ne hj]
    · by_cases hn : n = name
      · subst hn
        have hid : (t.addClass n weight).nameToId n = some t.classes.length :=
          Function.update_self _ _ _
        rw [hid]
        refine ⟨fun h => ?_, fun ⟨c, hc, hcn⟩ => ?_⟩
        · obtain rfl := Option.some.inj h
          exact ⟨_, Tables.addClass_self, rfl⟩
        · by_cases hj : j = t.classes.length
          · rw [hj]
          · rw [Tables.addClass_of_ne hj] at hc
            exact absurd (hnew.symm.trans ((ht.names n j).mpr ⟨c, hc, hcn⟩)) (by simp)
      · have hid : (t.addClass name weight).nameToId n = t.nameToId n :=
          Function.update_of_ne hn _ _
        rw [hid, ht.names]
        by_cases hj : j = t.classes.length
        · rw [hj, Tables.addClass_self, hlen]
          simp [Tables.newClass, Ne.symm hn]
        · rw [Tables.addClass_of_ne hj]
  | @push id c job hc he => exact ht.set hc rfl rfl rfl (by simp [he]) (hone hc :) fun _ _ => rfl
  | @wake id c job hc he =>
    have hperm := (perm_insertEntry (stdMax c.vruntime t.minVruntime) id t.ready).map Prod.snd
    refine ht.set hc rfl rfl rfl (by simp) (hperm.count_eq id ▸ ?_) fun j hj =>
      hperm.count_eq j ▸ ?_
    · rw [List.map_cons, List.count_cons_self, hone hc, if_neg (by simp [he])]
      rfl
    · rw [List.map_cons, List.count_cons_of_ne (Ne.symm hj)]
  | @take id c key ready job rest hr hc hjob hrest =>
    obtain ⟨c', hc', he, -⟩ := ht.mem_ready (hr ▸ List.mem_cons_self : (key, id) ∈ t.ready)
    obtain rfl := Option.some.inj (hc.symm.trans hc')
    have hperm := (perm_insertEntry c.vruntime id ready).map Prod.snd
    have hready := congrArg (List.map Prod.snd) hr
    refine ht.set hc rfl rfl rfl (by simp [he, hrest]) (hperm.count_eq id ▸ ?_) fun j _ =>
      hperm.count_eq j ▸ ?_
    · exact hready ▸ (hone hc :)
    · rw [hready]
      rfl
  | @drain id c key ready job hr hc hjob =>
    obtain ⟨c', hc', he, -⟩ := ht.mem_ready (hr ▸ List.mem_cons_self : (key, id) ∈ t.ready)
    obtain rfl := Option.some.inj (hc.symm.trans hc')
    have hcount := hone hc
    rw [if_pos he, hr, List.map_cons, List.count_cons_self] at hcount
    refine ht.set hc rfl rfl rfl (by simp) ?_ fun j hj => ?_
    · show (ready.map Prod.snd).count id = 0
      omega
    · rw [hr, List.map_cons, List.count_cons_of_ne (Ne.symm hj)]
  | @account id c elapsed hc =>
    exact ht.set hc rfl rfl rfl (ht.entry id c hc) (hone hc :) fun _ _ => rfl

end Ok

end Wss.Fair
