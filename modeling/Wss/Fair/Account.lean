import Wss.Fair.Step
import Wss.Lib.Mass

/-!
# The accounts of `FairScheduler`

`Account s` relates the tables, `pending_` and the program counters to the history of the run: class
by class the jobs filed are those taken followed by those still in the queue; a job taken is in
flight with one worker or has been accounted for; `pending_` counts the jobs filed or about to be
filed that are not yet counted off; `completed` and `total_busy_seconds` add up the accounts.

Results:
* `Move.accounts`: every step keeps the accounts.
* `reachable_account`: they are right in every reachable state.
-/

namespace Wss.Fair

open Wss.Lib

variable {R : Type}

/-! ## What the changes do to one class -/

namespace Tables

variable (t : Tables R) (id : ClassId)

/-- The queue of a class. -/
def runnable : List ℕ := (t.classes[id]?).elim [] (·.runnable)

/-- `completed` of a class, `0` where there is none. -/
def completed : ℕ := (t.classes[id]?).elim 0 (·.completed)

/-- `total_busy_seconds` of a class, `0` where there is none. -/
def totalBusySeconds [Zero R] : R := (t.classes[id]?).elim 0 (·.totalBusySeconds)

end Tables

/-- The job that a change files. -/
def Op.pushed : Op R → List (ClassId × ℕ)
  | .push id job => [(id, job)]
  | _ => []

/-- The job that a change takes. -/
def Op.taken : Op R → List (ClassId × ℕ)
  | .take id job => [(id, job)]
  | _ => []

/-- The time that a change accounts for. -/
def Op.elapsed : Op R → List (ClassId × R)
  | .account id elapsed => [(id, elapsed)]
  | _ => []

section Change

variable {t t' : Tables R} {o : Op R} {id j : ClassId} {c c' : ClassState R}

/-- A new class has an empty queue and empty accounts, as the tables had for its index before. -/
theorem elim_addClass [Zero R] {β : Type} {b : β} {f : ClassState R → β} {name : String}
    {weight : R}
    (h : f (t.newClass name weight) = b) :
    ((t.addClass name weight).classes[id]?).elim b f = (t.classes[id]?).elim b f := by
  by_cases hid : id = t.classes.length
  · rw [hid, Tables.addClass_self, List.getElem?_eq_none le_rfl]
    exact h
  · rw [Tables.addClass_of_ne hid]

theorem elim_setClass {β : Type} {b : β} {f : ClassState R → β} (hc : t.classes[id]? = some c) :
    ((t.setClass id c').classes[j]?).elim b f =
      if j = id then f c' else (t.classes[j]?).elim b f := by
  split_ifs with hj
  · rw [hj, Tables.setClass_self hc]
    rfl
  · rw [Tables.setClass_of_ne hj]

variable [Zero R] [Add R] [Div R] [LE R] [LT R] [DecidableLT R]

/-- What a change does to the queue of a class. -/
theorem Change.runnable (h : Change t o t') (j : ClassId) :
    t.runnable j ++ valuesAt j o.pushed = valuesAt j o.taken ++ t'.runnable j := by
  have hset : ∀ {id c c'}, t.classes[id]? = some c → ∀ {a b : List (ClassId × ℕ)},
      (c.runnable ++ valuesAt id a = valuesAt id b ++ c'.runnable) →
      (∀ k, k ≠ id → valuesAt k a = [] ∧ valuesAt k b = []) →
      t.runnable j ++ valuesAt j a = valuesAt j b ++ (t.setClass id c').runnable j := by
    intro id c c' hc a b hself hother
    have he : (t.setClass id c').runnable j = if j = id then c'.runnable else t.runnable j :=
      elim_setClass hc
    rw [he]
    split_ifs with hj
    · have hr : t.runnable id = c.runnable := by simp only [Tables.runnable, hc, Option.elim_some]
      rw [hj, hr, hself]
    · rw [(hother j hj).1, (hother j hj).2, List.append_nil, List.nil_append]
  cases h with
  | create =>
    exact (List.append_nil _).trans (elim_addClass (f := ClassState.runnable) rfl).symm
  | push hc | wake hc =>
    exact hset hc (by simp [Op.pushed, Op.taken]) fun k hk =>
      ⟨valuesAt_of_ne (Ne.symm hk), rfl⟩
  | take _ hc hjob | drain _ hc hjob =>
    exact hset hc (by simp [Op.pushed, Op.taken, hjob]) fun k hk =>
      ⟨rfl, valuesAt_of_ne (Ne.symm hk)⟩
  | account hc => exact hset hc (List.append_nil _) fun _ _ => ⟨rfl, rfl⟩

/-- What a change does to the accounts of a class. -/
theorem Change.accounts (h : Change t o t') (j : ClassId) :
    t'.completed j = t.completed j + (valuesAt j o.elapsed).length ∧
      t'.totalBusySeconds j = (valuesAt j o.elapsed).foldl (· + ·) (t.totalBusySeconds j) := by
  have hsame : ∀ {id c c'}, t.classes[id]? = some c → c'.completed = c.completed →
      c'.totalBusySeconds = c.totalBusySeconds →
      (t.setClass id c').completed j = t.completed j ∧
        (t.setClass id c').totalBusySeconds j = t.totalBusySeconds j := by
    intro id c c' hc h1 h2
    have e1 : (t.setClass id c').completed j = if j = id then c'.completed else t.completed j :=
      elim_setClass hc
    have e2 : (t.setClass id c').totalBusySeconds j =
        if j = id then c'.totalBusySeconds else t.totalBusySeconds j := elim_setClass hc
    rw [e1, e2]
    split_ifs with hj
    · subst hj
      simp only [Tables.completed, Tables.totalBusySeconds, hc, Option.elim_some, h1, h2, and_self]
    · exact ⟨rfl, rfl⟩
  cases h with
  | create =>
    exact ⟨elim_addClass (f := ClassState.completed) rfl,
      elim_addClass (f := ClassState.totalBusySeconds) rfl⟩
  | push hc | wake hc | take _ hc | drain _ hc => exact hsame hc rfl rfl
  | @account id c elapsed hc =>
    have e1 : (t.setClass id (c.account elapsed)).completed j =
        if j = id then c.completed + 1 else t.completed j := elim_setClass hc
    have e2 : (t.setClass id (c.account elapsed)).totalBusySeconds j =
        if j = id then c.totalBusySeconds + elapsed else t.totalBusySeconds j := elim_setClass hc
    refine ⟨e1.trans ?_, e2.trans ?_⟩
    · split_ifs with hj
      · subst hj
        simp [Op.elapsed, Tables.completed, hc]
      · rw [Op.elapsed, valuesAt_of_ne (Ne.symm hj)]
        rfl
    · split_ifs with hj
      · subst hj
        simp [Op.elapsed, Tables.totalBusySeconds, hc]
      · rw [Op.elapsed, valuesAt_of_ne (Ne.symm hj)]
        rfl

end Change

/-! ## The balance -/

/-- The call of `submit` that a worker's job is in. -/
def WorkerPc.call : WorkerPc R → Option (SubmitPc R)
  | .body _ _ call => call
  | _ => none

/-- The job that a worker has taken and not accounted for yet. -/
def WorkerPc.flying : WorkerPc R → Option (ClassId × ℕ)
  | .body id job _ | .deliver id job | .uncount id job | .ring id job | .account id job =>
    some (id, job)
  | _ => none

/-- The job that is not filed yet in a call of `submit`. -/
def unfiled (μ : ℕ → ℕ) : Option (SubmitPc R) → ℕ
  | some (.count job _) | some (.enqueue job _) => μ job
  | _ => 0

/-- Whether a call of `submit` has counted its job and not filed it. -/
def counted : Option (SubmitPc R) → ℕ
  | some (.enqueue _ _) => 1
  | _ => 0

/-- Whether a worker has a job that is not counted off. -/
def WorkerPc.uncounted : WorkerPc R → ℕ
  | .body _ _ _ | .deliver _ _ | .uncount _ _ => 1
  | _ => 0

/-- The job whose body a worker runs. -/
def WorkerPc.running (μ : ℕ → ℕ) : WorkerPc R → ℕ
  | .body _ job _ => μ job
  | _ => 0

/-- The job that a worker has in flight. -/
def WorkerPc.flight (μ : ClassId × ℕ → ℕ) (pc : WorkerPc R) : ℕ := pc.flying.elim 0 μ

variable {N : ℕ} {ω : Type}

/-- The jobs accounted for, with their class. -/
def State.settled (s : State R N ω) : List (ClassId × ℕ) := s.accounted.map fun x => (x.1, x.2.1)

/-- What was accounted for, with its class. -/
def State.times (s : State R N ω) : List (ClassId × R) := s.accounted.map fun x => (x.1, x.2.2)

/-- The weight of the job that is not filed yet, in a call of `submit` of any thread. -/
def State.unfiled [Fintype ω] (s : State R N ω) (μ : ℕ → ℕ) : ℕ :=
  ∑ c, Fair.unfiled μ (s.client c) + ∑ w, Fair.unfiled μ (s.worker w).call

/-- How many calls of `submit` have counted their job and not filed it. -/
def State.counted [Fintype ω] (s : State R N ω) : ℕ :=
  ∑ c, Fair.counted (s.client c) + ∑ w, Fair.counted (s.worker w).call

/-- **The accounts.** -/
structure Account [Zero R] [Add R] [Fintype ω] (s : State R N ω) : Prop where
  fifo : ∀ id, valuesAt id s.enqueued = valuesAt id s.dispatched ++ s.tables.runnable id
  jobs : ∀ μ, s.unfiled μ + mass μ (s.enqueued.map Prod.snd) = mass μ (List.range s.next)
  flight : ∀ μ, mass μ s.dispatched = mass μ s.settled + ∑ w, (s.worker w).flight μ
  bodies : ∀ μ, mass μ (s.dispatched.map Prod.snd) =
    mass μ s.finished + ∑ w, (s.worker w).running μ
  pending : s.pending + s.dispatched.length =
    s.counted + s.enqueued.length + ∑ w, (s.worker w).uncounted
  completed : ∀ id, s.tables.completed id = (valuesAt id s.times).length
  busy : ∀ id, s.tables.totalBusySeconds id = (valuesAt id s.times).foldl (· + ·) 0

variable [Zero R] [Add R] [Fintype ω] {s s' : State R N ω} {w : Fin N} {pc : WorkerPc R}

/-- What a step files, takes and accounts for. -/
structure Books (s s' : State R N ω) (pushed taken : List (ClassId × ℕ))
    (elapsed : List (ClassId × R)) : Prop where
  runnable : ∀ id, s.tables.runnable id ++ valuesAt id pushed =
    valuesAt id taken ++ s'.tables.runnable id
  completed : ∀ id, s'.tables.completed id = s.tables.completed id + (valuesAt id elapsed).length
  busy : ∀ id, s'.tables.totalBusySeconds id =
    (valuesAt id elapsed).foldl (· + ·) (s.tables.totalBusySeconds id)
  enqueued : s'.enqueued = s.enqueued ++ pushed
  dispatched : s'.dispatched = s.dispatched ++ taken
  times : s'.times = s.times ++ elapsed

variable {pushed taken : List (ClassId × ℕ)} {elapsed : List (ClassId × R)}

omit [Fintype ω] in
theorem Books.refl (ht : s'.tables = s.tables) (he : s'.enqueued = s.enqueued)
    (hd : s'.dispatched = s.dispatched) (ha : s'.accounted = s.accounted) :
    Books s s' [] [] [] where
  runnable id := by rw [ht]; exact List.append_nil _
  completed id := by rw [ht]; rfl
  busy id := by rw [ht]; rfl
  enqueued := by rw [he, List.append_nil]
  dispatched := by rw [hd, List.append_nil]
  times := by rw [State.times, ha]; exact (List.append_nil _).symm

omit [Fintype ω] in
theorem Books.of_change [Div R] [LE R] [LT R] [DecidableLT R] {o : Op R}
    (h : Change s.tables o s'.tables) (he : s'.enqueued = s.enqueued ++ o.pushed)
    (hd : s'.dispatched = s.dispatched ++ o.taken) (ha : s'.times = s.times ++ o.elapsed) :
    Books s s' o.pushed o.taken o.elapsed :=
  ⟨h.runnable, fun id => (h.accounts id).1, fun id => (h.accounts id).2, he, hd, ha⟩

/-- Nothing is taken that was not filed. -/
theorem Account.dispatched_subperm (ha : Account s) : s.dispatched.Subperm s.enqueued :=
  List.subperm_ext_iff.mpr fun ⟨id, job⟩ _ => by
    rw [← count_valuesAt, ← count_valuesAt, ha.fifo id, List.count_append]
    exact Nat.le_add_right _ _

/-- A worker's job is pending until it is counted off. -/
theorem Account.pending_pos (ha : Account s) (hpc : (s.worker w).uncounted = 1) :
    0 < s.pending := by
  have h1 := ha.pending
  have h2 := ha.dispatched_subperm.length_le
  have h3 := le_sum (fun w => (s.worker w).uncounted) w
  omega

theorem Account.step (ha : Account s) (hb : Books s s' pushed taken elapsed)
    (hunfiled : ∀ μ, s'.unfiled μ + mass μ (pushed.map Prod.snd) + mass μ (List.range s.next) =
      s.unfiled μ + mass μ (List.range s'.next))
    (hflight : ∀ μ, mass μ taken + mass μ s.settled + ∑ w, (s.worker w).flight μ =
      mass μ s'.settled + ∑ w, (s'.worker w).flight μ)
    (hbodies : ∀ μ, mass μ (taken.map Prod.snd) + mass μ s.finished +
      ∑ w, (s.worker w).running μ = mass μ s'.finished + ∑ w, (s'.worker w).running μ)
    (hpending : s'.pending + taken.length + s.counted + ∑ w, (s.worker w).uncounted =
      s.pending + pushed.length + s'.counted + ∑ w, (s'.worker w).uncounted) : Account s' where
  fifo id := by
    rw [hb.enqueued, hb.dispatched, valuesAt_append, valuesAt_append, ha.fifo id,
      List.append_assoc, List.append_assoc, hb.runnable id]
  jobs μ := by
    have h1 := ha.jobs μ
    have h2 := hunfiled μ
    rw [hb.enqueued, List.map_append, mass_append]
    omega
  flight μ := by
    have h1 := ha.flight μ
    have h2 := hflight μ
    rw [hb.dispatched, mass_append]
    omega
  bodies μ := by
    have h1 := ha.bodies μ
    have h2 := hbodies μ
    rw [hb.dispatched, List.map_append, mass_append]
    omega
  pending := by
    have h1 := ha.pending
    rw [hb.enqueued, hb.dispatched, List.length_append, List.length_append]
    omega
  completed id := by
    rw [hb.completed, hb.times, valuesAt_append, List.length_append, ha.completed]
  busy id := by
    rw [hb.busy, hb.times, valuesAt_append, List.foldl_append, ha.busy]

/-- A step of worker `w`. -/
theorem Account.worker (ha : Account s) (hb : Books s s' pushed taken elapsed)
    (hw : s'.worker = Function.update s.worker w pc) (hc : s'.client = s.client)
    (hunfiled : ∀ μ, unfiled μ pc.call + mass μ (pushed.map Prod.snd) +
      mass μ (List.range s.next) = unfiled μ (s.worker w).call + mass μ (List.range s'.next))
    (hflight : ∀ μ, mass μ taken + mass μ s.settled + (s.worker w).flight μ =
      mass μ s'.settled + pc.flight μ)
    (hbodies : ∀ μ, mass μ (taken.map Prod.snd) + mass μ s.finished + (s.worker w).running μ =
      mass μ s'.finished + pc.running μ)
    (hpending : s'.pending + taken.length + counted (s.worker w).call +
      (s.worker w).uncounted = s.pending + pushed.length + counted pc.call + pc.uncounted) :
    Account s' := by
  refine ha.step hb (fun μ => ?_) (fun μ => ?_) (fun μ => ?_) ?_
  · have h1 := sum_update (fun pc : WorkerPc R => unfiled μ pc.call) s.worker w pc
    have h2 := hunfiled μ
    simp only [State.unfiled, hw, hc]
    omega
  · have h1 := sum_update (fun pc : WorkerPc R => pc.flight μ) s.worker w pc
    have h2 := hflight μ
    rw [hw]
    omega
  · have h1 := sum_update (fun pc : WorkerPc R => pc.running μ) s.worker w pc
    have h2 := hbodies μ
    rw [hw]
    omega
  · have h1 := sum_update (fun pc : WorkerPc R => counted pc.call) s.worker w pc
    have h2 := sum_update WorkerPc.uncounted s.worker w pc
    simp only [State.counted, hw, hc]
    omega

/-- A step outside the pool. -/
theorem Account.client [DecidableEq ω] (ha : Account s) {c : ω} {call : Option (SubmitPc R)}
    (hb : Books s s' pushed [] []) (hw : s'.worker = s.worker)
    (hc : s'.client = Function.update s.client c call) (hset : s'.accounted = s.accounted)
    (hfin : s'.finished = s.finished)
    (hunfiled : ∀ μ, unfiled μ call + mass μ (pushed.map Prod.snd) +
      mass μ (List.range s.next) = unfiled μ (s.client c) + mass μ (List.range s'.next))
    (hpending : s'.pending + counted (s.client c) =
      s.pending + pushed.length + counted call) : Account s' := by
  refine ha.step hb (fun μ => ?_) (fun μ => ?_) (fun μ => ?_) ?_
  · have h1 := sum_update (unfiled μ) s.client c call
    have h2 := hunfiled μ
    simp only [State.unfiled, hw, hc]
    omega
  · simp only [State.settled, hw, hset, mass_nil, Nat.zero_add]
  · simp only [hw, hfin, List.map_nil, mass_nil, Nat.zero_add]
  · have h1 := sum_update counted s.client c call
    simp only [State.counted, hw, hc, List.length_nil]
    omega

/-- A step that touches no account. -/
theorem Account.congr (ha : Account s) (hb : Books s s' [] [] []) (hw : s'.worker = s.worker)
    (hc : s'.client = s.client) (hn : s'.next = s.next) (hset : s'.accounted = s.accounted)
    (hfin : s'.finished = s.finished) (hp : s'.pending = s.pending) : Account s' := by
  refine ha.step hb (fun μ => ?_) (fun μ => ?_) (fun μ => ?_) ?_
  · simp only [State.unfiled, hw, hc, hn, List.map_nil, mass_nil, Nat.add_zero]
  · simp only [State.settled, hw, hset, mass_nil, Nat.zero_add]
  · simp only [hw, hfin, List.map_nil, mass_nil, Nat.zero_add]
  · simp only [State.counted, hw, hc, hp, List.length_nil, Nat.add_zero]

/-- A step of worker `w` with nothing but its program counter. -/
theorem Account.quiet (ha : Account s) (hw : s'.worker = Function.update s.worker w pc)
    (hc : s'.client = s.client) (ht : s'.tables = s.tables) (he : s'.enqueued = s.enqueued)
    (hd : s'.dispatched = s.dispatched) (hset : s'.accounted = s.accounted)
    (hn : s'.next = s.next) (hfin : s'.finished = s.finished) (hp : s'.pending = s.pending)
    (hcall : pc.call = (s.worker w).call) (hfly : pc.flying = (s.worker w).flying)
    (hrun : ∀ μ, pc.running μ = (s.worker w).running μ)
    (hun : pc.uncounted = (s.worker w).uncounted) : Account s' := by
  refine ha.worker (.refl ht he hd hset) hw hc (fun μ => ?_) (fun μ => ?_) (fun μ => ?_) ?_
  · rw [hcall, hn, List.map_nil, mass_nil, Nat.add_zero]
  · simp only [mass_nil, State.settled, hset, WorkerPc.flight, hfly, Nat.zero_add]
  · rw [hfin, hrun]
    simp
  · rw [hcall, hun, hp]

section Moves

variable [One R] [Div R] [LE R] [LT R] [DecidableLT R]

omit [Fintype ω] in
/-- What a step of `submit` does to the books, and to its own call. -/
theorem Submitting.books {call : SubmitPc R} {call' : Option (SubmitPc R)}
    (h : Submitting s call s' call') :
    ∃ pushed, Books s s' pushed [] [] ∧
      (∀ μ, unfiled μ call' + mass μ (pushed.map Prod.snd) = unfiled μ (some call)) ∧
      s'.pending + counted (some call) = s.pending + pushed.length + counted call' := by
  cases h with
  | count => exact ⟨[], .refl rfl rfl rfl rfl, fun _ => rfl,
    by simp only [counted, List.length_nil]⟩
  | ring | done => exact ⟨[], .refl rfl rfl rfl rfl, fun _ => rfl, rfl⟩
  | @enqueue job opts t₁ t id hcreate _ hpush =>
    refine ⟨[(id, job)], ?_, fun μ => by simp [unfiled], by
      simp only [counted, List.length_singleton]⟩
    -- the class may be a new one, without jobs and accounts
    have h1 : ∀ j, t₁.runnable j = s.tables.runnable j ∧ t₁.completed j = s.tables.completed j ∧
        t₁.totalBusySeconds j = s.tables.totalBusySeconds j := fun j => by
      rcases hcreate with rfl | hcreate
      · exact ⟨rfl, rfl, rfl⟩
      · have := hcreate.runnable j
        simp only [Op.pushed, Op.taken, valuesAt_nil, List.append_nil, List.nil_append] at this
        exact ⟨this.symm, (hcreate.accounts j).1, (hcreate.accounts j).2⟩
    exact
      { runnable := fun j => by rw [← (h1 j).1]; exact hpush.runnable j
        completed := fun j => by rw [← (h1 j).2.1]; exact (hpush.accounts j).1
        busy := fun j => by rw [← (h1 j).2.2]; exact (hpush.accounts j).2
        enqueued := rfl
        dispatched := (List.append_nil _).symm
        times := (List.append_nil _).symm }

variable [DecidableLE R] [DecidableEq ω] {l : Label R N ω}

omit [DecidableLE R] in
/-- **Every step keeps the accounts.** -/
theorem Move.accounts (ha : Account s) (h : Move s l s') : Account s' := by
  cases h with
  | shutdown | store | controlRing | joinWorker | join =>
    exact ha.congr (.refl rfl rfl rfl rfl) rfl rfl rfl rfl rfl rfl
  | @register name weight t hc =>
    have hb : Books s { s with tables := t } (Op.create name weight).pushed [] [] :=
      .of_change hc (List.append_nil _).symm (List.append_nil _).symm (List.append_nil _).symm
    exact ha.congr hb rfl rfl rfl rfl rfl rfl
  | @client c opts hc =>
    refine ha.client (.refl rfl rfl rfl rfl) rfl rfl rfl rfl (fun μ => ?_) ?_
    · rw [hc]
      simp only [unfiled, List.range_succ, List.map_nil, mass_append, mass_cons, mass_nil]
      omega
    · rw [hc]
      rfl
  | @clientStep c call call' s₁ hc hsub =>
    obtain ⟨pushed, hb, h1, h2⟩ := hsub.books
    obtain ⟨hw, hcl, -, -, hn, -, hfin, -, -, hacc⟩ := hsub.frame
    refine ha.client (c := c) ⟨hb.1, hb.2, hb.3, hb.4, hb.5, hb.6⟩ hw (by rw [hcl]) hacc hfin
      (fun μ => ?_) (by rw [hc]; exact h2)
    have := h1 μ
    rw [hc, hn]
    omega
  | @nested w opts id job hw =>
    refine ha.worker (.refl rfl rfl rfl rfl) rfl rfl (fun μ => ?_) (fun μ => ?_) (fun μ => ?_) ?_
    · rw [hw]
      simp only [WorkerPc.call, unfiled, List.range_succ, List.map_nil, mass_append, mass_cons,
        mass_nil]
      omega
    all_goals rw [hw]; simp [State.settled, State.setWorker, WorkerPc.flight, WorkerPc.flying,
      WorkerPc.running, WorkerPc.uncounted, WorkerPc.call, counted]
  | @nestedStep w id job call call' s₁ hw hsub =>
    obtain ⟨pushed, hb, h1, h2⟩ := hsub.books
    obtain ⟨hwk, hcl, -, -, hn, -, hfin, -, -, hacc⟩ := hsub.frame
    have hwk' : (s₁.setWorker w (.body id job call')).worker =
        Function.update s.worker w (.body id job call') := congrArg (Function.update · w _) hwk
    refine ha.worker ⟨hb.1, hb.2, hb.3, hb.4, hb.5, hb.6⟩ hwk' hcl (fun μ => ?_) (fun μ => ?_)
      (fun μ => ?_) ?_
    · have := h1 μ
      rw [hw]
      simp only [State.setWorker, WorkerPc.call, hn]
      omega
    · rw [hw]
      simp [State.settled, State.setWorker, hacc, WorkerPc.flight, WorkerPc.flying]
    · rw [hw]
      simp [State.setWorker, hfin, WorkerPc.running]
    · rw [hw]
      simp only [State.setWorker, WorkerPc.call, WorkerPc.uncounted, List.length_nil]
      omega
  | current hw | noJob hw | deliver hw | ring hw | flag hw | noFlag hw | noPending hw | pending hw
  | wake hw =>
    exact ha.quiet rfl rfl rfl rfl rfl rfl rfl rfl rfl (by rw [hw]; rfl) (by rw [hw]; rfl)
      (fun μ => by rw [hw]; rfl) (by rw [hw]; rfl)
  | @finish w id job hw =>
    refine ha.worker (.refl rfl rfl rfl rfl) rfl rfl (fun μ => ?_) (fun μ => ?_) (fun μ => ?_) ?_
    all_goals rw [hw]
    · rfl
    · simp [State.settled, State.setWorker, WorkerPc.flight, WorkerPc.flying]
    · simp [WorkerPc.running]
    · rfl
  | @take w gen id job t hw hc =>
    refine ha.worker (.of_change hc (List.append_nil _).symm rfl (List.append_nil _).symm) rfl rfl
      (fun μ => ?_) (fun μ => ?_) (fun μ => ?_) ?_
    all_goals rw [hw]
    · rfl
    · simp [Op.taken, State.settled, State.setWorker, WorkerPc.flight, WorkerPc.flying,
        Nat.add_comm]
    · simp [Op.taken, State.setWorker, WorkerPc.running, Nat.add_comm]
    · rfl
  | @uncount w id job hw =>
    have hpos := ha.pending_pos (w := w) (by rw [hw]; rfl)
    refine ha.worker (.refl rfl rfl rfl rfl) rfl rfl (fun μ => ?_) (fun μ => ?_) (fun μ => ?_) ?_
    all_goals rw [hw]
    · rfl
    · simp [State.settled, State.setWorker, WorkerPc.flight, WorkerPc.flying]
    · simp [State.setWorker, WorkerPc.running]
    · simp only [State.setWorker, WorkerPc.call, WorkerPc.uncounted, counted, List.length_nil]
      omega
  | @account w id job elapsed t hw hc =>
    refine ha.worker (.of_change hc (List.append_nil _).symm (List.append_nil _).symm
      (List.map_append ..)) rfl rfl (fun μ => ?_) (fun μ => ?_) (fun μ => ?_) ?_
    all_goals rw [hw]
    · rfl
    · simp [Op.taken, State.settled, State.setWorker, WorkerPc.flight, WorkerPc.flying]
    · simp [Op.taken, State.setWorker, WorkerPc.running]
    · rfl

omit [One R] [Div R] [LE R] [LT R] [DecidableLT R] [DecidableLE R] [DecidableEq ω] in
theorem construct_account (h : construct R N ω = some s) : Account s := by
  unfold construct at h
  split_ifs at h
  obtain rfl := Option.some.inj h
  constructor <;> intros <;>
    simp [emptyTables, Tables.runnable, Tables.completed, Tables.totalBusySeconds, State.times,
      State.settled, State.unfiled, State.counted, unfiled, counted, WorkerPc.call,
      WorkerPc.flight, WorkerPc.flying, WorkerPc.running, WorkerPc.uncounted]

/-- **The accounts are right in every reachable state.** -/
theorem reachable_account (h : (machine R N ω).Reachable s) : Account s :=
  h.invariant (fun _ => construct_account) fun _ _ _ _ _ hst ha => (step_move hst).accounts ha

end Moves

end Wss.Fair
