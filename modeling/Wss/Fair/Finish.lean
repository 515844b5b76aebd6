import Wss.Fair.Consistent
import Wss.Fair.Drain
import Wss.Fair.Failure
import Wss.Fair.Sleep
import Wss.Lib.Rank

/-!
# Left alone, `FairScheduler` settles

Let nobody call `submit`, `register_class` or `shutdown` any more, and let every running body
return. Then the threads have only so many steps left (`stepsLeft`), whoever takes them and whatever
times are measured.

* A round of `worker_loop` without a job is `5` steps from one `wait` to the next, and there is one
  for every worker in each notification. A job is `9` steps from the critical section that takes it
  to the end of the round, and notifies once.

Results:
* `reachable_placed`, `reachable_delivering`: the class of a job in flight is there, and a job taken
  is delivered or in flight.
* `Move.left`: every step that begins no call leaves less to do.
* `left_alone_settles`: where nothing is left, every job of every class has run, is accounted for
  and has its result in its handle.
-/

namespace Wss.Fair

open Wss.Lib

variable {R : Type} {N : ℕ} {ω : Type}

/-- A step that begins no call. -/
def Inner (_ : State R N ω) : Label R N ω → Prop
  | .client _ _ | .register _ _ | .nested _ _ | .join _ _ | .shutdown => False
  | .clientStep _ | .finish _ | .worker _ | .account _ _ | .control => True

/-! ## The steps left -/

/-- The steps a call of `submit` has left. -/
def callLeft : Option (SubmitPc R) → ℕ
  | some (.count _ _) => 4
  | some (.enqueue _ _) => 3
  | some (.ring _) => 2
  | some (.done _) => 1
  | none => 0

/-- The notifications a call of `submit` has left. -/
def callRings : Option (SubmitPc R) → ℕ
  | some (.count _ _) | some (.enqueue _ _) | some (.ring _) => 1
  | some (.done _) | none => 0

namespace WorkerPc

/-- The notifications of the job a worker runs, and of the `submit` it is in. -/
def rings : WorkerPc R → ℕ
  | .body _ _ call => callRings call + 1
  | .deliver _ _ | .uncount _ _ | .ring _ _ => 1
  | .current | .dispatch _ | .account _ _ | .loadFlag _ | .loadPending _ | .wait _ | .exited => 0

/-- The steps a worker has left until it sleeps, if it is not sent back. -/
def left : WorkerPc R → ℕ
  | .body _ _ call => callLeft call + 9
  | .deliver _ _ => 8
  | .uncount _ _ => 7
  | .ring _ _ => 6
  | .account _ _ => 5
  | .current => 4
  | .dispatch _ => 3
  | .loadFlag _ => 2
  | .loadPending _ => 1
  | .wait _ | .exited => 0

/-- The same, with the round that an old generation sends it to. -/
def allLeft (gen : ℕ) (pc : WorkerPc R) : ℕ := pc.left + staleCost 5 (gen % 2 ^ 64) pc.snapshot

theorem allLeft_ring (gen gen' : ℕ) (pc : WorkerPc R) : pc.allLeft gen' ≤ pc.allLeft gen + 5 := by
  have hle := staleCost_le 5 (gen' % 2 ^ 64) pc.snapshot
  unfold allLeft
  omega

theorem left_le_allLeft (gen : ℕ) (pc : WorkerPc R) : pc.left ≤ pc.allLeft gen :=
  Nat.le_add_right _ _

/-- A worker that has no generation in its hands. -/
theorem allLeft_of_none {pc : WorkerPc R} (h : pc.snapshot = none) (gen : ℕ) :
    pc.allLeft gen = pc.left := by
  unfold allLeft
  rw [h, staleCost_none, Nat.add_zero]

end WorkerPc

/-- The jobs that no worker has taken. -/
def unstarted (s : State R N ω) : ℕ := s.next - s.dispatched.length

/-- The steps left. -/
def stepsLeft [Fintype ω] (s : State R N ω) : ℕ :=
  poolRank 5 7 (unstarted s) (s.control.rings + ∑ c, callRings (s.client c))
    (s.control.left N + ∑ c, callLeft (s.client c)) (fun w => (s.worker w).rings)
    fun w => (s.worker w).allLeft s.gen

variable {s s' : State R N ω} {w : Fin N} {pc : WorkerPc R}

section Steps

variable [Fintype ω]

/-- A step of worker `w` that does not notify, and takes `a` jobs. -/
theorem stepsLeft_worker (hgen : s'.gen = s.gen) (hnext : s'.next = s.next)
    (hcl : s'.client = s.client) (hcon : s'.control = s.control)
    (hw : s'.worker = Function.update s.worker w pc) {a : ℕ}
    (htaken : s'.dispatched.length = s.dispatched.length + a) (hle : s'.dispatched.length ≤ s'.next)
    (hrings : pc.rings = (s.worker w).rings + a)
    (hlt : pc.allLeft s.gen < (s.worker w).allLeft s.gen + 7 * a) : stepsLeft s' < stepsLeft s := by
  have hself : s'.worker w = pc := by rw [hw, Function.update_self]
  unfold stepsLeft
  rw [hcl, hcon, hgen]
  refine poolRank_worker (k := w) (a := a) ?_ (fun u hu => ?_) ?_ ?_
  · unfold unstarted
    omega
  · rw [hw, Function.update_of_ne hu]
    exact ⟨rfl, le_rfl⟩
  · rw [hself, hrings]
  · rw [hself]
    exact hlt

/-- A notification of worker `w`. -/
theorem stepsLeft_worker_ring (hun : unstarted s' = unstarted s) (hcl : s'.client = s.client)
    (hcon : s'.control = s.control) (hw : s'.worker = Function.update s.worker w pc)
    (hrings : pc.rings + 1 = (s.worker w).rings)
    (hlt : pc.allLeft s'.gen < (s.worker w).allLeft s.gen) : stepsLeft s' < stepsLeft s := by
  have hself : s'.worker w = pc := by rw [hw, Function.update_self]
  unfold stepsLeft
  rw [hcl, hcon, hun]
  refine poolRank_worker_ring (k := w) (fun u hu => ?_) ?_ ?_
  · rw [hw, Function.update_of_ne hu]
    exact ⟨rfl, WorkerPc.allLeft_ring _ _ _⟩
  · rw [hself, hrings]
  · rw [hself]
    exact hlt

/-- A step outside the pool. It may notify once, if it has one notification less left then. -/
theorem stepsLeft_outside {a : ℕ} (hgen : s'.gen = s.gen ∨ a = 1)
    (hun : unstarted s' = unstarted s) (hw : s'.worker = s.worker)
    (hrings : s'.control.rings + ∑ c, callRings (s'.client c) + a ≤
      s.control.rings + ∑ c, callRings (s.client c))
    (hleft : s'.control.left N + ∑ c, callLeft (s'.client c) + 1 ≤
      s.control.left N + ∑ c, callLeft (s.client c)) : stepsLeft s' < stepsLeft s := by
  unfold stepsLeft
  rw [hun, hw]
  rcases hgen with hgen | rfl
  · rw [hgen]
    exact poolRank_outside (by omega) hleft fun u => le_rfl
  · exact poolRank_outside_ring (by omega) hleft fun u => WorkerPc.allLeft_ring _ _ _

end Steps

/-! ## What else a run keeps -/

/-- The job of a worker whose result is not delivered. -/
def WorkerPc.undelivered (μ : ClassId × ℕ → ℕ) : WorkerPc R → ℕ
  | .body id job _ | .deliver id job => μ (id, job)
  | .uncount _ _ | .ring _ _ | .account _ _ | .current | .dispatch _ | .loadFlag _ | .loadPending _
  | .wait _ | .exited => 0

/-- A job that was taken has been delivered or is in flight. -/
def Delivering (s : State R N ω) : Prop :=
  ∀ μ, mass μ s.dispatched = mass μ s.delivered + ∑ w, (s.worker w).undelivered μ

/-- The class of a job in flight is there. -/
def Placed (s : State R N ω) : Prop :=
  ∀ w id job, (s.worker w).flying = some (id, job) → id < s.tables.classes.length

/-- Where `shutdown` joins its workers they have been told. -/
def Joining (s : State R N ω) : Prop := ∀ k, s.control = .join k → k < N ∧ s.Told

/-! ## One step -/

section Moves

variable [Zero R] [One R] [Add R] [Div R] [LE R] [LT R] [DecidableLT R]

/-- What a step of `submit` has left. -/
theorem Submitting.left {call : SubmitPc R} {call' : Option (SubmitPc R)}
    (h : Submitting s call s' call') :
    callLeft call' + 1 = callLeft (some call) ∧
      (s'.gen = s.gen ∧ callRings call' = callRings (some call) ∨
        callRings call' + 1 = callRings (some call)) := by
  cases h with
  | count | enqueue | done => exact ⟨rfl, .inl ⟨rfl, rfl⟩⟩
  | ring => exact ⟨rfl, .inr rfl⟩

theorem Submitting.unstarted {call : SubmitPc R} {call' : Option (SubmitPc R)}
    (h : Submitting s call s' call') : unstarted s' = unstarted s := by
  obtain ⟨-, -, -, -, hnext, hdisp, -⟩ := h.frame
  unfold Fair.unstarted
  rw [hnext, hdisp]

variable [Fintype ω]

omit [One R] [Div R] [LE R] [LT R] [DecidableLT R] in
theorem Account.dispatched_le (ha : Account s) : s.dispatched.length ≤ s.next := by
  have h := ha.jobs fun _ => 1
  have hle := ha.dispatched_subperm.length_le
  rw [mass_one, mass_one, List.length_range, List.length_map] at h
  omega

/-- A step of `submit` of a thread outside the pool. -/
theorem Submitting.client_left [DecidableEq ω] {c : ω} {call : SubmitPc R}
    {call' : Option (SubmitPc R)} (hc : s.client c = some call) (h : Submitting s call s' call') :
    stepsLeft { s' with client := Function.update s'.client c call' } < stepsLeft s := by
  obtain ⟨hleft, hnote⟩ := h.left
  obtain ⟨hw, hcl, hcon, -⟩ := h.frame
  have hlt : ∑ i, callLeft (Function.update s.client c call' i) + 1 ≤
      ∑ i, callLeft (s.client i) + 0 := by
    refine sum_add_le (k := c) (fun i hi => by rw [Function.update_of_ne hi]) ?_
    rw [Function.update_self, hc]
    omega
  have hcount : ∀ a, callRings call' + a = callRings (some call) →
      ∑ i, callRings (Function.update s.client c call' i) + a ≤
        ∑ i, callRings (s.client i) + 0 := by
    intro a ha
    refine sum_add_le (k := c) (fun i hi => by rw [Function.update_of_ne hi]) ?_
    rw [Function.update_self, hc]
    omega
  rcases hnote with ⟨hgen, hrings⟩ | hrings
  · have hsum := hcount 0 hrings
    refine stepsLeft_outside (a := 0) (.inl hgen) h.unstarted hw ?_ ?_
    all_goals
      dsimp only
      rw [hcl, hcon]
      omega
  · have hsum := hcount 1 hrings
    refine stepsLeft_outside (a := 1) (.inr rfl) h.unstarted hw ?_ ?_
    all_goals
      dsimp only
      rw [hcl, hcon]
      omega

omit [One R] [Div R] [LE R] [LT R] [DecidableLT R] in
/-- A step of a worker that only moves its program counter and the generation it has taken. -/
theorem stepsLeft_quiet (hgen : s'.gen = s.gen) (hnext : s'.next = s.next)
    (hcl : s'.client = s.client) (hcon : s'.control = s.control)
    (hw : s'.worker = Function.update s.worker w pc) (htaken : s'.dispatched = s.dispatched)
    (ha' : Account s') (hrings : pc.rings = (s.worker w).rings)
    (hlt : pc.allLeft s.gen < (s.worker w).allLeft s.gen) : stepsLeft s' < stepsLeft s :=
  stepsLeft_worker (a := 0) hgen hnext hcl hcon hw (congrArg List.length htaken) ha'.dispatched_le
    hrings hlt

variable [DecidableEq ω] {l : Label R N ω}

/-- **Every step that begins no call leaves less to do.** -/
theorem Move.left (hok : Inner s l) (ha' : Account s') (h : Move s l s') :
    stepsLeft s' < stepsLeft s := by
  cases h with
  | client | register | nested | join | shutdown => exact absurd hok (by simp [Inner])
  | clientStep hc hsub => exact hsub.client_left hc
  | @nestedStep w id job call call' s₁ hpc hsub =>
    obtain ⟨hleft, hnote⟩ := hsub.left
    obtain ⟨hw, hcl, hcon, -, hnext, hdisp, -⟩ := hsub.frame
    have hworker : (s₁.setWorker w (.body id job call')).worker =
        Function.update s.worker w (.body id job call') := congrArg (Function.update · w _) hw
    have hlt : ∀ gen gen', (WorkerPc.body id job call').allLeft gen <
        (WorkerPc.body id job (some call)).allLeft gen' := by
      intro gen gen'
      rw [WorkerPc.allLeft_of_none rfl, WorkerPc.allLeft_of_none rfl]
      show callLeft call' + 9 < callLeft (some call) + 9
      omega
    rcases hnote with ⟨hgen, hrings⟩ | hrings
    · refine stepsLeft_quiet hgen hnext hcl hcon hworker hdisp ha' ?_ ?_
      · rw [hpc]
        exact congrArg (· + 1) hrings
      · rw [hpc]
        exact hlt _ _
    · refine stepsLeft_worker_ring hsub.unstarted hcl hcon hworker ?_ ?_
      · rw [hpc]
        exact congrArg (· + 1) hrings
      · rw [hpc]
        exact hlt _ _
  | current hpc =>
    refine stepsLeft_quiet rfl rfl rfl rfl rfl rfl ha' (by rw [hpc]; rfl) ?_
    rw [hpc, WorkerPc.allLeft_of_none (rfl : (WorkerPc.current : WorkerPc R).snapshot = none)]
    show 3 + staleCost 5 (s.gen % 2 ^ 64) (some (s.gen % 2 ^ 64)) < 4
    rw [staleCost_now]
    omega
  | noJob hpc | flag hpc | noFlag hpc | pending hpc =>
    refine stepsLeft_quiet rfl rfl rfl rfl rfl rfl ha' (by rw [hpc]; rfl) ?_
    rw [hpc]
    exact Nat.add_lt_add_right (by simp [WorkerPc.left]) _
  | @noPending w gen hpc =>
    refine stepsLeft_quiet rfl rfl rfl rfl rfl rfl ha' (by rw [hpc]; rfl) ?_
    rw [hpc, WorkerPc.allLeft_of_none rfl]
    exact Nat.lt_of_lt_of_le Nat.one_pos (WorkerPc.left_le_allLeft _ (.loadPending gen))
  | @wake w gen hpc hgen =>
    refine stepsLeft_quiet rfl rfl rfl rfl rfl rfl ha' (by rw [hpc]; rfl) ?_
    rw [hpc, WorkerPc.allLeft_of_none rfl]
    show 4 < 0 + staleCost 5 (s.gen % 2 ^ 64) (some gen)
    rw [staleCost_of_ne 5 hgen]
    omega
  | @take w gen id job t hpc =>
    refine stepsLeft_worker (a := 1) rfl rfl rfl rfl rfl ?_ ha'.dispatched_le (by rw [hpc]; rfl) ?_
    · show (s.dispatched ++ [(id, job)]).length = _
      rw [List.length_append, List.length_singleton]
    · have hle : (WorkerPc.dispatch gen : WorkerPc R).left ≤ _ := WorkerPc.left_le_allLeft s.gen _
      rw [hpc, WorkerPc.allLeft_of_none rfl]
      change 3 ≤ _ at hle
      show 0 + 9 < _
      omega
  | finish hpc | deliver hpc | uncount hpc | account hpc =>
    refine stepsLeft_quiet rfl rfl rfl rfl rfl rfl ha' (by rw [hpc]; rfl) ?_
    rw [hpc, WorkerPc.allLeft_of_none rfl, WorkerPc.allLeft_of_none rfl]
    simp [WorkerPc.left]
  | ring hpc =>
    refine stepsLeft_worker_ring rfl rfl rfl rfl (by rw [hpc]; rfl) ?_
    rw [hpc, WorkerPc.allLeft_of_none rfl, WorkerPc.allLeft_of_none rfl]
    simp [WorkerPc.left]
  | store hcon =>
    refine stepsLeft_outside (a := 0) (.inl rfl) rfl rfl ?_ ?_
    all_goals
      rw [hcon]
      simp only [ControlPc.rings, ControlPc.left]
      omega
  | controlRing hcon =>
    refine stepsLeft_outside (a := 1) (.inr rfl) rfl rfl ?_ ?_
    all_goals
      dsimp only
      rw [hcon]
      first | rw [joinNext_rings] | rw [joinNext_left]
      simp only [ControlPc.rings, ControlPc.left]
      omega
  | joinWorker hk hcon =>
    refine stepsLeft_outside (a := 0) (.inl rfl) rfl rfl ?_ ?_
    all_goals
      dsimp only
      rw [hcon]
      first | rw [joinNext_rings] | rw [joinNext_left]
      simp only [ControlPc.rings, ControlPc.left]
      omega

theorem inner_ranked [DecidableLE R] :
    (machine R N ω).Ranked (machine R N ω).Reachable Inner stepsLeft where
  keep hr _ hst := hr.next hst
  pay hr hok hst :=
    Nat.succ_le_of_lt ((step_move hst).left hok (reachable_account (hr.next hst)))

/-! ## Deliveries, places and the notification of `shutdown` -/

omit [Zero R] [One R] [Add R] [Div R] [LE R] [LT R] [DecidableLT R] [Fintype ω] [DecidableEq ω] in
/-- A step of worker `w` that takes `taken` and delivers `delivered`. -/
theorem Delivering.worker (hd : Delivering s) (taken delivered : List (ClassId × ℕ))
    (hw : s'.worker = Function.update s.worker w pc)
    (htaken : s'.dispatched = s.dispatched ++ taken)
    (hdel : s'.delivered = s.delivered ++ delivered)
    (hpc : ∀ μ, mass μ taken + (s.worker w).undelivered μ = mass μ delivered + pc.undelivered μ) :
    Delivering s' := by
  intro μ
  have h1 := hd μ
  have h2 := hpc μ
  have h3 := sum_update (WorkerPc.undelivered μ) s.worker w pc
  rw [htaken, hdel, hw, mass_append, mass_append]
  omega

omit [Fintype ω] in
theorem Move.delivering (hd : Delivering s) (h : Move s l s') : Delivering s' := by
  cases h with
  | client | register | shutdown | store | controlRing | joinWorker | join => exact hd
  | clientStep hc hsub =>
    obtain ⟨hw, -, -, -, -, htaken, -, hdel, -⟩ := hsub.frame
    intro μ
    dsimp only
    rw [hw, htaken, hdel]
    exact hd μ
  | @nestedStep w id job call call' s₁ hpc hsub =>
    obtain ⟨hw, -, -, -, -, htaken, -, hdel, -⟩ := hsub.frame
    refine hd.worker [] [] (congrArg (Function.update · w _) hw)
      (htaken.trans (List.append_nil _).symm) (hdel.trans (List.append_nil _).symm) fun μ => ?_
    rw [hpc]
    rfl
  | current hpc | noJob hpc | nested hpc | finish hpc | uncount hpc | ring hpc | account hpc
  | flag hpc | noFlag hpc | noPending hpc | pending hpc | wake hpc =>
    refine hd.worker [] [] rfl (List.append_nil _).symm
      (List.append_nil _).symm fun μ => ?_
    rw [hpc]
    rfl
  | take hpc =>
    refine hd.worker _ [] rfl rfl (List.append_nil _).symm fun μ => ?_
    rw [hpc]
    simp [WorkerPc.undelivered]
  | deliver hpc =>
    refine hd.worker [] _ rfl (List.append_nil _).symm rfl fun μ => ?_
    rw [hpc]
    simp [WorkerPc.undelivered]

omit [One R] [Fintype ω] [DecidableEq ω] in
/-- No class is ever dropped. -/
theorem Change.length_mono {t t' : Tables R} {o : Op R} {n : ℕ} (h : Change t o t')
    (hn : n < t.classes.length) : n < t'.classes.length := by
  cases h with
  | create =>
    show n < (t.classes ++ [_]).length
    rw [List.length_append]
    omega
  | push | wake | take | drain | account =>
    show n < (t.classes.set _ _).length
    rwa [List.length_set]

omit [One R] [Fintype ω] [DecidableEq ω] in
theorem Change.take_lt {t t' : Tables R} {id : ClassId} {job : ℕ} (h : Change t (.take id job) t') :
    id < t.classes.length := by
  cases h with
  | take _ hc | drain _ hc => exact (List.getElem?_eq_some_iff.mp hc).1

omit [Fintype ω] in
theorem Move.placed (hp : Placed s) (h : Move s l s') : Placed s' := by
  have hmono : ∀ {id : ClassId}, id < s.tables.classes.length → id < s'.tables.classes.length :=
    fun hlt => h.preserves (P := fun t => _ < t.classes.length) (fun hc hlt => hc.length_mono hlt)
      hlt
  have hkeep : ∀ {w pc}, s'.worker = Function.update s.worker w pc →
      (∀ x, pc.flying = some x → (s.worker w).flying = some x ∨ x.1 < s'.tables.classes.length) →
      Placed s' := by
    intro w pc hw hfly u id job hu
    by_cases huw : u = w
    · rw [hw, huw, Function.update_self] at hu
      exact (hfly _ hu).elim (fun h => hmono (hp w id job h)) fun h => h
    · rw [hw, Function.update_of_ne huw] at hu
      exact hmono (hp u id job hu)
  cases h with
  | client | shutdown | store | controlRing | joinWorker | join => exact hp
  | register => exact fun w id job hw => hmono (hp w id job hw)
  | clientStep hc hsub =>
    obtain ⟨hw, -⟩ := hsub.frame
    exact fun w id job h => hmono (hp w id job ((congrFun hw w) ▸ h))
  | @nestedStep w id job call call' s₁ hpc hsub =>
    obtain ⟨hw, -⟩ := hsub.frame
    exact hkeep (congrArg (Function.update · w _) hw) fun x hx => .inl (by rw [hpc]; exact hx)
  | nested hpc | finish hpc | deliver hpc | uncount hpc | ring hpc =>
    exact hkeep rfl fun x hx => .inl (by rw [hpc]; exact hx)
  | current | noJob | account | flag | noFlag | noPending | pending | wake =>
    exact hkeep rfl fun x hx => absurd hx (by simp [WorkerPc.flying])
  | take hpc hc =>
    refine hkeep rfl fun x hx => .inr ?_
    obtain rfl := Option.some.inj hx
    exact hmono hc.take_lt

omit [Fintype ω] in
/-- Where `shutdown` joins its workers they have been told. -/
theorem Move.joining (ha : Alert s) (hflag : s.control = .ring → s.shutdownFlag = true)
    (hj : Joining s) (h : Move s l s') : Joining s' := by
  intro k hk
  have htold : ∀ j, s.control = .join j → s'.Told := fun j hc => h.told ha (hj j hc).2
  have hold : s.control = .join k → k < N ∧ s'.Told := fun hc => ⟨(hj k hc).1, htold k hc⟩
  cases h with
  | shutdown | store => exact absurd hk (by simp)
  | controlRing hcon => exact ⟨joinNext_lt hk, (Move.controlRing hcon).tell ha (hflag hcon) hcon⟩
  | joinWorker _ hcon => exact ⟨joinNext_lt hk, htold _ hcon⟩
  | clientStep _ hsub | nestedStep _ hsub =>
    obtain ⟨-, -, hcon, -⟩ := hsub.frame
    exact hold (hcon.symm.trans hk)
  | _ => exact hold hk

variable [DecidableLE R]

omit [One R] [Add R] [Div R] [LE R] [LT R] [DecidableLT R] [Fintype ω] [DecidableEq ω]
  [DecidableLE R] in
theorem construct_nothing (h : construct R N ω = some s) :
    Delivering s ∧ Placed s ∧ Joining s := by
  unfold construct at h
  split_ifs at h
  obtain rfl := Option.some.inj h
  exact ⟨fun μ => by simp [WorkerPc.undelivered],
    fun _ _ _ h => absurd h (by simp [WorkerPc.flying]),
    fun _ h => absurd h (by simp)⟩

omit [Fintype ω] in
theorem reachable_delivering (h : (machine R N ω).Reachable s) : Delivering s :=
  h.invariant (fun _ h₀ => (construct_nothing h₀).1) fun _ _ _ _ _ hst hd =>
    (step_move hst).delivering hd

omit [Fintype ω] in
theorem reachable_placed (h : (machine R N ω).Reachable s) : Placed s :=
  h.invariant (fun _ h₀ => (construct_nothing h₀).2.1) fun _ _ _ _ _ hst hp =>
    (step_move hst).placed hp

omit [Fintype ω] in
theorem reachable_joining (h : (machine R N ω).Reachable s) : Joining s :=
  h.invariant (fun _ h₀ => (construct_nothing h₀).2.2) fun _ _ _ hr _ hst hj =>
    (step_move hst).joining (reachable_alert hr.reachable) (reachable_flagged hr.reachable) hj

end Moves

/-! ## Where no step is left -/

section Stopped

variable [Field R] [LinearOrder R] [IsStrictOrderedRing R]

/-- The critical section of `submit` gets through. -/
theorem enqueue_isSome {t : Tables R} {opts : SubmitOptions R} (ht : t.Ok) (job : ℕ) :
    (enqueue t job opts).isSome := by
  have hn : Named t := by
    intro name id hid
    obtain ⟨c, hc, -⟩ := (ht.names name id).mp hid
    exact (List.getElem?_eq_some_iff.mp hc).1
  obtain ⟨t₁, id, c, hcreate, hc, -⟩ := exists_class hn (classWeight_pos : ¬ opts.classWeight ≤ 0)
  unfold enqueue pushRunnable
  rw [hcreate, Option.bind_some]
  dsimp only
  rw [hc]
  rfl

theorem stepSubmit_isSome (ht : s.tables.Ok) (call : SubmitPc R) : (stepSubmit s call).isSome := by
  cases call with
  | enqueue job opts => exact (Option.isSome_map ..).trans (enqueue_isSome ht job)
  | count | ring | done => rfl

variable [DecidableEq ω]

theorem stopped_client {c : ω} (hr : (machine R N ω).Reachable s)
    (hstop : (machine R N ω).Stopped Inner s) : s.client c = none := by
  have hnone : step s (.clientStep c) = none := hstop (.clientStep c) trivial
  simp only [step] at hnone
  split at hnone
  · assumption
  · rename_i call hc
    rw [Option.map_eq_none_iff] at hnone
    have hsome := stepSubmit_isSome (reachable_ok hr) call
    rw [hnone] at hsome
    exact absurd hsome (by simp)

/-- A worker that has no step left sleeps or has left. -/
theorem stopped_worker (hr : (machine R N ω).Reachable s)
    (hstop : (machine R N ω).Stopped Inner s) (w : Fin N) :
    s.worker w = .exited ∨ s.worker w = .wait (s.gen % 2 ^ 64) := by
  have ht := reachable_ok hr
  have hnone : stepWorker s w = none := hstop (.worker w) trivial
  unfold stepWorker at hnone
  cases hpc : s.worker w with
  | exited => exact .inl rfl
  | wait gen =>
    simp only [hpc] at hnone
    split_ifs at hnone with hg
    exact .inr (by rw [hg])
  | dispatch gen =>
    simp only [hpc, Option.map_eq_none_iff] at hnone
    have hsome := dispatch_isSome ht
    rw [hnone] at hsome
    exact absurd hsome (by simp)
  | body id job call =>
    cases call with
    | none =>
      have hfinish : step s (.finish w) = none := hstop (.finish w) trivial
      simp [step, hpc] at hfinish
    | some call =>
      simp only [hpc, Option.map_eq_none_iff] at hnone
      have hsome := stepSubmit_isSome ht call
      rw [hnone] at hsome
      exact absurd hsome (by simp)
  | account id job =>
    have hlt := reachable_placed hr w id job (by rw [hpc]; rfl)
    have hacc : step s (.account w 0) = none := hstop (.account w 0) trivial
    simp [step, hpc, account, List.getElem?_eq_getElem hlt] at hacc
  | loadFlag gen | loadPending gen =>
    simp only [hpc] at hnone
    split_ifs at hnone
  | current | deliver | uncount | ring => simp [hpc] at hnone

variable [Fintype ω]

/-- Where no job is in flight or on its way into a queue. -/
structure Resting (s : State R N ω) : Prop where
  client : ∀ c, s.client c = none
  worker : ∀ w, (s.worker w).flying = none

omit [Field R] [LinearOrder R] [IsStrictOrderedRing R] [Fintype ω] [DecidableEq ω] in
theorem Resting.call (hq : Resting s) (w : Fin N) : (s.worker w).call = none := by
  have hfly := hq.worker w
  cases hpc : s.worker w with
  | body => simp [hpc, WorkerPc.flying] at hfly
  | _ => rfl

omit [LinearOrder R] [IsStrictOrderedRing R] [DecidableEq ω] in
/-- All that was taken has run and is accounted for, and all that was not waits in its queue. -/
theorem Resting.perm (hq : Resting s) (ha : Account s) (hd : Delivering s) :
    s.settled.Perm s.dispatched ∧ s.finished.Perm (s.dispatched.map Prod.snd) ∧
      (s.enqueued.map Prod.snd).Perm (List.range s.next) ∧ s.delivered.Perm s.dispatched ∧
      s.pending + s.dispatched.length = s.enqueued.length := by
  have hflight : ∀ w μ, (s.worker w).flight μ = 0 ∧ (s.worker w).undelivered μ = 0 := by
    intro w μ
    have hfly := hq.worker w
    cases hpc : s.worker w <;> first
      | exact ⟨rfl, rfl⟩
      | simp [hpc, WorkerPc.flying] at hfly
  have hrun : ∀ w μ, (s.worker w).running μ = 0 ∧ (s.worker w).uncounted = 0 := by
    intro w μ
    have hfly := hq.worker w
    cases hpc : s.worker w <;> first
      | exact ⟨rfl, rfl⟩
      | simp [hpc, WorkerPc.flying] at hfly
  refine ⟨perm_of_mass fun μ => ?_, perm_of_mass fun μ => ?_, perm_of_mass fun μ => ?_,
    perm_of_mass fun μ => ?_, ?_⟩
  · have h := ha.flight μ
    simp only [hflight, Finset.sum_const_zero] at h
    omega
  · have h := ha.bodies μ
    simp only [hrun, Finset.sum_const_zero] at h
    omega
  · have h := ha.jobs μ
    simp only [State.unfiled, hq.call, hq.client, unfiled, Finset.sum_const_zero] at h
    omega
  · have h := hd μ
    simp only [hflight, Finset.sum_const_zero] at h
    omega
  · have h := ha.pending
    simp only [State.counted, hq.call, hq.client, counted, (hrun _ (fun _ => 0)).2,
      Finset.sum_const_zero] at h
    omega

omit [LinearOrder R] [IsStrictOrderedRing R] [DecidableEq ω] in
/-- Nothing waits in a queue if and only if nothing is pending. -/
theorem Resting.taken (hq : Resting s) (ha : Account s) (hd : Delivering s)
    (h : s.pending = 0 ∨ ∀ id, s.tables.runnable id = []) :
    s.dispatched.Perm s.enqueued ∧ s.pending = 0 ∧ ∀ id, s.tables.runnable id = [] := by
  have hlen := (hq.perm ha hd).2.2.2.2
  have hperm : s.dispatched.Perm s.enqueued := by
    rcases h with h | h
    · exact ha.dispatched_subperm.perm_of_length_le (by omega)
    · refine List.perm_iff_count.mpr fun ⟨id, job⟩ => ?_
      rw [← count_valuesAt, ← count_valuesAt, ha.fifo id, h id, List.append_nil]
  refine ⟨hperm, ?_, fun id => ?_⟩
  · have := hperm.length_eq
    omega
  · have := (perm_valuesAt hperm (k := id)).length_eq
    rw [ha.fifo id, List.length_append] at this
    exact List.length_eq_zero_iff.mp (by omega)

omit [IsStrictOrderedRing R] in
/-- Where every worker sleeps or has left and no call is in progress, nothing is left. -/
theorem asleep_taken (hr : (machine R N ω).ReachableUnder Clean s) (hgen : s.gen < 2 ^ 64)
    (hq : Resting s) (hw : ∀ w, s.worker w = .exited ∨ s.worker w = .wait (s.gen % 2 ^ 64)) :
    s.pending = 0 ∨ ∀ id, s.tables.runnable id = [] := by
  have hd := reachable_drain hr
  by_cases hexit : ∃ w, s.worker w = .exited
  · obtain ⟨w, hexit⟩ := hexit
    exact .inl (hd.drained w hexit).2
  · refine .inr fun id => ?_
    have hwait : ∀ w, s.worker w = .wait s.gen := by
      intro w
      rcases hw w with h | h
      · exact absurd ⟨w, h⟩ hexit
      · rwa [Nat.mod_eq_of_lt hgen] at h
    have hsub : ¬ Submitted s := by
      rintro (⟨c, job, h⟩ | ⟨w, id, job, job', h⟩)
      · exact absurd ((hq.client c).symm.trans h) (by simp)
      · exact absurd ((hwait w).symm.trans h) (by simp)
    have w : Fin N := ⟨0, Nat.pos_of_ne_zero hd.workers⟩
    have hsearched : (s.worker w).searched = some s.gen := by rw [hwait w]; rfl
    have hready := ((reachable_alert hr.reachable).ready w hsearched).resolve_right hsub
    unfold Tables.runnable
    cases hc : s.tables.classes[id]? with
    | none => rfl
    | some c => exact (reachable_ok hr.reachable).runnable_nil hready (List.mem_of_getElem? hc)

omit [DecidableEq ω] [Fintype ω] [Field R] [LinearOrder R] [IsStrictOrderedRing R] in
theorem Inner.clean {l : Label R N ω} (h : Inner s l) : Clean s l := by
  cases l with
  | client | register | nested | join | shutdown => exact absurd h (by simp [Inner])
  | clientStep | finish | worker | account | control => trivial

omit [IsStrictOrderedRing R] [Fintype ω] in
/-- A step that begins no call brings no job. -/
theorem inner_next {t : State R N ω} {tr : List (Label R N ω)}
    (h : (machine R N ω).Path Inner s tr t) : t.next = s.next := by
  refine h.preserves (I := fun t => t.next = s.next) (fun t l t' hok hst hI => ?_) rfl
  refine Eq.trans ?_ hI
  cases step_move hst with
  | client | register | nested | join | shutdown => exact absurd hok (by simp [Inner])
  | clientStep _ hsub | nestedStep _ hsub => exact hsub.frame.2.2.2.2.1
  | _ => rfl

/-- **Left alone, `FairScheduler` settles.** From any state of a clean run, the steps that begin no
call are at most `stepsLeft` in number, in whatever order they are taken. Where none is left and
fewer than `2 ^ 64` notifications have been made, every job `submit` was called with has been filed
and has run once, its result is in its handle, `pending_` is `0`, no class has an entry or a job,
each has accounted for all its jobs, and `shutdown` has returned if it was called. -/
theorem left_alone_settles {t : State R N ω} {tr : List (Label R N ω)}
    (hs : (machine R N ω).ReachableUnder Clean s) (h : (machine R N ω).Path Inner s tr t) :
    tr.length ≤ stepsLeft s ∧ (∃ tr' t', (machine R N ω).Path Inner t tr' t' ∧
      (machine R N ω).Stopped Inner t') ∧
    ((machine R N ω).Stopped Inner t → t.gen < 2 ^ 64 →
      (∀ job < s.next, (t.enqueued.map Prod.snd).count job = 1 ∧ t.finished.count job = 1) ∧
      t.delivered.Perm t.enqueued ∧ t.pending = 0 ∧ t.tables.ready = [] ∧
      (∀ (id : ClassId) c, t.tables.classes[id]? = some c →
        c.runnable = [] ∧ c.completed = (valuesAt id t.enqueued).length) ∧
      (t.control = .idle ∨ t.control = .returned)) := by
  have hclean : (machine R N ω).ReachableUnder Clean t := hs.path (h.mono fun _ _ => Inner.clean)
  have hr := hclean.reachable
  have ha := reachable_account hr
  have hdel := reachable_delivering hr
  refine ⟨inner_ranked.length_le h hs.reachable, inner_ranked.exists_stopped hr,
    fun hstop hgen => ?_⟩
  have hw := stopped_worker hr hstop
  have hq : Resting t := by
    refine ⟨fun c => stopped_client hr hstop, fun w => ?_⟩
    rcases hw w with h | h <;> rw [h] <;> rfl
  obtain ⟨htaken, hpending, hrunnable⟩ := hq.taken ha hdel (asleep_taken hclean hgen hq hw)
  obtain ⟨hsettled, hfinished, hfiled, hdelivered, -⟩ := hq.perm ha hdel
  have hclass : ∀ (id : ClassId) c, t.tables.classes[id]? = some c → c.runnable = [] := by
    intro id c hc
    have hnil := hrunnable id
    rwa [Tables.runnable, hc, Option.elim_some] at hnil
  refine ⟨fun job hjob => ?_, hdelivered.trans htaken, hpending, ?_,
    fun id c hc => ⟨hclass id c hc, ?_⟩, ?_⟩
  · rw [← inner_next h] at hjob
    have hone : ∀ {l : List ℕ}, l.Perm (List.range t.next) → l.count job = 1 := fun hl => by
      rw [hl.count_eq]
      exact List.count_eq_one_of_mem List.nodup_range (List.mem_range.mpr hjob)
    exact ⟨hone hfiled, hone (hfinished.trans ((htaken.map _).trans hfiled))⟩
  · refine List.eq_nil_iff_forall_not_mem.mpr fun entry hmem => ?_
    obtain ⟨c, hc, -, hne⟩ := (reachable_ok hr).mem_ready hmem
    exact hne (hclass entry.2 c hc)
  · have hcomp := ha.completed id
    have hlen : (valuesAt id t.settled).length = (valuesAt id t.times).length := by
      rw [State.settled, State.times, valuesAt_map (f := Prod.fst), valuesAt_map (f := Prod.snd),
        List.length_map, List.length_map]
    rwa [Tables.completed, hc, Option.elim_some, ← hlen,
      (perm_valuesAt (hsettled.trans htaken) (k := id)).length_eq] at hcomp
  · have hnone : stepControl t = none := hstop .control trivial
    cases hcon : t.control with
    | idle => exact .inl rfl
    | returned => exact .inr rfl
    | store | ring => simp [stepControl, hcon] at hnone
    | join k =>
      -- the worker that `shutdown` waits for would have been told
      obtain ⟨hk, htold⟩ := reachable_joining hr k hcon
      have hne : t.worker ⟨k, hk⟩ ≠ .exited := by
        intro hex
        simp [stepControl, hcon, hk, hasExited_iff.mpr hex] at hnone
      have hasleep : (idling R).asleep (t.worker ⟨k, hk⟩) = some t.gen := by
        rw [(hw ⟨k, hk⟩).resolve_left hne, Nat.mod_eq_of_lt hgen]
        rfl
      refine absurd hpending (htold.pending_ne hasleep ?_)
      rintro u ⟨id, job, hu⟩
      rcases hw u with h | h <;> exact absurd (h.symm.trans hu) (by simp)

end Stopped

/-- One worker runs the job of a call that has begun, accounts for it and sleeps. -/
def settleOneJob : List (Label ℚ 1 Unit) :=
  let w : Fin 1 := ⟨0, Nat.one_pos⟩
  List.replicate 4 (.clientStep ()) ++ [.worker w, .worker w, .finish w] ++
    List.replicate 3 (.worker w) ++ [.account w (1 / 2)] ++ List.replicate 3 (.worker w)

theorem left_alone_settles_one : ∃ s t : State ℚ 1 Unit,
    (machine ℚ 1 Unit).ReachableUnder Clean s ∧ s.client () = some (.count 0 ⟨"", 1⟩) ∧
      (machine ℚ 1 Unit).Path Inner s settleOneJob t ∧ settleOneJob.length ≤ stepsLeft s ∧
      (machine ℚ 1 Unit).Stopped Inner t ∧ t.finished.count 0 = 1 ∧ t.pending = 0 := by
  let s₀ : State ℚ 1 Unit := (construct ℚ 1 Unit).get (by decide)
  let s := ((machine ℚ 1 Unit).execUnder Clean s₀ [.client () ⟨"", 1⟩]).get (by decide +kernel)
  have hs : (machine ℚ 1 Unit).ReachableUnder Clean s :=
    ⟨_, s₀, (Option.some_get _).symm, Machine.execUnder_path (Option.some_get _).symm⟩
  let t := ((machine ℚ 1 Unit).exec s settleOneJob).get (by decide +kernel)
  have hinner : ∀ l ∈ settleOneJob, Inner s l := by
    intro l hl
    simp only [settleOneJob, List.mem_append, List.mem_replicate, List.mem_cons,
      List.not_mem_nil, or_false] at hl
    rcases hl with (((⟨-, rfl⟩ | rfl | rfl | rfl) | ⟨-, rfl⟩) | rfl) | ⟨-, rfl⟩ <;> trivial
  have hp : (machine ℚ 1 Unit).Path Inner s settleOneJob t :=
    (Machine.exec_path (Option.some_get _).symm).mem.mono fun _ l h => hinner l h.2
  have hstop : (machine ℚ 1 Unit).Stopped Inner t := by
    have hasleep : ∀ w : Fin 1, t.worker w = .wait (t.gen % 2 ^ 64) := fun w => by
      rw [Subsingleton.elim w ⟨0, Nat.one_pos⟩]
      rfl
    have hclient : t.client () = none := rfl
    have hcontrol : t.control = .idle := rfl
    clear_value t
    intro l hl
    cases l with
    | client | register | nested | join | shutdown => exact absurd hl (by simp [Inner])
    | clientStep c => simp [machine, step, hclient]
    | control => simp [machine, step, stepControl, hcontrol]
    | worker w => simp [machine, step, stepWorker, hasleep w]
    | finish w | account w elapsed => simp [machine, step, hasleep w]
  obtain ⟨hlen, -, hdone⟩ := left_alone_settles hs hp
  obtain ⟨hjobs, -, hpending, -⟩ := hdone hstop (by decide +kernel)
  exact ⟨s, t, hs, rfl, hp, hlen, hstop, (hjobs 0 (by decide +kernel)).2, hpending⟩

end Wss.Fair
