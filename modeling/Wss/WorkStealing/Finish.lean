import Wss.Lib.Rank
import Wss.WorkStealing.Local
import Wss.WorkStealing.Stuck

/-!
# Left alone, `WorkStealingScheduler` finishes

Let nobody call `submit` or `shutdown` any more, and let every running body return. Then the threads
have only so many steps left (`stepsLeft`), whoever takes them. So no schedule keeps the workers
busy with each other for ever, and none ends with a job forgotten or with `shutdown` waiting for a
worker that sleeps.

* A search is straight-line code, but a notification sends every worker with an old generation
  through one more, and a search may come back with a job. Each job starts once and notifies once,
  so `stepsLeft` pays for `searchSteps` steps of every worker for each notification left (`rings`),
  and of one worker for each job that has not started.
* `Inner` are the steps that begin no call. `finish` is one of them: bodies return.

Results:
* `stepWorker_left`, `inner_ranked`: every step that begins no call leaves less to do.
* `left_alone_finishes`: where nothing is left, every job has run.
-/

namespace Wss.WorkStealing

open Wss.Lib ChaseLev ChaseLev.Atomic

variable {N : ℕ} {ω : Type}

/-- A step that begins no call. -/
def Inner (_ : State N ω) : Label N ω → Prop
  | .client _ _ | .nested _ _ | .shutdown => False
  | .clientStep _ | .finish _ | .worker _ | .control => True

/-! ## The steps left -/

/-- The steps of a search from the deques of the others on. -/
def stealSteps (N : ℕ) : ℕ := 7 * (3 * N) + 3

/-- The steps of a search from the injectors on. -/
def injectSteps (N : ℕ) : ℕ := 3 + 1 + stealSteps N

/-- The steps of a whole search. -/
def searchSteps (N : ℕ) : ℕ := 1 + 9 * 3 + 1 + injectSteps N

/-- The steps a call of `submit` has left. -/
def callLeft : Option SubmitPc → ℕ
  | some (.count _ _) => 4
  | some (.push _ _) => 3
  | some (.ring _) => 2
  | some (.done _) => 1
  | none => 0

/-- The notifications a call of `submit` has left. -/
def callRings : Option SubmitPc → ℕ
  | some (.count _ _) | some (.push _ _) | some (.ring _) => 1
  | some (.done _) | none => 0

namespace WorkerPc

/-- The notifications of the job a worker runs, and of the `submit` it is in. -/
def rings : WorkerPc N → ℕ
  | .body _ call => callRings call + 1
  | .uncount _ | .ring => 1
  | .current | .own _ _ | .inject _ _ | .steal _ _ | .loadFlag _ | .loadPending _ | .wait _
  | .exited => 0

/-- The steps worker `w` has left until it sleeps, if it is not sent back. -/
def left (s : State N ω) (w : Fin N) : WorkerPc N → ℕ
  | .current => searchSteps N
  | .own _ [] => 1 + injectSteps N
  | .own _ (p :: ps) => popLeft (s.deque w p) + 9 * ps.length + 1 + injectSteps N
  | .inject _ ps => ps.length + 1 + stealSteps N
  | .steal _ [] => 3
  | .steal _ ((p, v) :: ts) => stealLeft ((s.deque v p).thief w) + 7 * ts.length + 3
  | .loadFlag _ => 2
  | .loadPending _ => 1
  | .wait _ | .exited => 0
  | .body _ call => callLeft call + 3 + searchSteps N
  | .uncount _ => 2 + searchSteps N
  | .ring => 1 + searchSteps N

/-- The same, with the search that an old generation sends it to. -/
def allLeft (s : State N ω) (w : Fin N) (pc : WorkerPc N) : ℕ :=
  pc.left s w + staleCost (searchSteps N + 1) (s.gen % 2 ^ 64) pc.snapshot

end WorkerPc

section Sums

variable [Fintype ω] (s : State N ω)

/-- The jobs that have not started. -/
def unstarted : ℕ := s.next - s.started.length

/-- The steps left. -/
def stepsLeft : ℕ :=
  poolRank (searchSteps N + 1) (searchSteps N + 4) (unstarted s)
    (s.control.rings + ∑ c, callRings (s.client c)) (s.control.left N + ∑ c, callLeft (s.client c))
    (fun w => (s.worker w).rings) fun w => (s.worker w).allLeft s w

end Sums

variable {s s' : State N ω} {w v u : Fin N} {p : Priority} {pc : WorkerPc N}

/-! ## What the steps of others do to a worker -/

theorem left_congr (hd : s'.deque = s.deque) (w : Fin N) (pc : WorkerPc N) :
    pc.left s' w = pc.left s w := by
  unfold WorkerPc.left
  rw [hd]

/-- The owner of a deque has as many steps left in it as before, and the thieves have so too. -/
theorem left_setDeque {d : ChaseLev.State (Fin N) ℕ} (hd : s'.deque = (s.setDeque w v p d).deque)
    (hown : u = v → popLeft d ≤ popLeft (s.deque v p))
    (hthief : stealLeft (d.thief u) ≤ stealLeft ((s.deque v p).thief u)) (pc : WorkerPc N) :
    pc.left s' u ≤ pc.left s u := by
  have hat : ∀ v' p', s'.deque v' p' = if v' = v ∧ p' = p then d else s.deque v' p' := by
    intro v' p'
    rw [hd]
    by_cases hv : v' = v
    · by_cases hp : p' = p
      · simp [State.setDeque, hv, hp]
      · simp [State.setDeque, hv, hp]
    · simp [State.setDeque, hv]
  unfold WorkerPc.left
  split
  case h_3 gen p' ps =>
    rw [hat]
    split_ifs with h
    · obtain ⟨rfl, rfl⟩ := h
      have := hown rfl
      omega
    · exact le_rfl
  case h_6 gen p' v' ts =>
    rw [hat]
    split_ifs with h
    · obtain ⟨rfl, rfl⟩ := h
      omega
    · exact le_rfl
  all_goals exact le_rfl

theorem DequeStep.left_le {d : ChaseLev.State (Fin N) ℕ} (h : DequeStep s w v p d) (hl : Linked s)
    (ho : Own s) (hun : ∀ v p, Ungrown defaultCapacity (s.deque v p))
    (hd : s'.deque = (s.setDeque w v p d).deque) (hu : u ≠ w) (pc : WorkerPc N) :
    pc.left s' u ≤ pc.left s u := by
  cases h with
  | pop hpc hv hst =>
    subst hv
    obtain ⟨hthief, -⟩ := popStep_left (hl.sound v p) hst
    exact left_setDeque hd (fun huv => absurd huv hu) (by rw [hthief]) pc
  | steal hpc hst =>
    obtain ⟨hown, htop, hbot, hother, -⟩ := stealStep_left hst
    exact left_setDeque hd (fun _ => popLeft_mono hown htop hbot) (by rw [hother u hu]) pc
  | batch hpc hv hst =>
    subst hv
    have hroom := hl.inject_room ho hpc p
    have hsize : kInjectorBatchSize - 1 ≤ defaultCapacity := by decide
    obtain ⟨r, queue, d', hd', -, hthief, -⟩ := popBatchInto_ungrown (hun v p)
      (n := kInjectorBatchSize) (by omega) (s.injector p)
    rw [hst] at hd'
    simp only [Option.some.injEq, Prod.mk.injEq] at hd'
    rw [← hd'.2.2] at hthief
    exact left_setDeque hd (fun huv => absurd huv hu) (by rw [hthief]) pc

/-- A worker's own account. -/
theorem left_steal_le (s : State N ω) (w : Fin N) (gen : ℕ) (ts : List (Priority × Fin N)) :
    (WorkerPc.steal gen ts).left s w ≤ 7 * ts.length + 3 := by
  cases ts with
  | nil => exact Nat.le_add_left 3 _
  | cons t ts =>
    have hle := stealLeft_le ((s.deque t.2 t.1).thief w)
    simp only [WorkerPc.left, List.length_cons]
    omega

theorem left_own_le (hl : Linked s) (w : Fin N) (gen : ℕ) (ps : List Priority) :
    (WorkerPc.own gen ps).left s w ≤ 9 * ps.length + 1 + injectSteps N := by
  cases ps with
  | nil =>
    simp only [WorkerPc.left]
    omega
  | cons p ps =>
    have hle : popLeft (s.deque w p) ≤ 9 := popLeft_le ((hl.owner w p).imp_right And.left)
    simp only [WorkerPc.left, List.length_cons]
    omega

theorem length_targets_le (w : Fin N) : (targets w).length ≤ 3 * N := by
  have hone : ∀ p : Priority, (((List.finRange N).filter (· ≠ w)).map fun v => (p, v)).length
      ≤ N := by
    intro p
    rw [List.length_map]
    exact (List.length_filter_le _ _).trans_eq (List.length_finRange)
  simp only [targets, kPriorityOrder, List.flatMap_cons, List.flatMap_nil, List.length_append,
    List.length_nil]
  have h1 := hone .high
  have h2 := hone .normal
  have h3 := hone .background
  omega

/-! ## One step -/

section Steps

variable [Fintype ω]

/-- A step of worker `w` that does not notify, and starts `a` jobs. -/
theorem stepsLeft_worker (hgen : s'.gen = s.gen) (hnext : s'.next = s.next)
    (hcl : s'.client = s.client) (hcon : s'.control = s.control)
    (hw : s'.worker = Function.update s.worker w pc)
    (hother : ∀ u, u ≠ w → ∀ pc : WorkerPc N, pc.left s' u ≤ pc.left s u) {a : ℕ}
    (hstarted : s'.started.length = s.started.length + a) (hle : s'.started.length ≤ s'.next)
    (hrings : pc.rings = (s.worker w).rings + a)
    (hlt : pc.allLeft s' w < (s.worker w).allLeft s w + (searchSteps N + 4) * a) :
    stepsLeft s' < stepsLeft s := by
  have hself : s'.worker w = pc := by rw [hw, Function.update_self]
  unfold stepsLeft
  rw [hcl, hcon]
  refine poolRank_worker (k := w) (a := a) ?_ (fun u hu => ?_) ?_ ?_
  · unfold unstarted
    omega
  · rw [hw, Function.update_of_ne hu]
    refine ⟨rfl, ?_⟩
    unfold WorkerPc.allLeft
    rw [hgen]
    exact Nat.add_le_add_right (hother u hu _) _
  · rw [hself, hrings]
  · rw [hself]
    exact hlt

omit [Fintype ω] in
/-- What a notification costs the workers. -/
theorem allLeft_notify (hd : s'.deque = s.deque) (w : Fin N) (pc : WorkerPc N) :
    pc.allLeft s' w ≤ pc.allLeft s w + (searchSteps N + 1) := by
  have hle := staleCost_le (searchSteps N + 1) (s'.gen % 2 ^ 64) pc.snapshot
  unfold WorkerPc.allLeft
  rw [left_congr hd]
  omega

/-- A notification of worker `w`. -/
theorem stepsLeft_worker_notify (hd : s'.deque = s.deque) (hnext : s'.next = s.next)
    (hstarted : s'.started = s.started) (hcl : s'.client = s.client) (hcon : s'.control = s.control)
    (hw : s'.worker = Function.update s.worker w pc) (hrings : pc.rings + 1 = (s.worker w).rings)
    (hlt : pc.allLeft s' w + 1 ≤ (s.worker w).allLeft s w) : stepsLeft s' < stepsLeft s := by
  have hself : s'.worker w = pc := by rw [hw, Function.update_self]
  have hun : unstarted s' = unstarted s := by
    unfold unstarted
    rw [hnext, hstarted]
  unfold stepsLeft
  rw [hcl, hcon, hun]
  refine poolRank_worker_ring (k := w) (fun u hu => ?_) ?_ ?_
  · rw [hw, Function.update_of_ne hu]
    exact ⟨rfl, allLeft_notify hd u _⟩
  · rw [hself, hrings]
  · rw [hself]
    exact hlt

omit [Fintype ω]

/-- A step of `submit`. -/
theorem stepSubmit_left (s : State N ω) (call : SubmitPc) :
    callLeft (stepSubmit s call).2 + 1 = callLeft (some call) ∧
      (stepSubmit s call).1.next = s.next ∧ (stepSubmit s call).1.started = s.started ∧
      (stepSubmit s call).1.control = s.control ∧
      ((stepSubmit s call).1.gen = s.gen ∧
          callRings (stepSubmit s call).2 = callRings (some call) ∨
        callRings (stepSubmit s call).2 + 1 = callRings (some call)) := by
  cases call with
  | count | push | done => exact ⟨rfl, rfl, rfl, rfl, .inl ⟨rfl, rfl⟩⟩
  | ring => exact ⟨rfl, rfl, rfl, rfl, .inr rfl⟩

/-- A step within a search. -/
theorem allLeft_lt {pc' : WorkerPc N} (hgen : s'.gen = s.gen) (hsnap : pc'.snapshot = pc.snapshot)
    (hlt : pc'.left s' w < pc.left s w) : pc'.allLeft s' w < pc.allLeft s w := by
  unfold WorkerPc.allLeft
  rw [hgen, hsnap]
  exact Nat.add_lt_add_right hlt _

theorem allLeft_of_none (h : pc.snapshot = none) : pc.allLeft s w = pc.left s w := by
  unfold WorkerPc.allLeft
  rw [h, staleCost_none, Nat.add_zero]

theorem left_le_allLeft (s : State N ω) (w : Fin N) (pc : WorkerPc N) :
    pc.left s w ≤ pc.allLeft s w :=
  Nat.le_add_right _ _

theorem setDeque_deque {d : ChaseLev.State (Fin N) ℕ} : (s.setDeque w v p d).deque v p = d := by
  simp only [State.setDeque, Function.update_self]

variable [Fintype ω]

/-- A job starts. -/
theorem stepsLeft_start {t : State N ω} {job : ℕ} (hgen : t.gen = s.gen) (hnext : t.next = s.next)
    (hcl : t.client = s.client) (hcon : t.control = s.control) (hw : t.worker = s.worker)
    (hstarted : t.started = s.started)
    (hother : ∀ u, u ≠ w → ∀ pc : WorkerPc N, pc.left (t.start w job) u ≤ pc.left s u)
    (hle : (t.start w job).started.length ≤ (t.start w job).next)
    (hrings : (s.worker w).rings = 0) (hpos : 0 < (s.worker w).left s w) :
    stepsLeft (t.start w job) < stepsLeft s := by
  have hlen : (t.start w job).started.length = s.started.length + 1 := by
    show (t.started ++ [job]).length = _
    rw [hstarted, List.length_append, List.length_singleton]
  have hworker : (t.start w job).worker = Function.update s.worker w (.body job none) :=
    congrArg (Function.update · w _) hw
  refine stepsLeft_worker (a := 1) hgen hnext hcl hcon hworker hother hlen hle
    (by rw [hrings]; rfl) ?_
  have hall := left_le_allLeft s w (s.worker w)
  rw [allLeft_of_none rfl]
  show 0 + 3 + searchSteps N < _
  omega

/-- **Every step of a worker leaves it less to do**, and the others no more. -/
theorem stepWorker_left (hl : Linked s) (hl' : Linked s') (ho : Own s)
    (hun : ∀ v p, Ungrown defaultCapacity (s.deque v p)) (hle : s'.started.length ≤ s'.next)
    (h : stepWorker s w = some s') : stepsLeft s' < stepsLeft s := by
  have hother : ∀ u, u ≠ w → ∀ pc : WorkerPc N, pc.left s' u ≤ pc.left s u := by
    intro u hu pc
    rcases stepWorker_deque h with hd | ⟨v, p, d, hd, hst⟩
    · exact (left_congr hd u pc).le
    · exact hst.left_le hl ho hun hd hu pc
  have hS : searchSteps N = 29 + injectSteps N := by unfold searchSteps; omega
  have hI : injectSteps N = 4 + stealSteps N := rfl
  unfold stepWorker at h
  cases hpc : s.worker w with
  | current =>
    simp only [hpc, Option.some.injEq] at h
    subst h
    refine stepsLeft_worker rfl rfl rfl rfl rfl hother (a := 0) rfl hle (by rw [hpc]; rfl) ?_
    have hown := left_own_le hl' w (s.gen % 2 ^ 64) kPriorityOrder
    have hlen : kPriorityOrder.length = 3 := rfl
    have hnow := staleCost_now (searchSteps N + 1) (s.gen % 2 ^ 64)
    have hcur : (WorkerPc.current : WorkerPc N).allLeft s w = searchSteps N := allLeft_of_none rfl
    rw [hpc, hcur, Nat.mul_zero, Nat.add_zero]
    show _ + staleCost (searchSteps N + 1) (s.gen % 2 ^ 64) (some (s.gen % 2 ^ 64)) < searchSteps N
    omega
  | own gen ps =>
    cases ps with
    | nil =>
      simp only [hpc, Option.some.injEq] at h
      subst h
      refine stepsLeft_worker rfl rfl rfl rfl rfl hother (a := 0) rfl hle (by rw [hpc]; rfl) ?_
      rw [hpc]
      refine allLeft_lt rfl rfl ?_
      show 3 + 1 + stealSteps N < 1 + injectSteps N
      omega
    | cons p ps =>
      simp only [hpc] at h
      obtain ⟨⟨d, r⟩, hd, rfl⟩ := Option.map_eq_some_iff.mp h
      obtain ⟨-, hlt⟩ := popStep_left (hl.sound w p) hd
      have hpos := popLeft_pos (s.deque w p)
      rcases r with _ | _ | job
      · have hw : (s.setDeque w w p d).worker = Function.update s.worker w
          (.own gen (p :: ps)) := by
          rw [← hpc, Function.update_eq_self]
          rfl
        refine stepsLeft_worker rfl rfl rfl rfl hw hother (a := 0) rfl hle (by rw [hpc]; rfl) ?_
        rw [hpc]
        refine allLeft_lt rfl rfl ?_
        have hlt := hlt rfl
        show popLeft ((s.setDeque w w p d).deque w p) + _ + _ + _ <
          popLeft (s.deque w p) + _ + _ + _
        rw [setDeque_deque]
        omega
      · refine stepsLeft_worker rfl rfl rfl rfl rfl hother (a := 0) rfl hle (by rw [hpc]; rfl) ?_
        rw [hpc]
        refine allLeft_lt rfl rfl ?_
        refine (left_own_le hl' w gen ps).trans_lt ?_
        show _ < popLeft (s.deque w p) + _ + _ + _
        omega
      · refine stepsLeft_start rfl rfl rfl rfl rfl rfl hother hle (by rw [hpc]; rfl) ?_
        rw [hpc]
        show 0 < popLeft (s.deque w p) + _ + _ + _
        omega
  | inject gen ps =>
    cases ps with
    | nil =>
      simp only [hpc, Option.some.injEq] at h
      subst h
      refine stepsLeft_worker rfl rfl rfl rfl rfl hother (a := 0) rfl hle (by rw [hpc]; rfl) ?_
      rw [hpc]
      refine allLeft_lt rfl rfl ((left_steal_le _ w gen (targets w)).trans_lt ?_)
      have hlen := length_targets_le w
      show _ < 0 + 1 + stealSteps N
      unfold stealSteps
      omega
    | cons p ps =>
      simp only [hpc] at h
      obtain ⟨⟨r, queue, d⟩, hd, rfl⟩ := Option.map_eq_some_iff.mp h
      cases r with
      | none =>
        refine stepsLeft_worker rfl rfl rfl rfl rfl hother (a := 0) rfl hle (by rw [hpc]; rfl) ?_
        rw [hpc]
        refine allLeft_lt rfl rfl ?_
        show ps.length + 1 + _ < (p :: ps).length + 1 + _
        rw [List.length_cons]
        omega
      | some job =>
        refine stepsLeft_start rfl rfl rfl rfl rfl rfl hother hle (by rw [hpc]; rfl) ?_
        rw [hpc]
        show 0 < (p :: ps).length + 1 + _
        omega
  | steal gen ts =>
    cases ts with
    | nil =>
      simp only [hpc, Option.some.injEq] at h
      subst h
      refine stepsLeft_worker rfl rfl rfl rfl rfl hother (a := 0) rfl hle (by rw [hpc]; rfl) ?_
      rw [hpc]
      exact allLeft_lt rfl rfl (by show 2 < 3; omega)
    | cons t ts =>
      obtain ⟨p, v⟩ := t
      simp only [hpc] at h
      obtain ⟨⟨d, r⟩, hd, rfl⟩ := Option.map_eq_some_iff.mp h
      obtain ⟨-, -, -, -, hlt⟩ := stealStep_left hd
      have hpos := stealLeft_pos ((s.deque v p).thief w)
      rcases r with _ | _ | job
      · have hw : (s.setDeque w v p d).worker =
            Function.update s.worker w (.steal gen ((p, v) :: ts)) := by
          rw [← hpc, Function.update_eq_self]
          rfl
        refine stepsLeft_worker rfl rfl rfl rfl hw hother (a := 0) rfl hle (by rw [hpc]; rfl) ?_
        rw [hpc]
        refine allLeft_lt rfl rfl ?_
        have hlt := hlt rfl
        show stealLeft (((s.setDeque w v p d).deque v p).thief w) + _ + _ <
          stealLeft ((s.deque v p).thief w) + _ + _
        rw [setDeque_deque]
        omega
      · refine stepsLeft_worker rfl rfl rfl rfl rfl hother (a := 0) rfl hle (by rw [hpc]; rfl) ?_
        rw [hpc]
        refine allLeft_lt rfl rfl ((left_steal_le _ w gen ts).trans_lt ?_)
        show _ < stealLeft ((s.deque v p).thief w) + _ + _
        omega
      · refine stepsLeft_start rfl rfl rfl rfl rfl rfl hother hle (by rw [hpc]; rfl) ?_
        rw [hpc]
        show 0 < stealLeft ((s.deque v p).thief w) + _ + _
        omega
  | body job call =>
    cases call with
    | none => simp [hpc] at h
    | some call =>
      simp only [hpc, Option.some.injEq] at h
      subst h
      obtain ⟨hleft, hnext, hstarted, hcon, hnote⟩ := stepSubmit_left s call
      obtain ⟨hd, -, hworker⟩ := stepSubmit_frame s call
      have hcl := stepSubmit_client s call
      have hw : ((stepSubmit s call).1.setWorker w (.body job (stepSubmit s call).2)).worker =
          Function.update s.worker w (.body job (stepSubmit s call).2) :=
        congrArg (Function.update · w _) hworker
      have hlt : ∀ t : State N ω, (WorkerPc.body job (stepSubmit s call).2).allLeft t w + 1 =
          (WorkerPc.body job (some call)).allLeft s w := by
        intro t
        rw [allLeft_of_none rfl, allLeft_of_none rfl]
        show callLeft _ + 3 + _ + 1 = callLeft _ + 3 + _
        omega
      rcases hnote with ⟨hgen, hrings⟩ | hrings
      · refine stepsLeft_worker hgen hnext hcl hcon hw hother (a := 0)
          (congrArg List.length hstarted) hle ?_ ?_
        · rw [hpc]
          show callRings _ + 1 = callRings _ + 1 + 0
          omega
        · rw [hpc, ← hlt ((stepSubmit s call).1.setWorker w (.body job (stepSubmit s call).2))]
          omega
      · refine stepsLeft_worker_notify hd hnext hstarted hcl hcon hw ?_ ?_
        · rw [hpc]
          show callRings _ + 1 + 1 = callRings _ + 1
          omega
        · rw [hpc]
          exact (hlt _).le
  | uncount job =>
    simp only [hpc, Option.some.injEq] at h
    subst h
    refine stepsLeft_worker rfl rfl rfl rfl rfl hother (a := 0) rfl hle (by rw [hpc]; rfl) ?_
    rw [hpc]
    refine allLeft_lt rfl rfl ?_
    show 1 + searchSteps N < 2 + searchSteps N
    omega
  | ring =>
    simp only [hpc, Option.some.injEq] at h
    subst h
    refine stepsLeft_worker_notify rfl rfl rfl rfl rfl rfl (by rw [hpc]; rfl) ?_
    rw [hpc, allLeft_of_none rfl, allLeft_of_none rfl]
    show searchSteps N + 1 ≤ 1 + searchSteps N
    omega
  | loadFlag gen =>
    simp only [hpc] at h
    split_ifs at h <;> obtain rfl := Option.some.inj h
    all_goals
      refine stepsLeft_worker rfl rfl rfl rfl rfl hother (a := 0) rfl hle (by rw [hpc]; rfl) ?_
      rw [hpc]
      exact allLeft_lt rfl rfl (by simp [WorkerPc.left])
  | loadPending gen =>
    simp only [hpc] at h
    split_ifs at h <;> obtain rfl := Option.some.inj h
    · refine stepsLeft_worker rfl rfl rfl rfl rfl hother (a := 0) rfl hle (by rw [hpc]; rfl) ?_
      have hall := left_le_allLeft s w (.loadPending gen)
      have hone : (WorkerPc.loadPending gen : WorkerPc N).left s w = 1 := rfl
      rw [hpc, allLeft_of_none rfl]
      show 0 < _
      omega
    · refine stepsLeft_worker rfl rfl rfl rfl rfl hother (a := 0) rfl hle (by rw [hpc]; rfl) ?_
      rw [hpc]
      exact allLeft_lt rfl rfl (by simp [WorkerPc.left])
  | wait gen =>
    simp only [hpc] at h
    split_ifs at h with hg
    obtain rfl := Option.some.inj h
    refine stepsLeft_worker rfl rfl rfl rfl rfl hother (a := 0) rfl hle (by rw [hpc]; rfl) ?_
    have hstale := staleCost_of_ne (searchSteps N + 1) hg
    rw [hpc, allLeft_of_none rfl]
    show searchSteps N < 0 + staleCost (searchSteps N + 1) (s.gen % 2 ^ 64) (some gen) + 0
    omega
  | exited => simp [hpc] at h

/-- A step outside the pool. It may notify once, if it has one notification less left then. -/
theorem stepsLeft_outside {a : ℕ} (hgen : s'.gen = s.gen ∨ a = 1) (hd : s'.deque = s.deque)
    (hnext : s'.next = s.next) (hstarted : s'.started = s.started) (hw : s'.worker = s.worker)
    (hrings : s'.control.rings + ∑ c, callRings (s'.client c) + a ≤
      s.control.rings + ∑ c, callRings (s.client c))
    (hleft : s'.control.left N + ∑ c, callLeft (s'.client c) + 1 ≤
      s.control.left N + ∑ c, callLeft (s.client c)) : stepsLeft s' < stepsLeft s := by
  have hun : unstarted s' = unstarted s := by
    unfold unstarted
    rw [hnext, hstarted]
  unfold stepsLeft
  rw [hun, hw]
  rcases hgen with hgen | rfl
  · refine poolRank_outside (by omega) hleft fun u => ?_
    unfold WorkerPc.allLeft
    rw [left_congr hd, hgen]
  · exact poolRank_outside_ring (by omega) hleft fun u => allLeft_notify hd u _

/-- A step of a thread outside the pool, in a call of `submit`. -/
theorem clientStep_left [DecidableEq ω] {c : ω} {call : SubmitPc} (hc : s.client c = some call) :
    stepsLeft { (stepSubmit s call).1 with
      client := Function.update s.client c (stepSubmit s call).2 } < stepsLeft s := by
  obtain ⟨hleft, hnext, hstarted, hcon, hnote⟩ := stepSubmit_left s call
  obtain ⟨hd, -, hworker⟩ := stepSubmit_frame s call
  have hlt : ∑ i, callLeft (Function.update s.client c (stepSubmit s call).2 i) + 1 ≤
      ∑ i, callLeft (s.client i) + 0 := by
    refine sum_add_le (k := c) (fun i hi => by rw [Function.update_of_ne hi]) ?_
    rw [Function.update_self, hc]
    omega
  have hcount : ∀ a, callRings (stepSubmit s call).2 + a = callRings (some call) →
      ∑ i, callRings (Function.update s.client c (stepSubmit s call).2 i) + a ≤
        ∑ i, callRings (s.client i) + 0 := by
    intro a ha
    refine sum_add_le (k := c) (fun i hi => by rw [Function.update_of_ne hi]) ?_
    rw [Function.update_self, hc]
    omega
  rcases hnote with ⟨hgen, hrings⟩ | hrings
  · have hsum := hcount 0 hrings
    refine stepsLeft_outside (a := 0) (.inl hgen) hd hnext hstarted hworker ?_ ?_
    all_goals
      dsimp only
      rw [hcon]
      omega
  · have hsum := hcount 1 hrings
    refine stepsLeft_outside (a := 1) (.inr rfl) hd hnext hstarted hworker ?_ ?_
    all_goals
      dsimp only
      rw [hcon]
      omega

/-- A step of `shutdown`. -/
theorem stepControl_left (h : stepControl s = some s') : stepsLeft s' < stepsLeft s := by
  unfold stepControl at h
  cases hcon : s.control with
  | idle | returned => simp [hcon] at h
  | store =>
    simp only [hcon, Option.some.injEq] at h
    subst h
    refine stepsLeft_outside (a := 0) (.inl rfl) rfl rfl rfl rfl ?_ ?_
    all_goals
      rw [hcon]
      simp only [ControlPc.rings, ControlPc.left]
      omega
  | ring =>
    simp only [hcon, Option.some.injEq] at h
    subst h
    refine stepsLeft_outside (a := 1) (.inr rfl) rfl rfl rfl rfl ?_ ?_
    all_goals
      dsimp only
      rw [hcon]
      first | rw [joinNext_rings] | rw [joinNext_left]
      simp only [ControlPc.rings, ControlPc.left]
      omega
  | join k =>
    simp only [hcon] at h
    split_ifs at h with hk hw
    obtain rfl := Option.some.inj h
    refine stepsLeft_outside (a := 0) (.inl rfl) rfl rfl rfl rfl ?_ ?_
    all_goals
      dsimp only
      rw [hcon]
      first | rw [joinNext_rings] | rw [joinNext_left]
      simp only [ControlPc.rings, ControlPc.left]
      omega

theorem Account.started_le (ha : Account s) : s.started.length ≤ s.next := by
  have h := ha.jobs fun _ => 1
  rw [mass_one, mass_one, List.length_range] at h
  omega

variable [DecidableEq ω] {l : Label N ω}

/-- **Every step that begins no call leaves less to do.** -/
theorem inner_ranked : (machine N ω).Ranked (machine N ω).Reachable Inner stepsLeft where
  keep hr _ hst := hr.next hst
  pay {s l s'} hr hok hst := by
    have hr' : (machine N ω).Reachable s' := hr.next hst
    have hle := (reachable_account hr').started_le
    have hst : step s l = some s' := hst
    refine Nat.succ_le_of_lt ?_
    cases l with
    | client | nested | shutdown => exact absurd hok (by simp [Inner])
    | worker w =>
      exact stepWorker_left (reachable_linked hr) (reachable_linked hr') (reachable_own hr)
        (reachable_ungrown hr) hle hst
    | control => exact stepControl_left hst
    | clientStep c =>
      simp only [step] at hst
      split at hst
      · exact absurd hst (by simp)
      · rename_i call hc
        obtain rfl := Option.some.inj hst
        rw [stepSubmit_client]
        exact clientStep_left hc
    | finish w =>
      simp only [step] at hst
      split at hst
      · rename_i job hpc
        obtain rfl := Option.some.inj hst
        refine stepsLeft_worker rfl rfl rfl rfl rfl (fun u _ pc => (left_congr rfl u pc).le)
          (a := 0)
          rfl hle (by rw [hpc]; rfl) ?_
        rw [hpc]
        refine allLeft_lt rfl rfl ?_
        show 2 + searchSteps N < 0 + 3 + searchSteps N
        omega
      · exact absurd hst (by simp)

/-! ## Where no step is left -/

omit [Fintype ω] in
theorem reachable_join_lt {k : ℕ} (h : (machine N ω).Reachable s) (hk : s.control = .join k) :
    k < N := by
  revert hk
  refine h.invariant (I := fun s => s.control = .join k → k < N) (fun s h₀ hk => ?_)
    fun s l s' hr _ hst ih hk => ?_
  · have h₀ : construct N ω = some s := h₀
    unfold construct at h₀
    split at h₀
    · exact absurd h₀ (by simp)
    · obtain ⟨d, -, rfl⟩ := Option.map_eq_some_iff.mp h₀
      exact absurd hk (by simp)
  · cases step_move (reachable_linked hr.reachable) hst with
    | shutdown | store => exact absurd hk (by simp)
    | controlRing | join => exact joinNext_lt hk
    | @clientStep c call =>
      obtain ⟨-, -, -, hcon, -⟩ := stepSubmit_left s call
      exact ih (hcon ▸ hk)
    | @nestedStep w job call =>
      obtain ⟨-, -, -, hcon, -⟩ := stepSubmit_left s call
      exact ih (hcon ▸ hk)
    | _ => exact ih hk

omit [Fintype ω] in
/-- A worker that has no step left sleeps or has left. -/
theorem stopped_worker (hr : (machine N ω).Reachable s)
    (hstop : (machine N ω).Stopped Inner s) (w : Fin N) :
    s.worker w = .exited ∨ s.worker w = .wait (s.gen % 2 ^ 64) := by
  have hl := reachable_linked hr
  have hnone : stepWorker s w = none := hstop (.worker w) trivial
  unfold stepWorker at hnone
  cases hpc : s.worker w with
  | exited => exact .inl rfl
  | wait gen =>
    simp only [hpc] at hnone
    split_ifs at hnone with hg
    exact .inr (by rw [hg])
  | own gen ps =>
    cases ps with
    | nil => simp [hpc] at hnone
    | cons p ps =>
      simp only [hpc, Option.map_eq_none_iff] at hnone
      have hsome := popStep_isSome (hl.sound w p) ((hl.owner w p).imp_right And.left)
      rw [hnone] at hsome
      exact absurd hsome (by simp)
  | inject gen ps =>
    cases ps with
    | nil => simp [hpc] at hnone
    | cons p ps =>
      simp only [hpc, Option.map_eq_none_iff] at hnone
      have hroom := hl.inject_room (reachable_own hr) hpc p
      have hsize : kInjectorBatchSize - 1 ≤ defaultCapacity := by decide
      obtain ⟨r, queue, d, hd, -⟩ := popBatchInto_ungrown (reachable_ungrown hr w p)
        (n := kInjectorBatchSize) (by omega) (s.injector p)
      rw [hnone] at hd
      exact absurd hd (by simp)
  | steal gen ts =>
    cases ts with
    | nil => simp [hpc] at hnone
    | cons t ts =>
      simp only [hpc, Option.map_eq_none_iff] at hnone
      have hsome := stealStep_isSome (hl.sound t.2 t.1) w
      rw [hnone] at hsome
      exact absurd hsome (by simp)
  | body job call =>
    cases call with
    | some call => simp [hpc] at hnone
    | none =>
      have hfinish : step s (.finish w) = none := hstop (.finish w) trivial
      simp [step, hpc] at hfinish
  | loadFlag gen | loadPending gen =>
    simp only [hpc] at hnone
    split_ifs at hnone
  | current | uncount | ring => simp [hpc] at hnone

omit [DecidableEq ω] in
/-- Where nobody has a job in hand and nothing is pending, every job has run. -/
theorem Account.all_done (ha : Account s) (hl : Linked s) (hpending : s.pending = 0)
    (hclient : ∀ c, s.client c = none)
    (hw : ∀ w, s.worker w = .exited ∨ ∃ gen, s.worker w = .wait gen) :
    (∀ job < s.next, s.started.count job = 1 ∧ s.finished.count job = 1) ∧
      (∀ p, s.injector p = []) ∧ ∀ v p, remaining (s.deque v p) = [] := by
  have hq : queued (fun _ => 1) s = 0 := by
    have := ha.pending
    omega
  have hinj : ∀ p, mass (fun _ => 1) (s.injector p) = 0 := fun p => by
    have := le_sum (fun p => mass (fun _ => 1) (s.injector p)) p
    unfold queued at hq
    omega
  have hdeq : ∀ v p, dequeMass (fun _ => 1) (s.adeque v p) = 0 := fun v p => by
    have h1 := le_sum (fun p => dequeMass (fun _ => 1) (s.adeque v p)) p
    have h2 := le_sum (fun v => ∑ p, dequeMass (fun _ => 1) (s.adeque v p)) v
    unfold queued at hq
    omega
  refine ⟨fun job hjob => ?_, fun p => eq_nil_of_mass (hinj p), fun v p =>
    remaining_of_mass (hl.sound v p) (hdeq v p)⟩
  have hone : ∀ x, only job x ≤ 1 := fun x => by
    unfold only
    split_ifs <;> omega
  have hcall : ∀ w, (s.worker w).call = none ∧ (s.worker w).running (only job) = 0 := fun w => by
    rcases hw w with h | ⟨gen, h⟩ <;> rw [h] <;> exact ⟨rfl, rfl⟩
  have hun : unpushed (only job) s = 0 := by
    simp [unpushed, hclient, fun w => (hcall w).1, callMass]
  have hrun : ∑ w, (s.worker w).running (only job) = 0 :=
    Finset.sum_eq_zero fun w _ => (hcall w).2
  have h1 := ha.jobs (only job)
  have h2 := ha.bodies (only job)
  have h3 := queued_le hone s
  rw [mass_only_range, if_pos hjob, mass_only] at h1
  rw [mass_only, mass_only] at h2
  omega

/-- Where every worker sleeps or has left and no call is in progress, nothing is pending. -/
theorem asleep_pending (hr : (machine N ω).ReachableUnder Clean s) (hgen : s.gen < 2 ^ 64)
    (hclient : ∀ c, s.client c = none)
    (hw : ∀ w, s.worker w = .exited ∨ s.worker w = .wait (s.gen % 2 ^ 64)) : s.pending = 0 := by
  have hl := reachable_linked hr.reachable
  have ha := reachable_account hr.reachable
  have hd := reachable_drain hr
  by_cases hexit : ∃ w, s.worker w = .exited
  · obtain ⟨w, hexit⟩ := hexit
    exact (hd.drained w hexit).2
  · have hwait : ∀ w, s.worker w = .wait s.gen := fun w => by
      rcases hw w with h | h
      · exact absurd ⟨w, h⟩ hexit
      · rwa [Nat.mod_eq_of_lt hgen] at h
    have hcall : ∀ w, (s.worker w).call = none := fun w => by rw [hwait w]; rfl
    have hinj : ∀ p, s.injector p = [] := fun p => by
      have w : Fin N := ⟨0, Nat.pos_of_ne_zero hd.workers⟩
      have hsearched := (reachable_watchful hr.reachable hgen w s.gen (by rw [hwait w]; rfl)).2 rfl
      rw [hwait w] at hsearched
      exact (reachable_rung hr.reachable).injector_nil ha (fun c => .inl (hclient c)) hcall
        (hsearched.1.2 p)
    have hdeque : ∀ v p, dequeMass (fun _ => 1) (s.adeque v p) = 0 := fun v p => by
      have he := (reachable_own hr.reachable).emptied v
      rw [hwait v] at he
      have hcalm := fun u => hl.calm (w := u) (by simp [hwait u]) (by simp [hwait u])
      simp [dequeMass, he p, (hcalm v).1 p, fun i => (hcalm i).2 v p, ownerMass, thiefMass]
    have hcount : countedCalls s = 0 := by simp [countedCalls, hclient, hcall, callCount]
    have hbusy : ∀ w, (s.worker w).busy = 0 := fun w => by rw [hwait w]; rfl
    rw [ha.pending, hcount]
    simp [queued, hinj, hdeque, hbusy]

omit [DecidableEq ω] [Fintype ω] in
theorem Inner.clean (h : Inner s l) : Clean s l := by
  cases l with
  | client | nested | shutdown => exact absurd h (by simp [Inner])
  | clientStep | finish | worker | control => trivial

omit [Fintype ω] in
/-- A step that begins no call brings no job. -/
theorem inner_next {t : State N ω} {tr : List (Label N ω)} (hr : (machine N ω).Reachable s)
    (h : (machine N ω).Path Inner s tr t) : t.next = s.next := by
  refine (h.preserves (I := fun t => (machine N ω).Reachable t ∧ t.next = s.next)
    (fun t l t' hok hst hI => ⟨hI.1.next hst, ?_⟩) ⟨hr, rfl⟩).2
  refine Eq.trans ?_ hI.2
  cases step_move (reachable_linked hI.1) hst with
  | client | nested | shutdown => exact absurd hok (by simp [Inner])
  | @clientStep c call => exact (stepSubmit_left t call).2.1
  | @nestedStep w job call => exact (stepSubmit_left t call).2.1
  | _ => rfl

/-- **Left alone, `WorkStealingScheduler` finishes.** From any state of a clean run, the steps that
begin no call are at most `stepsLeft` in number, in whatever order they are taken. Where none is
left and fewer than `2 ^ 64` notifications have been made, every job `submit` was called with has
been started and finished once, `pending` is `0`, every queue is empty, and `shutdown` has returned
if it was called. -/
theorem left_alone_finishes {t : State N ω} {tr : List (Label N ω)}
    (hs : (machine N ω).ReachableUnder Clean s) (h : (machine N ω).Path Inner s tr t) :
    tr.length ≤ stepsLeft s ∧ (∃ tr' t', (machine N ω).Path Inner t tr' t' ∧
      (machine N ω).Stopped Inner t') ∧
    ((machine N ω).Stopped Inner t → t.gen < 2 ^ 64 →
      (∀ job < s.next, t.started.count job = 1 ∧ t.finished.count job = 1) ∧ t.pending = 0 ∧
      (∀ p, t.injector p = []) ∧ (∀ v p, remaining (t.deque v p) = []) ∧
      (t.control = .idle ∨ t.control = .returned)) := by
  have hclean : (machine N ω).ReachableUnder Clean t := hs.path (h.mono fun _ _ => Inner.clean)
  have hr := hclean.reachable
  refine ⟨inner_ranked.length_le h hs.reachable, inner_ranked.exists_stopped hr,
    fun hstop hgen => ?_⟩
  have hw := stopped_worker hr hstop
  have hclient : ∀ c, t.client c = none := by
    intro c
    have hnone : step t (.clientStep c) = none := hstop (.clientStep c) trivial
    simp only [step] at hnone
    split at hnone
    · assumption
    · exact absurd hnone (by simp)
  have hpending := asleep_pending hclean hgen hclient hw
  have hall := (reachable_account hr).all_done (reachable_linked hr) hpending hclient fun w =>
    (hw w).imp_right fun h => ⟨_, h⟩
  refine ⟨fun job hjob => hall.1 job ((inner_next hs.reachable h).symm ▸ hjob), hpending, hall.2.1,
    hall.2.2, ?_⟩
  have hnone : stepControl t = none := hstop .control trivial
  cases hcon : t.control with
  | idle => exact .inl rfl
  | returned => exact .inr rfl
  | store | ring => simp [stepControl, hcon] at hnone
  | join k =>
    -- the worker that `shutdown` waits for would have been told
    have hk := reachable_join_lt hr hcon
    simp only [stepControl, hcon, dif_pos hk, ite_eq_right_iff, reduceCtorEq, imp_false] at hnone
    have hasleep : (idling N).asleep (t.worker ⟨k, hk⟩) = some t.gen := by
      rcases hw ⟨k, hk⟩ with h | h
      · exact absurd h hnone
      · rw [h, Nat.mod_eq_of_lt hgen]
        rfl
    refine absurd hpending (((reachable_warned hr).told (.inl ⟨k, hcon⟩)).pending_ne hasleep
      fun u hu => ?_)
    rcases hw u with h | h <;> exact absurd (h.symm.trans hu) (by simp)

end Steps

/-- One worker runs the job of a call that has begun, and sleeps. -/
def finishOneJob : List (Label 1 Unit) :=
  let w : Fin 1 := ⟨0, Nat.one_pos⟩
  List.replicate 4 (.clientStep ()) ++ List.replicate (1 + (3 * 7 + 1) + 2) (.worker w) ++
    [.finish w] ++ List.replicate (2 + 1 + (3 * 7 + 1) + (3 + 1) + 2) (.worker w)

theorem left_alone_finishes_one : ∃ s t : State 1 Unit, (machine 1 Unit).ReachableUnder Clean s ∧
    s.client () = some (.count 0 .normal) ∧ (machine 1 Unit).Path Inner s finishOneJob t ∧
      finishOneJob.length ≤ stepsLeft s ∧ (machine 1 Unit).Stopped Inner t ∧
      t.finished.count 0 = 1 ∧ t.pending = 0 := by
  let s₀ : State 1 Unit := (construct 1 Unit).get (by decide)
  let s := ((machine 1 Unit).execUnder Clean s₀ [.client () .normal]).get (by decide +kernel)
  have hs : (machine 1 Unit).ReachableUnder Clean s :=
    ⟨_, s₀, (Option.some_get _).symm, Machine.execUnder_path (Option.some_get _).symm⟩
  let t := ((machine 1 Unit).exec s finishOneJob).get (by decide +kernel)
  have hinner : ∀ l ∈ finishOneJob, Inner s l := by
    intro l hl
    simp only [finishOneJob, List.mem_append, List.mem_replicate, List.mem_singleton] at hl
    rcases hl with ((⟨-, rfl⟩ | ⟨-, rfl⟩) | rfl) | ⟨-, rfl⟩ <;> trivial
  have hp : (machine 1 Unit).Path Inner s finishOneJob t :=
    (Machine.exec_path (Option.some_get _).symm).mem.mono fun _ l h => hinner l h.2
  have hstop : (machine 1 Unit).Stopped Inner t := by
    have hworker : ∀ w : Fin 1, (step t (.worker w)).isNone = true := by decide +kernel
    have hfinish : ∀ w : Fin 1, (step t (.finish w)).isNone = true := by decide +kernel
    have hcontrol : (step t .control).isNone = true := by decide +kernel
    have hclient : (step t (.clientStep ())).isNone = true := by decide +kernel
    clear_value t
    intro l hl
    refine Option.isNone_iff_eq_none.mp ?_
    cases l with
    | client | nested | shutdown => exact absurd hl (by simp [Inner])
    | clientStep c => exact hclient
    | control => exact hcontrol
    | worker w => exact hworker w
    | finish w => exact hfinish w
  have hnext : s.next = 1 := by decide +kernel
  obtain ⟨hlen, -, hdone⟩ := left_alone_finishes hs hp
  obtain ⟨hjobs, hpending, -⟩ := hdone hstop (by decide +kernel)
  exact ⟨s, t, hs, by decide +kernel, hp, hlen, hstop, (hjobs 0 (by omega)).2, hpending⟩

end Wss.WorkStealing
