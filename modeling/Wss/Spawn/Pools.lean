import Wss.Spawn.Pool
import Wss.WorkStealing.Drain

/-!
# The four backends are pools

What `PoolLaws` asks of each backend. A job is new at a call of `submit`, the workers leave one by
one, and in a clean run a worker leaves when nothing is left for anyone: in `WorkStealingScheduler`
and `FairScheduler` because it has read `pending == 0`, in the other two because its queues are
empty and no job is pushed there any more.

Results:
* `poolLaws`: each of the four keeps the laws of a pool.
* `backends_are_pools`: so each of them is one.
-/

namespace Wss

open Lib Spawn

/-- Where a worker that has not left moves on without leaving, the last one has not left. -/
theorem all_eq_update {κ α : Type} [DecidableEq κ] {f f' : κ → α} {w : κ} {a e : α}
    (hf : f' = Function.update f w a) (ha : a ≠ e) (hw : f w ≠ e) :
    (∀ v, f' v = e) ↔ ∀ v, f v = e := by
  subst hf
  exact iff_of_false (fun h => ha ((Function.update_self w a f).symm.trans (h w))) fun h => hw (h w)

/-! ## `WorkStealingScheduler` -/

namespace WorkStealing

variable {N : ℕ} {ω : Type} [DecidableEq ω] [Fintype ω] {s s' : State N ω} {l : Label N ω}

/-- Every worker has left `run_worker`. -/
def AllExited (s : State N ω) : Prop := ∀ w, s.worker w = .exited

/-- A thread outside the pool calls `submit`. -/
def Outside : Label N ω → Prop
  | .client _ _ => True
  | _ => False

theorem move_handed (h : Move s l s') :
    Handed (Spawn.WorkStealing.laws N ω) State.next Outside s l s' := by
  cases h with
  | client => exact .new rfl rfl rfl (.inl trivial)
  | @nested w p job hw =>
    refine .new rfl (Spawn.WorkStealing.running_keep (w := w) rfl (by rw [hw]; rfl)) rfl
      (.inr ⟨w, ?_⟩)
    show Spawn.WorkStealing.running (s.worker w) ≠ none
    rw [hw]
    exact nofun
  | @clientStep c call => exact .same (by cases call <;> rfl)
  | @nestedStep w job call => exact .same (by cases call <;> rfl)
  | _ => exact .same rfl

theorem move_leaving (h : Move s l s') :
    Leaving (Spawn.WorkStealing.laws N ω) State.next AllExited s s' := by
  cases h with
  | client | pop | steal | shutdown | store | controlRing | join => exact .same Iff.rfl
  | clientStep =>
    refine .same ?_
    simp only [AllExited, (stepSubmit_frame s _).2.2]
  | @nestedStep w job call hw =>
    have hwk : (stepSubmit s call).1.worker = s.worker := (stepSubmit_frame s call).2.2
    exact .same (all_eq_update (congrArg (Function.update · w _) hwk) (by simp) (by simp [hw]))
  | @noPending w gen hw =>
    exact .leaves (fun h => by simp [h w] at hw) rfl
      (Spawn.WorkStealing.running_keep (w := w) rfl (by rw [hw]; rfl)) rfl
  | nested hw | finish hw | current hw | ownDone hw | popNone hw | popJob hw | injectDone hw
  | injectNone hw | injectJob hw | stealDone hw | stealNone hw | stealJob hw | uncount hw | ring hw
  | flag hw | noFlag hw | pending hw | wake hw =>
    exact .same (all_eq_update rfl (by simp) (by simp [hw]))

/-- In a clean run nobody is inside `submit` when a worker leaves. -/
theorem quiet_of_exited (h : (machine N ω).ReachableUnder Clean s) (hexit : AllExited s) :
    s.control ≠ .idle ∧ (∀ c, s.client c = none) ∧ s.pending = 0 := by
  obtain ⟨hcontrol, hout, hpending⟩ := (reachable_drain h).quiet hexit
  refine ⟨hcontrol, fun c => ?_, hpending⟩
  by_contra hc
  exact hout ⟨c, hc⟩

theorem drained_of_exited (h : (machine N ω).ReachableUnder Clean s) (hexit : AllExited s) :
    (∀ job < s.next, job ∈ s.started) ∧ ∀ w, (workStealing N ω).running s w = none := by
  obtain ⟨-, hclient, hpending⟩ := quiet_of_exited h hexit
  have ha := reachable_account h.reachable
  refine ⟨fun job hjob => ?_, fun w => ?_⟩
  · have hone : ∀ x, only job x ≤ 1 := fun x => by
      unfold only
      split_ifs <;> omega
    have hjobs := ha.jobs (only job)
    have hqueued := queued_le hone s
    have hpend := ha.pending
    have hun : unpushed (only job) s = 0 := by
      have hexit : ∀ w, s.worker w = .exited := hexit
      simp [unpushed, hclient, hexit, callMass, WorkerPc.call]
    rw [mass_only_range, if_pos hjob, mass_only] at hjobs
    exact List.count_pos_iff.mp (by omega)
  · show Spawn.WorkStealing.running (s.worker w) = none
    rw [hexit w]
    rfl

theorem entry_lt {job : ℕ} (h : (machine N ω).Reachable s)
    (he : Spawn.WorkStealing.entry s l = some job) : job < s.next := by
  have hjobs := (reachable_account h).jobs (only job)
  rw [mass_only_range] at hjobs
  have hone : 1 ≤ unpushed (only job) s := by
    cases l with
    | clientStep c =>
      have hle := le_sum (fun c => callMass (only job) (s.client c)) c
      have hcall : callMass (only job) (s.client c) = 1 := Spawn.WorkStealing.callMass_entering he
      unfold unpushed
      omega
    | worker w =>
      have hle := le_sum (fun w => callMass (only job) (s.worker w).call) w
      have hcall : callMass (only job) (s.worker w).call = 1 :=
        Spawn.WorkStealing.callMass_entering he
      unfold unpushed
      omega
    | client | nested | finish | shutdown | control => exact absurd he nofun
  split_ifs at hjobs with hlt
  · exact hlt
  · omega

/-- `WorkStealingScheduler` is a pool. -/
def poolLaws (N : ℕ) (ω : Type) [DecidableEq ω] [Fintype ω] :
    PoolLaws (Spawn.WorkStealing.laws N ω) where
  next := State.next
  Outside := Outside
  exited := AllExited
  returned s := s.control = .returned
  Orderly := Clean
  init {s} h := by
    have h : construct N ω = some s := h
    unfold construct at h
    split_ifs at h with hN
    obtain ⟨d, -, rfl⟩ := Option.map_eq_some_iff.mp h
    exact ⟨rfl, rfl, fun h => absurd (h ⟨0, Nat.pos_of_ne_zero hN⟩) nofun⟩
  handed hr hst := move_handed (step_move (reachable_linked hr) hst)
  leaving hr hst := move_leaving (step_move (reachable_linked hr) hst)
  started_lt hr job hjob := (Spawn.WorkStealing.started_past (reachable_account hr) hjob).1
  entry_lt hr he := entry_lt hr he
  drained := drained_of_exited
  shut {s l} hr hexit hok hl := by
    cases l with
    | client c p => exact (quiet_of_exited hr hexit).1 hok
    | _ => exact hl
  returned_exited hr hret := (reachable_drain hr).returned hret

end WorkStealing

/-! ## `FairScheduler` -/

namespace Fair

variable {N : ℕ} {ω : Type} [DecidableEq ω] [Fintype ω] {s s' : State ℚ N ω} {l : Label ℚ N ω}

/-- Every worker has left `worker_loop`. -/
def AllExited (s : State ℚ N ω) : Prop := ∀ w, s.worker w = .exited

/-- A thread outside the pool calls `submit`. -/
def Outside : Label ℚ N ω → Prop
  | .client _ _ => True
  | _ => False

theorem move_handed (h : Move s l s') : Handed (Spawn.Fair.laws N ω) State.next Outside s l s' := by
  cases h with
  | client => exact .new rfl rfl rfl (.inl trivial)
  | @nested w opts id job hw =>
    refine .new rfl ?_ rfl (.inr ⟨w, ?_⟩)
    · rw [Spawn.Fair.running_setWorker w (.body id job (some (.count s.next opts))) rfl,
        Function.update_eq_self_iff]
      show some job = Spawn.Fair.running (s.worker w)
      rw [hw]
      rfl
    · show Spawn.Fair.running (s.worker w) ≠ none
      rw [hw]
      exact nofun
  | clientStep _ hsub | nestedStep _ hsub =>
    obtain ⟨-, -, -, -, hnext, -⟩ := hsub.frame
    exact .same hnext
  | _ => exact .same rfl

theorem move_leaving (h : Move s l s') :
    Leaving (Spawn.Fair.laws N ω) State.next AllExited s s' := by
  cases h with
  | client | register | join | shutdown | store | controlRing | joinWorker => exact .same Iff.rfl
  | clientStep _ hsub =>
    refine .same ?_
    simp only [AllExited, hsub.frame.1]
  | @nestedStep w id job call call' s₁ hw hsub =>
    exact .same (all_eq_update (congrArg (Function.update · w _) hsub.frame.1) (by simp)
      (by simp [hw]))
  | @noPending w gen hw =>
    refine .leaves (fun h => by simp [h w] at hw) rfl ?_ rfl
    rw [Spawn.Fair.running_setWorker w .exited rfl, Function.update_eq_self_iff]
    show none = Spawn.Fair.running (s.worker w)
    rw [hw]
    rfl
  | nested hw | finish hw | current hw | noJob hw | take hw | deliver hw | uncount hw | ring hw
  | account hw | flag hw | noFlag hw | pending hw | wake hw =>
    exact .same (all_eq_update rfl (by simp) (by simp [hw]))

/-- In a clean run nobody is inside `submit` when a worker leaves. -/
theorem quiet_of_exited (h : (machine ℚ N ω).ReachableUnder Clean s) (hexit : AllExited s) :
    s.control ≠ .idle ∧ (∀ c, s.client c = none) ∧ s.pending = 0 := by
  obtain ⟨hcontrol, hout, hpending⟩ := (reachable_drain h).quiet hexit
  refine ⟨hcontrol, fun c => ?_, hpending⟩
  by_contra hc
  exact hout ⟨c, hc⟩

theorem drained_of_exited (h : (machine ℚ N ω).ReachableUnder Clean s) (hexit : AllExited s) :
    (∀ job < s.next, job ∈ Spawn.Fair.started s) ∧ ∀ w, (fair N ω).running s w = none := by
  obtain ⟨-, hclient, hpending⟩ := quiet_of_exited h hexit
  obtain ⟨hdis, -, -, hall⟩ :=
    (reachable_account h.reachable).settled_perm hexit hclient hpending
  refine ⟨fun job hjob => ?_, fun w => ?_⟩
  · exact ((hdis.map Prod.snd).trans hall).mem_iff.mpr (List.mem_range.mpr hjob)
  · show Spawn.Fair.running (s.worker w) = none
    rw [hexit w]
    rfl

theorem entry_lt {job : ℕ} (h : (machine ℚ N ω).Reachable s)
    (he : Spawn.Fair.entry s l = some job) : job < s.next := by
  have hjobs := (reachable_account h).jobs (only job)
  rw [mass_only_range] at hjobs
  have hone : 1 ≤ s.unfiled (only job) := by
    cases l with
    | clientStep c =>
      have hle := le_sum (fun c => unfiled (only job) (s.client c)) c
      have hcall : unfiled (only job) (s.client c) = 1 := Spawn.Fair.unfiled_entering he
      unfold State.unfiled
      omega
    | worker w =>
      have hle := le_sum (fun w => unfiled (only job) (s.worker w).call) w
      have hcall : unfiled (only job) (s.worker w).call = 1 := Spawn.Fair.unfiled_entering he
      unfold State.unfiled
      omega
    | _ => exact absurd he nofun
  split_ifs at hjobs with hlt
  · exact hlt
  · omega

/-- `FairScheduler` is a pool. -/
def poolLaws (N : ℕ) (ω : Type) [DecidableEq ω] [Fintype ω] : PoolLaws (Spawn.Fair.laws N ω) where
  next := State.next
  Outside := Outside
  exited := AllExited
  returned s := s.control = .returned
  Orderly := Clean
  init {s} h := by
    have h : construct ℚ N ω = some s := h
    unfold construct at h
    split_ifs at h with hN
    obtain rfl := Option.some.inj h
    exact ⟨rfl, rfl, fun h => absurd (h ⟨0, Nat.pos_of_ne_zero hN⟩) nofun⟩
  handed _ hst := move_handed (step_move hst)
  leaving _ hst := move_leaving (step_move hst)
  started_lt hr job hjob := (Spawn.Fair.started_past (reachable_account hr) hjob).1
  entry_lt hr he := entry_lt hr he
  drained := drained_of_exited
  shut {s l} hr hexit hok hl := by
    cases l with
    | client c opts => exact (quiet_of_exited hr hexit).1 hok
    | _ => exact hl
  returned_exited hr hret := (reachable_drain hr).returned hret

end Fair

/-! ## `GlobalQueueScheduler` and `ThreadPerCoreScheduler` -/

namespace Monitor

variable {N K : ℕ} {Q ω : Type} [DecidableEq ω] [Fintype ω] {L : Layout N K Q}
variable {items : Q → List ℕ} {s s' : State N K Q ω} {l : Label N ω}

/-- Every worker has left `worker_loop`. -/
def AllExited (s : State N K Q ω) : Prop := ∀ w, s.worker w = .exited

/-- A thread outside the pool calls `submit`. -/
def Outside : Label N ω → Prop
  | .client _ _ => True
  | _ => False

/-- No thread outside the pool submits at the call of `shutdown` or later, and no running job pushes
to a core at which all workers have left. -/
def Orderly (L : Layout N K Q) (s : State N K Q ω) (l : Label N ω) : Prop :=
  Clean s l ∧ Served L s l

instance (s : State N K Q ω) (l : Label N ω) : Decidable (Orderly L s l) :=
  inferInstanceAs (Decidable (Clean s l ∧ Served L s l))

/-- The number of calls of `submit`. -/
def calls (s : State N K Q ω) : ℕ := s.submitted.length

theorem move_handed (hL : L.Lawful items) (h : Move L s l s') :
    Handed (Spawn.Monitor.laws L hL ω) calls Outside s l s' := by
  cases h with
  | client => exact .new List.length_append rfl rfl (.inl trivial)
  | @nested w opts job hw =>
    refine .new List.length_append ?_ rfl (.inr ⟨w, ?_⟩)
    · rw [Spawn.Monitor.running_setWorker w (.body job (some (enter L s.submitted.length opts)))
      rfl,
        Function.update_eq_self_iff]
      show some job = (s.worker w).running
      rw [hw]
      rfl
    · show (s.worker w).running ≠ none
      rw [hw]
      exact nofun
  | clientStep _ hsub | nestedStep _ hsub =>
    obtain ⟨-, -, -, -, hsubm, -⟩ := hsub.frame
    exact .same (congrArg List.length hsubm)
  | _ => exact .same rfl

omit [Fintype ω] [DecidableEq ω] in
/-- A woken worker has not left. -/
theorem all_exited_of_wake
    (hw : ∀ u, s'.worker u = s.worker u ∨ s.worker u = .waiting ∧ s'.worker u = .lock) :
    AllExited s' ↔ AllExited s := by
  refine forall_congr' fun u => ?_
  rcases hw u with h | ⟨h, h'⟩
  · rw [h]
  · simp [h, h']

theorem move_leaving (hL : L.Lawful items) (h : Move L s l s') :
    Leaving (Spawn.Monitor.laws L hL ω) calls AllExited s s' := by
  cases h with
  | client | shutdown | store | join => exact .same Iff.rfl
  | notifyAll => exact .same (all_exited_of_wake (s := s) (Monitor.notifyAll_worker s _))
  | clientStep _ hsub => exact .same (all_exited_of_wake hsub.frame.1)
  | @nestedStep w wakes job call call' s₁ hw hsub =>
    have hw₁ : s₁.worker w ≠ .exited := by
      rcases hsub.frame.1 w with h | ⟨-, h⟩
      · simp [h, hw]
      · simp [h]
    exact .same ((all_eq_update rfl (by simp) hw₁).trans (all_exited_of_wake hsub.frame.1))
  | @leave w wakes hw =>
    refine .leaves (fun h => by simp [h w] at hw) rfl ?_ rfl
    rw [Spawn.Monitor.running_setWorker (s := s) w .exited rfl, Function.update_eq_self_iff]
    show none = (s.worker w).running
    rw [hw]
    rfl
  | nested hw | finish hw | lock hw | take hw | noJob hw | flag hw | noFlag hw | wait hw | unlock hw
  | spurious hw =>
    exact .same (all_eq_update rfl (by simp) (by simp [hw]))

omit [Fintype ω] in
/-- In an orderly run nobody is inside `submit` when a worker leaves. -/
theorem quiet_of_exited (h : (machine L ω).ReachableUnder (Orderly L) s) (hexit : AllExited s) :
    s.control ≠ .idle ∧ ∀ c, s.client c = none := by
  have hd := reachable_drained h
  let w : Fin N := ⟨0, Nat.pos_of_ne_zero hd.workers⟩
  have hcontrol : s.control ≠ .idle := hd.flag (hd.leaving w (.inr (hexit w)))
  exact ⟨hcontrol, hd.clients hcontrol⟩

theorem drained_of_exited (hL : L.Lawful items) (hcore : Function.Surjective L.core)
    (h : (machine L ω).ReachableUnder (Orderly L) s) (hexit : AllExited s) :
    (∀ job < calls s, job ∈ Spawn.Monitor.started s) ∧ ∀ w, (monitor L ω).running s w = none := by
  obtain ⟨-, hclient⟩ := quiet_of_exited h hexit
  have hempty : ∀ k, L.pop (s.queues k) = none := fun k => by
    obtain ⟨w, rfl⟩ := hcore k
    exact (reachable_drained h).empty w fun u _ => hexit u
  refine ⟨fun job hjob => ?_, fun w => ?_⟩
  · have hone := ((reachable_account h.reachable).all_run hL (reachable_replay hL h.reachable)
      hclient hexit hempty hjob).1
    exact List.count_pos_iff.mp (hone ▸ Nat.one_pos)
  · show (s.worker w).running = none
    rw [hexit w]
    rfl

theorem entry_lt {job : ℕ} (h : (machine L ω).Reachable s)
    (he : Spawn.Monitor.entry s l = some job) : job < calls s := by
  have hjobs := (reachable_account h).jobs (only job)
  rw [mass_only_range] at hjobs
  have hsub : ∀ {call : Option (SubmitPc K)}, Spawn.Monitor.entering call = some job →
      unpushed (only job) call = 1 := fun {call} hcall => by
    unfold Spawn.Monitor.entering at hcall
    split at hcall
    · exact Spawn.Monitor.unpushed_submitting hcall
    · exact absurd hcall (by simp)
  have hone : 1 ≤ s.unpushed (only job) := by
    cases l with
    | clientStep c =>
      have hle := le_sum (fun c => unpushed (only job) (s.client c)) c
      have hcall : unpushed (only job) (s.client c) = 1 := hsub he
      unfold State.unpushed
      omega
    | worker w =>
      have hle := le_sum (fun w => unpushed (only job) (s.worker w).call) w
      have hcall : unpushed (only job) (s.worker w).call = 1 := hsub he
      unfold State.unpushed
      omega
    | client | nested | finish | shutdown | control | spurious =>
      exact absurd he (by simp [Spawn.Monitor.entry])
  unfold calls
  split_ifs at hjobs with hlt
  · exact hlt
  · omega

/-- The schedulers on condition variables are pools. -/
def poolLaws (L : Layout N K Q) (hL : L.Lawful items) (hcore : Function.Surjective L.core)
    (ok : State N K Q ω → Label N ω → Prop) (hok : ∀ s l, ok s l → Orderly L s l) :
    PoolLaws (Spawn.Monitor.laws L hL ω) where
  next := calls
  Outside := Outside
  exited := AllExited
  returned s := s.control = .returned
  Orderly := ok
  init {s} h := by
    have h : construct L ω = some s := h
    unfold construct at h
    split_ifs at h with hN
    obtain rfl := Option.some.inj h
    exact ⟨rfl, rfl, fun h => absurd (h ⟨0, Nat.pos_of_ne_zero hN⟩) nofun⟩
  handed _ hst := move_handed hL (step_move hst)
  leaving _ hst := move_leaving hL (step_move hst)
  started_lt hr job hjob :=
    (Spawn.Monitor.started_past (reachable_account hr) (reachable_replay hL hr) hjob).1
  entry_lt hr he := entry_lt hr he
  drained hr hexit := drained_of_exited hL hcore (hr.mono hok) hexit
  shut {s l} hr hexit hl hout := by
    cases l with
    | client c opts => exact (quiet_of_exited (hr.mono hok) hexit).1 (hok _ _ hl).1
    | _ => exact hout
  returned_exited hr hret := (reachable_drained (hr.mono hok)).returned hret

end Monitor

/-! ## All of them -/

namespace Spawn

/-- The four backends are pools. A run of the first three is orderly if no thread outside the pool
submits at the call of `shutdown` or later; one of `ThreadPerCoreScheduler` also needs that no
running job pushes to a core whose worker has left. -/
def poolLaws (N : ℕ) [NeZero N] (ω : Type) [Fintype ω] [DecidableEq ω] :
    (k : Kind) → PoolLaws (laws N ω k)
  | .workStealing => WorkStealing.poolLaws N ω
  | .fair => Fair.poolLaws N ω
  | .globalQueue =>
    Monitor.poolLaws _ (Monitor.globalQueue_lawful N) (fun k => ⟨0, Subsingleton.elim _ k⟩)
      Monitor.Clean fun s l h => ⟨h, Monitor.served_globalQueue s l⟩
  | .threadPerCore =>
    Monitor.poolLaws _ (Monitor.threadPerCore_lawful N) (fun k => ⟨k, rfl⟩)
      (Monitor.Orderly (Monitor.threadPerCore N)) fun _ _ h => h

/-- **Every backend is a pool of workers.** In every run each step hands one new job in, starts one
that waits on a worker that runs none, finishes the one a worker runs, or does none of this. In an
orderly run the last worker that leaves closes the pool, with every job done and none to come, and
`shutdown` returns only when it is closed. -/
theorem backends_are_pools (N : ℕ) [NeZero N] (ω : Type) [Fintype ω] [DecidableEq ω] (k : Kind) :
    let Q := poolLaws N ω k
    Simulates (backend N ω k).machine Machine.Free (JobPool.machine (Fin N) ℕ) Machine.Free
        (fun b p => p = Q.view False b) ∧
      Simulates (backend N ω k).machine Q.Orderly (JobPool.machine (Fin N) ℕ) Machine.Free
        (fun b p => p = Q.view (Q.exited b) b) ∧
      ∀ b, (backend N ω k).machine.ReachableUnder Q.Orderly b → Q.returned b →
        (Q.view (Q.exited b) b).closed :=
  ⟨(poolLaws N ω k).simulates_open, (poolLaws N ω k).simulates,
    fun _ => (poolLaws N ω k).returned_exited⟩

/-- On two cores, a job and the one that it submits: the pool is closed, and both are done. -/
theorem backends_are_pools_two : ∃ p : JobPool (Fin 2) ℕ,
    (JobPool.machine (Fin 2) ℕ).Reachable p ∧ p.closed ∧ 0 ∈ p.done ∧ 1 ∈ p.done := by
  let L := Monitor.threadPerCore 2
  let s₀ : Monitor.State 2 2 Monitor.CoreQueues Unit := (Monitor.construct L Unit).get (by decide)
  let s := ((Monitor.machine L Unit).execUnder (Monitor.Orderly L) s₀ Monitor.drainedRun).get
    (by decide +kernel)
  have hreach : (Monitor.machine L Unit).ReachableUnder (Monitor.Orderly L) s :=
    ⟨Monitor.drainedRun, s₀, (Option.some_get _).symm,
      Machine.execUnder_path (Option.some_get _).symm⟩
  have hret : s.control = .returned := by decide +kernel
  have hidle : ∀ w, (s.worker w).running = none := by decide +kernel
  have hdone : ∀ job ∈ Monitor.started s, ∀ w, (s.worker w).running ≠ some job := fun job _ w hw =>
    absurd ((hidle w).symm.trans hw) nofun
  obtain ⟨-, hsim, hclosed⟩ := backends_are_pools 2 Unit .threadPerCore
  obtain ⟨p, hp, rfl⟩ := hsim.reachable hreach
  exact ⟨_, hp, hclosed s hreach hret, ⟨by decide +kernel, hdone 0 (by decide +kernel)⟩,
    ⟨by decide +kernel, hdone 1 (by decide +kernel)⟩⟩

end Spawn

end Wss
