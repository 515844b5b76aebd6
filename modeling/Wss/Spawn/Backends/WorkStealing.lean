import Wss.Spawn.Laws

/-!
# `WorkStealingScheduler` keeps the laws

A job is taken by a `pop`, from a batch of an injector, or by a `steal`; these are the turns in
which a body starts.

Results:
* `move_turn`, `move_past`: what a step does to the bodies of jobs and to the calls of `submit`.
* `laws`: so the scheduler keeps the laws.
-/

namespace Wss.Spawn

open Wss.Lib

namespace WorkStealing

open Wss.WorkStealing

variable {N : ℕ} {ω : Type} {s s' : State N ω} {l : Label N ω} {w : Fin N} {pc : WorkerPc N}

/-- The calls of `submit` on their way to the entry. -/
def calls (s : State N ω) : Fin N ⊕ ω → Option ℕ :=
  approaching (fun pc => entering pc.call) entering s.worker s.client

theorem stolen_eq_none (h : running (s'.worker w) = running (s.worker w)) :
    stolen s (.worker w) s' = none := by
  simp only [stolen]
  split
  · rename_i hw hw'
    rw [hw, hw'] at h
    exact absurd h (by simp [running])
  · rfl

variable [DecidableEq ω]

theorem running_setWorker (w : Fin N) (pc : WorkerPc N)
    (hw : s'.worker = Function.update s.worker w pc) :
    (workStealing N ω).running s' =
      Function.update ((workStealing N ω).running s) w (running pc) := by
  simp only [workStealing, hw]
  exact Function.comp_update running s.worker w pc

theorem running_keep (hw : s'.worker = Function.update s.worker w pc)
    (hpc : running pc = running (s.worker w)) :
    (workStealing N ω).running s' = (workStealing N ω).running s := by
  rw [running_setWorker w pc hw, hpc]
  exact Function.update_eq_self _ _

/-- A step of a worker that goes on with what it runs. -/
theorem keep_turn (hw : s'.worker = Function.update s.worker w pc)
    (hpc : running pc = running (s.worker w)) (hst : s'.started = s.started) :
    Turn (workStealing N ω) (·.started) s (.worker w) s' := by
  refine .keep (running_keep hw hpc) hst (fun _ => nofun) (stolen_eq_none ?_)
  rw [hw, Function.update_self, hpc]

/-- A step of a worker that takes a job. -/
theorem start_turn {job : ℕ} (hw : s'.worker = Function.update s.worker w (.body job none))
    (hpc : running (s.worker w) = none) (hst : s'.started = s.started ++ [job]) :
    Turn (workStealing N ω) (·.started) s (.worker w) s' := by
  refine .start hpc (running_setWorker w _ hw) hst (fun _ => nofun) fun v hv => ?_
  simp only [workStealing, stolen] at hv
  split at hv
  · exact (Option.some.inj hv).symm
  · exact absurd hv (by simp)

/-- A step outside the pool. -/
theorem outside_turn (hw : s'.worker = s.worker) (hst : s'.started = s.started)
    (hbody : ∀ v, bodyStep l ≠ some (.returns v)) (hstolen : stolen s l s' = none) :
    Turn (workStealing N ω) (·.started) s l s' :=
  .keep (by simp only [workStealing, hw]) hst hbody hstolen

theorem move_turn (h : Move s l s') : Turn (workStealing N ω) (·.started) s l s' := by
  cases h with
  | client | shutdown | store | controlRing | join =>
    exact outside_turn rfl rfl (fun _ => nofun) rfl
  | @clientStep c call hc =>
    exact outside_turn (stepSubmit_frame s call).2.2 (by cases call <;> rfl) (fun _ => nofun) rfl
  | @nested w p job hw =>
    exact .keep (running_keep (w := w) rfl (by rw [hw]; rfl)) rfl (fun _ => nofun) rfl
  | @nestedStep w job call hw =>
    have hw' : ((stepSubmit s call).1.setWorker w (.body job (stepSubmit s call).2)).worker =
        Function.update s.worker w (.body job (stepSubmit s call).2) :=
      congrArg (Function.update · w _) (stepSubmit_frame s call).2.2
    exact keep_turn hw' (by rw [hw]; rfl) (by cases call <;> rfl)
  | @finish w job hw =>
    refine .returns (w := w) rfl ?_ (running_setWorker w (.uncount job) rfl) rfl rfl
    show running (s.worker w) ≠ none
    rw [hw]
    exact nofun
  | current hw | ownDone hw | popNone hw | injectDone hw | injectNone hw | stealDone hw
  | stealNone hw | uncount hw | ring hw | flag hw | noFlag hw | noPending hw | pending hw
  | wake hw =>
    exact keep_turn rfl (by rw [hw]; rfl) rfl
  | pop hw | steal hw =>
    exact keep_turn (Function.update_eq_self _ _).symm rfl rfl
  | popJob hw | injectJob hw | stealJob hw => exact start_turn rfl (by rw [hw]; rfl) rfl

/-! ### The calls of `submit` -/

theorem calls_setWorker (w : Fin N) (pc : WorkerPc N)
    (hw : s'.worker = Function.update s.worker w pc) (hc : s'.client = s.client) :
    calls s' = Function.update (calls s) (.inl w) (entering pc.call) := by
  rw [calls, hw, hc]
  exact approaching_worker _ _ _ _ _ _

theorem calls_setClient {c : ω} {call : Option SubmitPc}
    (hc : s'.client = Function.update s.client c call) (hw : s'.worker = s.worker) :
    calls s' = Function.update (calls s) (.inr c) (entering call) := by
  rw [calls, hw, hc]
  exact approaching_client _ _ _ _ _ _

/-- Any step but those of a call of `submit`. -/
theorem past_quiet {job : ℕ} (h : Past s'.next (calls s') job)
    (hw : s'.worker = Function.update s.worker w pc) (hc : s'.client = s.client)
    (hnext : s'.next = s.next) (hcall : (s.worker w).call = none) :
    Past s.next (calls s) job ∨ entry s l = some job :=
  h.step (calls_setWorker w pc hw hc) (.inl hnext)
    (.inl (by simp [calls, approaching, hcall, entering]))

theorem move_past {job : ℕ} (h : Move s l s') (hp : Past s'.next (calls s') job) :
    Past s.next (calls s) job ∨ entry s l = some job := by
  cases h with
  | shutdown | store | controlRing | join => exact .inl hp
  | @client c p hc =>
    exact hp.step (calls_setClient rfl rfl) (.inr ⟨rfl, rfl⟩)
      (.inl (by simp [calls, approaching, hc, entering]))
  | @clientStep c call hc =>
    refine hp.step (calls_setClient rfl (stepSubmit_frame s call).2.2)
      (.inl (by cases call <;> rfl)) (.inr (.inr ?_))
    simp [calls, approaching, entry]
  | @nested w p job hw =>
    refine hp.step (calls_setWorker w (.body job (some (.count s.next p))) rfl rfl)
      (.inr ⟨rfl, rfl⟩) (.inl ?_)
    simp [calls, approaching, hw, WorkerPc.call, entering]
  | @nestedStep w job call hw =>
    refine hp.step (calls_setWorker w (.body job (stepSubmit s call).2)
      (congrArg (Function.update · w _) (stepSubmit_frame s call).2.2) (stepSubmit_client s call))
      (.inl (by cases call <;> rfl)) (.inr (.inr ?_))
    simp [calls, approaching, entry]
  | finish hw | current hw | ownDone hw | popNone hw | injectDone hw | injectNone hw | stealDone hw
  | stealNone hw | uncount hw | ring hw | flag hw | noFlag hw | noPending hw | pending hw
  | wake hw | popJob hw | injectJob hw | stealJob hw =>
    exact past_quiet hp rfl rfl rfl (by rw [hw]; rfl)
  | pop hw | steal hw =>
    exact past_quiet hp (Function.update_eq_self _ _).symm rfl rfl (by rw [hw]; rfl)

omit [DecidableEq ω] in
theorem callMass_entering {call : Option SubmitPc} {job : ℕ} (h : entering call = some job) :
    callMass (only job) call = 1 := by
  unfold entering at h
  split at h
  · obtain rfl := Option.some.inj h
    exact only_self
  · exact absurd h (by simp)

variable [Fintype ω]

omit [DecidableEq ω] in
theorem started_past (ha : Account s) {job : ℕ} (hjob : job ∈ s.started) :
    Past s.next (calls s) job := by
  have hjobs := ha.jobs (only job)
  have hpos := mass_only_pos hjob
  rw [mass_only_range, unpushed] at hjobs
  split_ifs at hjobs with hlt
  · refine ⟨hlt, fun t ht => ?_⟩
    rcases t with w | c
    · have hle := le_sum (fun w => callMass (only job) (s.worker w).call) w
      have hone := callMass_entering ht
      omega
    · have hle := le_sum (fun c => callMass (only job) (s.client c)) c
      have hone := callMass_entering ht
      omega
  · omega

theorem bodies_running (ha : Account s) (μ : ℕ → ℕ) : mass μ s.started =
    mass μ s.finished + ∑ w, mass μ ((workStealing N ω).running s w).toList := by
  rw [ha.bodies μ]
  refine congrArg (mass μ s.finished + ·) (Finset.sum_congr rfl fun w _ => ?_)
  show (s.worker w).running μ = mass μ (running (s.worker w)).toList
  cases s.worker w <;> rfl

/-- `WorkStealingScheduler` keeps the laws. -/
def laws (N : ℕ) (ω : Type) [Fintype ω] [DecidableEq ω] : Laws (workStealing N ω) where
  Entered s := Past s.next (calls s)
  started := State.started
  init {s} h := by
    have h : construct N ω = some s := h
    unfold construct at h
    split_ifs at h
    obtain ⟨d, -, rfl⟩ := Option.map_eq_some_iff.mp h
    exact ⟨fun job hp => absurd hp.1 (Nat.not_lt_zero _), fun _ => rfl⟩
  bodyStep_finish _ := rfl
  entered hr hst _ hp := move_past (step_move (reachable_linked hr) hst) hp
  turn hr hst := move_turn (step_move (reachable_linked hr) hst)
  started_entered hr _ := started_past (reachable_account hr)
  started_nodup hr := started_nodup (reachable_account hr)
  running_started hr _ _ := mem_of_held (bodies_running (reachable_account hr))
  running_inj hr _ _ _ :=
    held_inj (bodies_running (reachable_account hr)) (started_nodup (reachable_account hr))

end WorkStealing

end Wss.Spawn
