import Wss.Spawn.Laws

/-!
# The backends on condition variables keep the laws

A job is taken by the worker that has the mutex of its core; the turn in which its body starts is
the one in which the worker releases it. A step of `submit` or of `shutdown` may wake workers, none
of which runs a job.

Results:
* `move_turn`, `move_past`: what a step does to the bodies of jobs and to the calls of `submit`.
* `laws`: so both keep the laws.
-/

namespace Wss.Spawn

open Wss.Lib

namespace Monitor

open Wss.Monitor

variable {N K : ℕ} {Q ω : Type} {L : Layout N K Q} {items : Q → List ℕ}
variable {s s' : State N K Q ω} {l : Label N ω} {w : Fin N} {pc : WorkerPc K}

/-- The job of a call of `submit` on its way to the entry. -/
def submitting : Option (SubmitPc K) → Option ℕ
  | some (.ticket job _) | some (.lock job _ _) => some job
  | _ => none

/-- The calls of `submit` on their way to the entry. -/
def calls (s : State N K Q ω) : Fin N ⊕ ω → Option ℕ :=
  approaching (fun pc => submitting pc.call) submitting s.worker s.client

/-- The jobs whose body was called. -/
def started (s : State N K Q ω) : List ℕ := s.started.map Prod.snd

theorem submitting_enter (job : ℕ) (opts : SubmitOptions) :
    submitting (some (enter L job opts)) = some job := by
  unfold enter
  split <;> rfl

section Woken

variable (hw : ∀ u, s'.worker u = s.worker u ∨ s.worker u = .waiting ∧ s'.worker u = .lock)

include hw

/-- A woken worker runs no job. -/
theorem running_of_wake : (fun u => (s'.worker u).running) = fun u => (s.worker u).running := by
  funext u
  rcases hw u with h | ⟨h, h'⟩
  · rw [h]
  · rw [h, h']
    rfl

theorem calls_of_wake (hc : s'.client = s.client) : calls s' = calls s := by
  unfold calls approaching
  rw [hc]
  refine congrArg (Sum.elim · _) (funext fun u => ?_)
  rcases hw u with h | ⟨h, h'⟩
  · exact congrArg (fun pc : WorkerPc K => submitting pc.call) h
  · show submitting (s'.worker u).call = submitting (s.worker u).call
    rw [h, h']
    rfl

end Woken

variable [DecidableEq ω]

/-! ### Bodies -/

theorem running_setWorker (w : Fin N) (pc : WorkerPc K)
    (hw : s'.worker = Function.update s.worker w pc) :
    (monitor L ω).running s' = Function.update ((monitor L ω).running s) w pc.running := by
  simp only [monitor, hw]
  exact Function.comp_update WorkerPc.running s.worker w pc

/-- A step of a worker that goes on with what it runs. -/
theorem keep_turn (hw : s'.worker = Function.update s.worker w pc)
    (hpc : pc.running = (s.worker w).running) (hst : s'.started = s.started)
    (hbody : ∀ v, bodyStep l ≠ some (.returns v)) : Turn (monitor L ω) started s l s' := by
  refine .keep ?_ (congrArg (List.map Prod.snd) hst) hbody rfl
  rw [running_setWorker w pc hw, hpc]
  exact Function.update_eq_self _ _

/-- A step that does nothing to the workers but wake them. -/
theorem wake_turn
    (hw : ∀ u, s'.worker u = s.worker u ∨ s.worker u = .waiting ∧ s'.worker u = .lock)
    (hst : s'.started = s.started) (hbody : ∀ v, bodyStep l ≠ some (.returns v)) :
    Turn (monitor L ω) started s l s' :=
  .keep (running_of_wake hw) (congrArg (List.map Prod.snd) hst) hbody rfl

theorem move_turn (h : Move L s l s') : Turn (monitor L ω) started s l s' := by
  cases h with
  | client | shutdown | store | join => exact wake_turn (fun _ => .inl rfl) rfl (fun _ => nofun)
  | notifyAll => exact wake_turn (notifyAll_worker s _) rfl (fun _ => nofun)
  | clientStep hc hsub =>
    obtain ⟨hwk, -, -, -, -, hst, -⟩ := hsub.frame
    exact wake_turn hwk hst (fun _ => nofun)
  | @nested w opts job hpc =>
    exact keep_turn (w := w) rfl (by rw [hpc]; rfl) rfl (fun _ => nofun)
  | @nestedStep w wakes job call call' s₁ hpc hsub =>
    obtain ⟨hwk, -, -, -, -, hst, -⟩ := hsub.frame
    refine .keep ?_ (congrArg (List.map Prod.snd) hst) (fun _ => nofun) rfl
    have hrun : (monitor L ω).running s₁ = (monitor L ω).running s := running_of_wake hwk
    rw [running_setWorker (s := s₁) w (.body job call') rfl, hrun, Function.update_eq_iff]
    refine ⟨?_, fun _ _ => rfl⟩
    show some job = (s.worker w).running
    rw [hpc]
    rfl
  | @finish w job hpc =>
    refine .returns (w := w) rfl ?_ (running_setWorker w .lock rfl) rfl rfl
    show (s.worker w).running ≠ none
    rw [hpc]
    exact nofun
  | @unlock w wakes job hpc =>
    refine .start (w := w) ?_ (running_setWorker w (.body job none) rfl) ?_
      (fun _ => nofun) fun _ => nofun
    · show (s.worker w).running = none
      rw [hpc]
      rfl
    · exact List.map_append
  | lock hpc | take hpc | noJob hpc | flag hpc | noFlag hpc | wait hpc | leave hpc | spurious hpc =>
    exact keep_turn rfl (by rw [hpc]; rfl) rfl (fun _ => nofun)

/-! ### The calls of `submit` -/

theorem calls_setWorker (w : Fin N) (pc : WorkerPc K)
    (hw : s'.worker = Function.update s.worker w pc) (hc : s'.client = s.client) :
    calls s' = Function.update (calls s) (.inl w) (submitting pc.call) := by
  rw [calls, hw, hc]
  exact approaching_worker _ _ _ _ _ _

theorem calls_setClient {c : ω} {call : Option (SubmitPc K)}
    (hc : s'.client = Function.update s.client c call) (hw : s'.worker = s.worker) :
    calls s' = Function.update (calls s) (.inr c) (submitting call) := by
  rw [calls, hw, hc]
  exact approaching_client _ _ _ _ _ _

/-- Any step of a worker but those of a call of `submit`. -/
theorem past_quiet {job : ℕ} (h : Past s'.submitted.length (calls s') job)
    (hw : s'.worker = Function.update s.worker w pc) (hc : s'.client = s.client)
    (hnext : s'.submitted = s.submitted) (hcall : (s.worker w).call = none) :
    Past s.submitted.length (calls s) job ∨ entry s l = some job :=
  h.step (calls_setWorker w pc hw hc) (.inl (congrArg List.length hnext))
    (.inl (by simp [calls, approaching, hcall, submitting]))

omit [DecidableEq ω] in
/-- A call of `submit` leaves with its entry, or goes on to it. -/
theorem submitting_step {t : Thread N ω} {call : SubmitPc K} {call' : Option (SubmitPc K)}
    (h : Submitting L s t call s' call') : submitting (some call) = none ∨
      submitting (some call) = submitting call' ∨
        submitting (some call) = entering (some call) := by
  cases h with
  | ticket => exact .inr (.inl rfl)
  | lock => exact .inr (.inr rfl)
  | push | unlock | notifyNone | notify | done => exact .inl rfl

theorem move_past {job : ℕ} (h : Move L s l s') (hp : Past s'.submitted.length (calls s') job) :
    Past s.submitted.length (calls s) job ∨ entry s l = some job := by
  cases h with
  | shutdown | store | join => exact .inl hp
  | notifyAll =>
    exact .inl (calls_of_wake (s := s) (notifyAll_worker s _) rfl ▸ hp)
  | @client c opts hc =>
    refine hp.step (calls_setClient rfl rfl) (.inr ⟨List.length_append, submitting_enter _ _⟩)
      (.inl ?_)
    simp [calls, approaching, hc, submitting]
  | @clientStep c wakes call call' s₁ hc hsub =>
    obtain ⟨hwk, hcl, -, -, hsubm, -⟩ := hsub.frame
    have hcalls : calls s₁ = calls s := calls_of_wake hwk hcl
    rw [← hcalls]
    refine hp.step (calls_setClient rfl rfl) (.inl (congrArg List.length hsubm)) ?_
    rw [hcalls]
    simpa [calls, approaching, entry, hc] using submitting_step hsub
  | @nested w opts job hpc =>
    refine hp.step (calls_setWorker w (.body job (some (enter L s.submitted.length opts))) rfl rfl)
      (.inr ⟨List.length_append, submitting_enter _ _⟩) (.inl ?_)
    simp [calls, approaching, hpc, WorkerPc.call, submitting]
  | @nestedStep w wakes job call call' s₁ hpc hsub =>
    obtain ⟨hwk, hcl, -, -, hsubm, -⟩ := hsub.frame
    have hcalls : calls s₁ = calls s := calls_of_wake hwk hcl
    rw [← hcalls]
    refine hp.step (calls_setWorker w (.body job call') rfl rfl)
      (.inl (congrArg List.length hsubm)) ?_
    rw [hcalls]
    simpa [calls, approaching, entry, hpc, WorkerPc.call] using submitting_step hsub
  | finish hpc | lock hpc | take hpc | noJob hpc | flag hpc | noFlag hpc | wait hpc | unlock hpc
  | leave hpc | spurious hpc =>
    exact past_quiet hp rfl rfl rfl (by rw [hpc]; rfl)

omit [DecidableEq ω] in
theorem unpushed_submitting {call : Option (SubmitPc K)} {job : ℕ}
    (h : submitting call = some job) :
    unpushed (only job) call = 1 := by
  unfold submitting at h
  split at h
  · obtain rfl := Option.some.inj h
    exact only_self
  · obtain rfl := Option.some.inj h
    exact only_self
  · exact absurd h (by simp)

variable [Fintype ω]

omit [DecidableEq ω] in
theorem started_past (ha : Account s) (hr : Replay L items s) {job : ℕ} (hjob : job ∈ started s) :
    Past s.submitted.length (calls s) job := by
  have hjobs := ha.jobs (only job)
  have hqueued := hr.queued (only job)
  have hstarted := ha.started (only job)
  have hpos := mass_only_pos hjob
  rw [mass_only_range, State.unpushed] at hjobs
  rw [started] at hpos
  split_ifs at hjobs with hlt
  · refine ⟨hlt, fun t ht => ?_⟩
    rcases t with w | c
    · have hle := le_sum (fun w => unpushed (only job) (s.worker w).call) w
      have hone := unpushed_submitting ht
      omega
    · have hle := le_sum (fun c => unpushed (only job) (s.client c)) c
      have hone := unpushed_submitting ht
      omega
  · omega

/-- These backends keep the laws. -/
def laws (L : Layout N K Q) (hL : L.Lawful items) (ω : Type) [Fintype ω] [DecidableEq ω] :
    Laws (monitor L ω) where
  Entered s := Past s.submitted.length (calls s)
  started := started
  init {s} h := by
    have h : construct L ω = some s := h
    unfold construct at h
    split_ifs at h
    obtain rfl := Option.some.inj h
    exact ⟨fun job hp => absurd hp.1 (Nat.not_lt_zero _), fun _ => rfl⟩
  bodyStep_finish _ := rfl
  entered _ hst _ hp := move_past (step_move hst) hp
  turn _ hst := move_turn (step_move hst)
  started_entered hr _ := started_past (reachable_account hr) (reachable_replay hL hr)
  started_nodup hr := (reachable_account hr).started_nodup (reachable_replay hL hr)
  running_started hr _ _ := mem_of_held (reachable_account hr).finished
  running_inj hr _ _ _ := held_inj (reachable_account hr).finished
    ((reachable_account hr).started_nodup (reachable_replay hL hr))

end Monitor

end Wss.Spawn
