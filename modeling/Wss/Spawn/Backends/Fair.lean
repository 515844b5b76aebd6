import Wss.Fair.Drain
import Wss.Spawn.Laws

/-!
# `FairScheduler` keeps the laws

A job is taken in the critical section of `worker_loop`: the turn in which its body starts.

Results:
* `move_turn`, `move_past`: what a step does to the bodies of jobs and to the calls of `submit`.
* `laws`: so the scheduler keeps the laws.
-/

namespace Wss.Spawn

open Wss.Lib

namespace Fair

open Wss.Fair

variable {N : ℕ} {ω : Type} {s s' : State ℚ N ω} {l : Label ℚ N ω} {w : Fin N} {pc : WorkerPc ℚ}

/-- The calls of `submit` on their way to the entry. -/
def calls (s : State ℚ N ω) : Fin N ⊕ ω → Option ℕ :=
  approaching (fun pc => entering pc.call) entering s.worker s.client

/-- The jobs whose body was called. -/
def started (s : State ℚ N ω) : List ℕ := s.dispatched.map Prod.snd

variable [DecidableEq ω]

/-! ### Bodies -/

theorem running_setWorker (w : Fin N) (pc : WorkerPc ℚ)
    (hw : s'.worker = Function.update s.worker w pc) :
    (fair N ω).running s' = Function.update ((fair N ω).running s) w (running pc) := by
  simp only [fair, hw]
  exact Function.comp_update running s.worker w pc

/-- A step of a worker that goes on with what it runs. -/
theorem keep_turn (hw : s'.worker = Function.update s.worker w pc)
    (hpc : running pc = running (s.worker w)) (hst : s'.dispatched = s.dispatched)
    (hbody : ∀ v, bodyStep l ≠ some (.returns v)) : Turn (fair N ω) started s l s' := by
  refine .keep ?_ (congrArg (List.map Prod.snd) hst) hbody rfl
  rw [running_setWorker w pc hw, hpc]
  exact Function.update_eq_self _ _

/-- A step outside the pool. -/
theorem outside_turn (hw : s'.worker = s.worker) (hst : s'.dispatched = s.dispatched)
    (hbody : ∀ v, bodyStep l ≠ some (.returns v)) : Turn (fair N ω) started s l s' :=
  .keep (by simp only [fair, hw]) (congrArg (List.map Prod.snd) hst) hbody rfl

theorem move_turn (h : Move s l s') : Turn (fair N ω) started s l s' := by
  cases h with
  | client | register | join | shutdown | store | controlRing | joinWorker =>
    exact outside_turn rfl rfl (fun _ => nofun)
  | clientStep hc hsub =>
    obtain ⟨hw, -, -, -, -, hdis, -⟩ := hsub.frame
    exact outside_turn hw hdis (fun _ => nofun)
  | @nested w opts id job hw =>
    exact keep_turn (w := w) rfl (by rw [hw]; rfl) rfl (fun _ => nofun)
  | @nestedStep w id job call call' s₁ hw hsub =>
    obtain ⟨hwk, -, -, -, -, hdis, -⟩ := hsub.frame
    have hw' : (s₁.setWorker w (.body id job call')).worker =
        Function.update s.worker w (.body id job call') := congrArg (Function.update · w _) hwk
    exact keep_turn hw' (by rw [hw]; rfl) hdis (fun _ => nofun)
  | @finish w id job hw =>
    refine .returns (w := w) rfl ?_ (running_setWorker w (.deliver id job) rfl) rfl rfl
    show running (s.worker w) ≠ none
    rw [hw]
    exact nofun
  | @take w gen id job t hw =>
    refine .start (w := w) ?_ (running_setWorker w (.body id job none) rfl) ?_
      (fun _ => nofun) fun _ => nofun
    · show running (s.worker w) = none
      rw [hw]
      rfl
    · exact List.map_append
  | current hw | noJob hw | deliver hw | uncount hw | ring hw | account hw | flag hw | noFlag hw
  | noPending hw | pending hw | wake hw =>
    exact keep_turn rfl (by rw [hw]; rfl) rfl (fun _ => nofun)

/-! ### The calls of `submit` -/

theorem calls_setWorker (w : Fin N) (pc : WorkerPc ℚ)
    (hw : s'.worker = Function.update s.worker w pc) (hc : s'.client = s.client) :
    calls s' = Function.update (calls s) (.inl w) (entering pc.call) := by
  rw [calls, hw, hc]
  exact approaching_worker _ _ _ _ _ _

theorem calls_setClient {c : ω} {call : Option (SubmitPc ℚ)}
    (hc : s'.client = Function.update s.client c call) (hw : s'.worker = s.worker) :
    calls s' = Function.update (calls s) (.inr c) (entering call) := by
  rw [calls, hw, hc]
  exact approaching_client _ _ _ _ _ _

/-- Any step but those of a call of `submit`. -/
theorem past_quiet {job : ℕ} (h : Past s'.next (calls s') job)
    (hw : s'.worker = Function.update s.worker w pc) (hc : s'.client = s.client)
    (hnext : s'.next = s.next) (hcall : (s.worker w).call = none) :
    Past s.next (calls s) job ∨ entry s l = some job :=
  h.step (calls_setWorker w pc hw hc) (.inl hnext)
    (.inl (by simp [calls, approaching, hcall, entering]))

theorem move_past {job : ℕ} (h : Move s l s') (hp : Past s'.next (calls s') job) :
    Past s.next (calls s) job ∨ entry s l = some job := by
  cases h with
  | register | join | shutdown | store | controlRing | joinWorker => exact .inl hp
  | @client c opts hc =>
    exact hp.step (calls_setClient rfl rfl) (.inr ⟨rfl, rfl⟩)
      (.inl (by simp [calls, approaching, hc, entering]))
  | @clientStep c call call' s₁ hc hsub =>
    obtain ⟨hw, hcl, -, -, hnext, -⟩ := hsub.frame
    refine hp.step (calls_setClient (congrArg (Function.update · c _) hcl) hw) (.inl hnext)
      (.inr (.inr ?_))
    simp [calls, approaching, entry]
  | @nested w opts id job hw =>
    refine hp.step (calls_setWorker w (.body id job (some (.count s.next opts))) rfl rfl)
      (.inr ⟨rfl, rfl⟩) (.inl ?_)
    simp [calls, approaching, hw, WorkerPc.call, entering]
  | @nestedStep w id job call call' s₁ hw hsub =>
    obtain ⟨hwk, hcl, -, -, hnext, -⟩ := hsub.frame
    refine hp.step (calls_setWorker w (.body id job call')
      (congrArg (Function.update · w _) hwk) hcl) (.inl hnext) (.inr (.inr ?_))
    simp [calls, approaching, entry]
  | finish hw | take hw | current hw | noJob hw | deliver hw | uncount hw | ring hw | account hw
  | flag hw | noFlag hw | noPending hw | pending hw | wake hw =>
    exact past_quiet hp rfl rfl rfl (by rw [hw]; rfl)

omit [DecidableEq ω] in
theorem unfiled_entering {call : Option (SubmitPc ℚ)} {job : ℕ} (h : entering call = some job) :
    unfiled (only job) call = 1 := by
  unfold entering at h
  split at h
  · obtain rfl := Option.some.inj h
    exact only_self
  · exact absurd h (by simp)

variable [Fintype ω]

omit [DecidableEq ω] in
theorem started_past (ha : Account s) {job : ℕ} (hjob : job ∈ started s) :
    Past s.next (calls s) job := by
  have hjobs := ha.jobs (only job)
  have hmem : job ∈ s.enqueued.map Prod.snd := by
    obtain ⟨x, hx, rfl⟩ := List.mem_map.mp hjob
    exact List.mem_map_of_mem (ha.dispatched_subperm.subset hx)
  have hpos := mass_only_pos hmem
  rw [mass_only_range, State.unfiled] at hjobs
  split_ifs at hjobs with hlt
  · refine ⟨hlt, fun t ht => ?_⟩
    rcases t with w | c
    · have hle := le_sum (fun w => unfiled (only job) (s.worker w).call) w
      have hone := unfiled_entering ht
      omega
    · have hle := le_sum (fun c => unfiled (only job) (s.client c)) c
      have hone := unfiled_entering ht
      omega
  · omega

theorem bodies_running (ha : Account s) (μ : ℕ → ℕ) : mass μ (started s) =
    mass μ s.finished + ∑ w, mass μ ((fair N ω).running s w).toList := by
  refine (ha.bodies μ).trans ?_
  refine congrArg (mass μ s.finished + ·) (Finset.sum_congr rfl fun w _ => ?_)
  show (s.worker w).running μ = mass μ (running (s.worker w)).toList
  cases s.worker w <;> rfl

/-- `FairScheduler` keeps the laws. -/
def laws (N : ℕ) (ω : Type) [Fintype ω] [DecidableEq ω] : Laws (fair N ω) where
  Entered s := Past s.next (calls s)
  started := started
  init {s} h := by
    have h : construct ℚ N ω = some s := h
    unfold construct at h
    split_ifs at h
    obtain rfl := Option.some.inj h
    exact ⟨fun job hp => absurd hp.1 (Nat.not_lt_zero _), fun _ => rfl⟩
  bodyStep_finish _ := rfl
  entered _ hst _ hp := move_past (step_move hst) hp
  turn _ hst := move_turn (step_move hst)
  started_entered hr _ := started_past (reachable_account hr)
  started_nodup hr := (reachable_account hr).dispatched_nodup
  running_started hr _ _ := mem_of_held (bodies_running (reachable_account hr))
  running_inj hr _ _ _ :=
    held_inj (bodies_running (reachable_account hr)) (reachable_account hr).dispatched_nodup

end Fair

end Wss.Spawn
