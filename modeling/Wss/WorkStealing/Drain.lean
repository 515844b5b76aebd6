import Wss.WorkStealing.Account

/-!
# `WorkStealingScheduler` drains before it stops

`Clean` is what a caller owes `shutdown`: no thread outside the pool is inside `submit` when
`shutdown` is called, and none calls it later. In the runs where this holds, a worker that has seen
the flag and then `pending == 0` has seen the end: a pending job is all that could submit another
one.

Results:
* `reachable_drain`: a worker that has left has seen the end.
* `exactly_once_and_drained`: no job is started twice, and when `shutdown` has returned every job
  has run and every queue is empty.
-/

namespace Wss.WorkStealing

open Wss.Lib ChaseLev ChaseLev.Atomic

variable {N : ℕ} {ω : Type}

/-- No thread outside the pool is inside `submit` at the call of `shutdown` or later. -/
def Clean (s : State N ω) : Label N ω → Prop
  | .client _ _ => s.control = .idle
  | .shutdown => ∀ c, s.client c = none
  | _ => True

instance [Fintype ω] (s : State N ω) (l : Label N ω) : Decidable (Clean s l) := by
  cases l <;> unfold Clean <;> infer_instance

/-- What `shutdown` depends on. -/
def State.pool (s : State N ω) : Pool N where
  control := s.control
  shutdownFlag := s.shutdownFlag
  pending := s.pending
  checking w := ∃ gen, s.worker w = .loadPending gen
  exited w := s.worker w = .exited
  outside := ∃ c, s.client c ≠ none

variable {s s' : State N ω} {w : Fin N} {pc : WorkerPc N}

/-- A step of worker `w` that leaves `pending` at `0` if it is there. -/
theorem drain_worker (hd : Drain s.pool) (hw : s'.worker = Function.update s.worker w pc)
    (hcon : s'.control = s.control) (hcl : s'.client = s.client)
    (hflag : s'.shutdownFlag = s.shutdownFlag)
    (hpending : s.shutdownFlag = true → s.pending = 0 → s'.pending = 0)
    (hleft : s.worker w ≠ .exited)
    (hcheck : ∀ gen, pc = .loadPending gen → s.shutdownFlag = true)
    (hexit : pc = .exited → s.shutdownFlag = true ∧ s.pending = 0) : Drain s'.pool := by
  have hself : s'.worker w = pc := by rw [hw, Function.update_self]
  have hother : ∀ u, u ≠ w → s'.worker u = s.worker u := fun u hu => by
    rw [hw, Function.update_of_ne hu]
  refine hd.worker (w := w) hcon hflag (fun ⟨c, hc⟩ => ⟨c, hcl ▸ hc⟩) hpending hleft
    (fun u hu => ⟨fun ⟨gen, h⟩ => ⟨gen, hother u hu ▸ h⟩, ?_⟩) (fun ⟨gen, h⟩ => ?_) fun h => ?_
  · show s'.worker u = .exited ↔ s.worker u = .exited
    rw [hother u hu]
  · exact hcheck gen (hself.symm.trans h)
  · exact hexit (hself.symm.trans h)

variable [Fintype ω] [DecidableEq ω] {l : Label N ω}

omit [DecidableEq ω] in
/-- A running job is pending. -/
theorem Account.pending_pos (ha : Account s) (hb : (s.worker w).busy = 1) : 0 < s.pending := by
  have h1 := ha.pending
  have h2 := le_sum (fun w => (s.worker w).busy) w
  simp only [hb] at h2
  omega

/-- **Every step of a clean run keeps `Drain`.** -/
theorem Move.drain (ha : Account s) (hd : Drain s.pool) (hok : Clean s l) (h : Move s l s') :
    Drain s'.pool := by
  cases h with
  | current hw | ownDone hw | injectDone hw | injectNone hw | stealDone hw | noFlag hw | pending hw
  | wake hw | ring hw | popNone hw | popJob hw | injectJob hw | stealNone hw | stealJob hw
  | nested hw | finish hw =>
    exact drain_worker hd rfl rfl rfl rfl (fun _ h => h) (by simp [hw]) (by simp) (by simp)
  | @pop w _ _ _ _ hw | @steal w _ _ _ _ _ hw _ _ _ =>
    refine drain_worker hd (w := w) (Function.update_eq_self w s.worker).symm rfl rfl rfl
      (fun _ h => h) (by simp [hw]) (fun gen h => ?_) fun h => ?_
    all_goals exact absurd (hw.symm.trans h) (by simp)
  | flag hw hf =>
    exact drain_worker hd rfl rfl rfl rfl (fun _ h => h) (by simp [hw]) (fun _ _ => hf) (by simp)
  | noPending hw hp =>
    exact drain_worker hd rfl rfl rfl rfl (fun _ h => h) (by simp [hw]) (by simp)
      fun _ => ⟨hd.checked _ ⟨_, hw⟩, hp⟩
  | uncount hw =>
    exact drain_worker hd rfl rfl rfl rfl
      (fun _ (h : s.pending = 0) => by show s.pending - 1 = 0; omega) (by simp [hw]) (by simp)
      (by simp)
  | @nestedStep w job call hw =>
    -- a job that runs is pending
    have hpos := ha.pending_pos (w := w) (by rw [hw]; rfl)
    refine drain_worker hd (congrArg (Function.update · w _) (stepSubmit_frame s call).2.2) ?_ ?_ ?_
      (fun _ h => by omega) (by simp [hw]) (by simp) (by simp) <;> cases call <;> rfl
  | client => exact hd.early hok rfl rfl (fun _ h => h) fun _ h => h
  | @clientStep c call hc =>
    -- `shutdown` has not been called
    have hidle : s.control = .idle := by
      by_contra h
      exact hd.clients h ⟨c, by simp [hc]⟩
    cases call <;> exact hd.early hidle rfl rfl (fun _ h => h) fun _ h => h
  | shutdown => exact hd.shutdown fun ⟨c, hc⟩ => hc (hok c)
  | store hc => exact hd.store hc
  | controlRing hc => exact hd.ring hc
  | join hk hc hw => exact hd.join hk hc hw

omit [Fintype ω] [DecidableEq ω] in
theorem construct_drain (h : construct N ω = some s) : Drain s.pool := by
  unfold construct at h
  split at h
  · exact absurd h (by simp)
  · rename_i hN
    obtain ⟨d, -, rfl⟩ := Option.map_eq_some_iff.mp h
    exact
      { workers := hN
        clients := fun h => absurd rfl h
        flag := fun h => absurd h (by simp [State.pool])
        checked := fun _ h => absurd h (by simp [State.pool])
        drained := fun _ h => absurd h (by simp [State.pool])
        joined := fun _ h => absurd h (by simp [State.pool])
        returned := fun h => absurd h (by simp [State.pool]) }

theorem reachable_drain (h : (machine N ω).ReachableUnder Clean s) : Drain s.pool :=
  h.invariant (I := fun s => Drain s.pool) (fun _ => construct_drain)
    fun _ _ _ hr hok hst hd => (step_move (reachable_linked hr.reachable) hst).drain
      (reachable_account hr.reachable) hd hok

/-! ## Nothing is left -/

section Empty

variable {μ : ℕ → ℕ}

omit [Fintype ω] [DecidableEq ω]

/-- Where every job would weigh `1` and there is no weight, no other weight finds a job. -/
theorem queued_le (h : ∀ x, μ x ≤ 1) (s : State N ω) : queued μ s ≤ queued (fun _ => 1) s :=
  Nat.add_le_add (Finset.sum_le_sum fun _ _ => mass_le h)
    (Finset.sum_le_sum fun _ _ => Finset.sum_le_sum fun _ _ => dequeMass_mono h _)

/-- A deque without items is empty, in the slots too. -/
theorem remaining_of_items {d : ChaseLev.State (Fin N) ℕ} (hi : ChaseLev.Inv d)
    (h : (toAtomic d).items = []) : remaining d = [] := by
  have hlen := length_items hi
  have hnil : items d = [] := h
  rw [hnil] at hlen
  have := hi.bottom_near
  exact slice_eq_nil (by simp only [List.length_nil] at hlen; omega)

theorem remaining_of_mass {d : ChaseLev.State (Fin N) ℕ} (hi : ChaseLev.Inv d)
    (h : dequeMass (fun _ => 1) (toAtomic d) = 0) : remaining d = [] := by
  refine remaining_of_items hi (eq_nil_of_mass ?_)
  unfold dequeMass at h
  omega

end Empty

/-- **`WorkStealingScheduler` runs every job exactly once and drains before it stops.** In every
reachable state no job has been started twice. In a clean run, when `shutdown` has returned, every
job `submit` was called with has been started and finished once, `pending` is `0`, and every
injector and every deque is empty. -/
theorem exactly_once_and_drained (h : (machine N ω).Reachable s) : s.started.Nodup ∧
    ((machine N ω).ReachableUnder Clean s → s.control = .returned →
      (∀ job < s.next, s.started.count job = 1 ∧ s.finished.count job = 1) ∧ s.pending = 0 ∧
      (∀ p, s.injector p = []) ∧ ∀ v p, remaining (s.deque v p) = []) := by
  have ha := reachable_account h
  refine ⟨started_nodup ha, fun hclean hret => ?_⟩
  have hd := reachable_drain hclean
  have hexit : ∀ w, s.worker w = .exited := hd.returned hret
  have hpending : s.pending = 0 := hd.pending_zero hret
  have hq : queued (fun _ => 1) s = 0 := by
    have := ha.pending
    omega
  have hinj : ∀ p, mass (fun _ => 1) (s.injector p) = 0 := fun p => by
    have := le_sum (fun p => mass (fun _ => 1) (s.injector p)) p
    unfold queued at hq
    omega
  have hdeq : ∀ v p, dequeMass (fun _ => 1) (s.adeque v p) = 0 := fun v p => by
    have h1 := le_sum (fun p => dequeMass (fun _ => 1) (s.adeque v p)) p
    have h2 := le_sum (fun v => ∑ p, dequeMass (fun _ => 1) (s.adeque v p)) v
    unfold queued at hq
    omega
  refine ⟨fun job hjob => ?_, hpending, fun p => eq_nil_of_mass (hinj p), fun v p =>
    remaining_of_mass ((reachable_linked h).sound v p) (hdeq v p)⟩
  have hone : ∀ x, only job x ≤ 1 := fun x => by
    unfold only
    split_ifs <;> omega
  have h1 := ha.jobs (only job)
  have h2 := ha.bodies (only job)
  have h3 := queued_le hone s
  have hun : unpushed (only job) s = 0 := by
    have hcl : ∀ c, s.client c = none := fun c => by
      by_contra hc
      exact hd.clients (by simp [State.pool, hret]) ⟨c, hc⟩
    simp [unpushed, hcl, hexit, callMass, WorkerPc.call]
  have hrun : ∑ w, (s.worker w).running (only job) = 0 := by
    simp [hexit, WorkerPc.running]
  rw [mass_only_range, if_pos hjob, mass_only] at h1
  rw [mass_only, mass_only] at h2
  omega

/-- Worker `0` takes three jobs from the injector and starts the first, worker `1` steals the
second. The first job submits a fourth at high priority and returns. Worker `0` pops the third from
its own deque and worker `1` takes the fourth from the injector; when both have returned, `shutdown`
is called and the workers leave. A `pop` on an empty deque takes `7` steps. -/
def stealThenDrain : List (Label 2 Unit) :=
  let one : Fin 2 := ⟨0, Nat.two_pos⟩
  let other : Fin 2 := ⟨1, Nat.one_lt_two⟩
  let submit : List (Label 2 Unit) := .client () .normal :: List.replicate 4 (.clientStep ())
  let leave := 1 + (3 * 7 + 1) + (3 + 1) + (3 * 4 + 1) + 2
  List.flatten [submit, submit, submit, List.replicate (1 + (3 * 7 + 1) + 2) (.worker one),
    List.replicate (1 + (3 * 7 + 1) + (3 + 1) + (4 + 7)) (.worker other),
    [.nested one .high], List.replicate 4 (.worker one),
    [.finish one, .worker one, .worker one], List.replicate (1 + 7 + 9) (.worker one),
    [.finish other, .worker other, .worker other],
    List.replicate (1 + (3 * 7 + 1) + 1) (.worker other),
    [.finish one, .worker one, .worker one, .finish other, .worker other, .worker other],
    [.shutdown, .control, .control], List.replicate leave (.worker one),
    List.replicate leave (.worker other), [.control, .control]]

theorem exactly_once_and_drained_two : ∃ s : State 2 Unit,
    (machine 2 Unit).ReachableUnder Clean s ∧ s.control = .returned ∧ s.next = 4 ∧
      s.winners 0 .normal = [1, 0] ∧ s.started.Nodup ∧
      (∀ job < 4, s.started.count job = 1 ∧ s.finished.count job = 1) ∧ s.pending = 0 ∧
      (∀ p, s.injector p = []) ∧ ∀ v p, remaining (s.deque v p) = [] := by
  let s₀ : State 2 Unit := (construct 2 Unit).get (by decide)
  have h₀ : construct 2 Unit = some s₀ := (Option.some_get _).symm
  let s := ((machine 2 Unit).execUnder Clean s₀ stealThenDrain).get (by decide +kernel)
  have hex : (machine 2 Unit).execUnder Clean s₀ stealThenDrain = some s := (Option.some_get _).symm
  have hclean : (machine 2 Unit).ReachableUnder Clean s :=
    ⟨stealThenDrain, s₀, h₀, Machine.execUnder_path hex⟩
  have hret : s.control = .returned := by decide +kernel
  have hnext : s.next = 4 := by decide +kernel
  -- worker `1` won the compare-and-swap for the first job in the deque of worker `0`
  have hsteal : s.winners 0 .normal = [1, 0] := by decide +kernel
  obtain ⟨honce, hdrained⟩ := exactly_once_and_drained hclean.reachable
  obtain ⟨hjobs, hpending, hinj, hdeq⟩ := hdrained hclean hret
  exact ⟨s, hclean, hret, hnext, hsteal, honce, fun job h => hjobs job (hnext ▸ h), hpending, hinj,
    hdeq⟩

end Wss.WorkStealing
