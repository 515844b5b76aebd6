import Wss.Lib.Rank
import Wss.Monitor.Supply
import Wss.Monitor.ThreadPerCore

/-!
# Left alone, the backends on condition variables come to rest

Let nobody call `submit` or `shutdown` any more, let every running body return, and let no worker be
woken spuriously. Then the threads have only so many steps left (`stepsLeft`), whoever takes them
and whomever a `notify_one` wakes, and what is left where nobody can move is known, for every lawful
`Layout`:

* no mutex is held and every worker is in a wait set or has left, so there is no deadlock between
  the cores;
* if no job was pushed to a core whose workers have left, every job has run once and the queues are
  empty, also where `shutdown` was not called or has not returned;
* `shutdown` has returned, or it waits for a worker that its `notify_all` has missed. This does not
  happen in the runs that are `Settled`.

A round of `worker_loop` without a job is `4` steps to the wait set, and there is one for each
worker that a notification wakes.

Results:
* `Move.left`: every step that begins no call leaves less to do.
* `stopped_free`: whoever has a mutex can move.
* `left_alone_rests`: the above.
-/

namespace Wss.Monitor

open Wss.Lib

variable {N K : ℕ} {Q ω : Type}

/-- A step that begins no call and is not a spurious wake-up. -/
def Inner (_ : State N K Q ω) : Label N ω → Prop
  | .client _ _ | .nested _ _ | .spurious _ | .shutdown => False
  | .clientStep _ _ | .finish _ | .worker _ _ | .control => True

/-! ## The steps left -/

/-- The steps a call of `submit` has left, those of the worker it wakes included. -/
def callLeft : Option (SubmitPc K) → ℕ
  | some (.ticket _ _) => 10
  | some (.lock _ _ _) => 9
  | some (.push _ _ _) => 8
  | some (.unlock _ _) => 7
  | some (.notify _ _) => 6
  | some (.done _) => 1
  | none => 0

/-- The steps a worker has left until it sleeps, if it is not woken. -/
def WorkerPc.left : WorkerPc K → ℕ
  | .unlock _ => 6
  | .body _ call => callLeft call + 5
  | .lock => 4
  | .search => 3
  | .loadFlag => 2
  | .wait | .leave => 1
  | .waiting | .exited => 0

/-- The steps `shutdown` has left, those of the workers it wakes included. -/
def ControlPc.left (N K : ℕ) : ControlPc → ℕ
  | .store => K * (4 * N + 1) + N + 1
  | .notify k => (K - k) * (4 * N + 1) + N
  | .join k => N - k
  | .idle | .returned => 0

theorem joinNext_left (k : ℕ) : (joinNext N k).left N K = N - k := by
  unfold joinNext
  split_ifs with h
  · rfl
  · show 0 = N - k
    omega

theorem notifyNext_left (k : ℕ) : (notifyNext N K k).left N K = (K - k) * (4 * N + 1) + N := by
  unfold notifyNext
  split_ifs with h
  · rfl
  · rw [joinNext_left, Nat.sub_eq_zero_of_le (Nat.le_of_not_lt h), Nat.zero_mul, Nat.zero_add,
      Nat.sub_zero]

/-- The jobs that no worker has taken. -/
def untaken (s : State N K Q ω) : ℕ := s.submitted.length - (dequeued s.log).length

/-- The steps left. -/
def stepsLeft [Fintype ω] (s : State N K Q ω) : ℕ :=
  4 * untaken s + s.control.left N K + ∑ c, callLeft (s.client c) + ∑ w, (s.worker w).left

/-! ## One step -/

section Steps

variable {L : Layout N K Q} {items : Q → List ℕ} {s s' s₁ : State N K Q ω} {w : Fin N}
  {pc : WorkerPc K} {t : Thread N ω} {call : SubmitPc K} {call' : Option (SubmitPc K)}

/-- What a step of `submit` has left, if it wakes a worker or not. -/
theorem Submitting.left (h : Submitting L s t call s' call') :
    ∑ w, (s'.worker w).left + callLeft call' + 1 ≤ ∑ w, (s.worker w).left + callLeft (some call) ∧
      untaken s' = untaken s := by
  cases h with
  | ticket | lock | unlock | done | notifyNone =>
    refine ⟨?_, rfl⟩
    simp only [callLeft, State.setHolder]
    omega
  | push =>
    refine ⟨?_, ?_⟩
    · simp only [callLeft, State.setQueues]
      omega
    · unfold untaken
      simp [State.setQueues, dequeued, Event.dequeued]
  | @notify job k w hk hw =>
    refine ⟨?_, rfl⟩
    have hsum := sum_update WorkerPc.left s.worker w .lock
    rw [hw] at hsum
    change _ + 0 = _ + 4 at hsum
    simp only [callLeft, State.setWorker]
    omega

variable [Fintype ω]

/-- A step of worker `w` that takes `a` jobs. -/
theorem stepsLeft_worker (hw : s'.worker = Function.update s.worker w pc)
    (hcl : s'.client = s.client) (hcon : s'.control = s.control) {a : ℕ}
    (htaken : untaken s' + a = untaken s) (hlt : pc.left < (s.worker w).left + 4 * a) :
    stepsLeft s' < stepsLeft s := by
  have hsum := sum_update WorkerPc.left s.worker w pc
  rw [← hw] at hsum
  unfold stepsLeft
  rw [hcl, hcon]
  omega

theorem Account.dequeued_le [DecidableEq ω] (ha : Account s) (hr : Replay L items s) :
    (dequeued s.log).length ≤ s.submitted.length := by
  have h1 := ha.jobs fun _ => 1
  have h2 := hr.queued fun _ => 1
  rw [mass_one, mass_one, List.length_range] at *
  omega

/-- A step of a worker that takes no job. -/
theorem stepsLeft_quiet (hw : s'.worker = Function.update s.worker w pc)
    (hcl : s'.client = s.client) (hcon : s'.control = s.control)
    (hsub : s'.submitted = s.submitted) (hlog : s'.log = s.log)
    (hlt : pc.left < (s.worker w).left) : stepsLeft s' < stepsLeft s := by
  refine stepsLeft_worker (a := 0) hw hcl hcon ?_ hlt
  unfold untaken
  rw [hsub, hlog, Nat.add_zero]

/-- A step of `shutdown`. -/
theorem stepsLeft_control (hun : untaken s' = untaken s) (hcl : s'.client = s.client)
    (hlt : s'.control.left N K + ∑ w, (s'.worker w).left + 1 ≤
      s.control.left N K + ∑ w, (s.worker w).left) : stepsLeft s' < stepsLeft s := by
  unfold stepsLeft
  rw [hun, hcl]
  omega

omit [Fintype ω] in
/-- A `notify_all` wakes no more than the workers there are. -/
theorem sum_left_notifyAll (s : State N K Q ω) (k : Fin K) :
    ∑ w, ((notifyAll L s k).worker w).left ≤ ∑ w, (s.worker w).left + 4 * N := by
  have h := sum_le_add_card (f := fun w => (s.worker w).left)
    (g := fun w => ((notifyAll L s k).worker w).left) (c := 4) fun w => by
      rw [notifyAll_apply]
      split_ifs with hw
      · exact Nat.le_add_left 4 _
      · exact Nat.le_add_right _ 4
  rwa [Fintype.card_fin, Nat.mul_comm N 4] at h

variable [DecidableEq ω] {l : Label N ω}

/-- **Every step that begins no call leaves less to do.** -/
theorem Move.left (hok : Inner s l) (hle : (dequeued s'.log).length ≤ s'.submitted.length)
    (h : Move L s l s') : stepsLeft s' < stepsLeft s := by
  cases h with
  | client | nested | spurious | shutdown => exact absurd hok (by simp [Inner])
  | @clientStep c _ call call' s₁ hc hsub =>
    obtain ⟨hleft, htaken⟩ := hsub.left
    obtain ⟨-, hcl, hcon, -⟩ := hsub.frame
    have hsum := sum_update callLeft s.client c call'
    rw [hc] at hsum
    have hun : untaken { s₁ with client := Function.update s₁.client c call' } = untaken s := htaken
    unfold stepsLeft
    rw [hun]
    dsimp only
    rw [hcl, hcon]
    omega
  | @nestedStep w _ job call call' s₁ hpc hsub =>
    obtain ⟨hleft, htaken⟩ := hsub.left
    obtain ⟨hwk, hcl, hcon, -⟩ := hsub.frame
    have hself : s₁.worker w = .body job (some call) := by
      rcases hwk w with h | ⟨h, -⟩
      · exact h.trans hpc
      · exact absurd (h.symm.trans hpc) (by simp)
    have hsum := sum_update WorkerPc.left s₁.worker w (.body job call')
    rw [hself] at hsum
    change _ + (callLeft (some call) + 5) = _ + (callLeft call' + 5) at hsum
    have hun : untaken (s₁.setWorker w (.body job call')) = untaken s := htaken
    unfold stepsLeft
    rw [hun]
    dsimp only [State.setWorker]
    rw [hcl, hcon]
    omega
  | finish hpc | lock hpc | noJob hpc | flag hpc | noFlag hpc | wait hpc | unlock hpc | leave hpc =>
    refine stepsLeft_quiet rfl rfl rfl rfl rfl ?_
    rw [hpc]
    simp [WorkerPc.left, callLeft]
  | @take w _ job q hpc hpop =>
    refine stepsLeft_worker (a := 1) rfl rfl rfl ?_ ?_
    · have hlen : (dequeued (s.log ++ [(L.core w, Event.dequeue w job)])).length =
          (dequeued s.log).length + 1 := by simp [dequeued, Event.dequeued]
      change (dequeued (s.log ++ [(L.core w, Event.dequeue w job)])).length ≤ s.submitted.length
        at hle
      show s.submitted.length - (dequeued (s.log ++ [(L.core w, Event.dequeue w job)])).length + 1 =
        s.submitted.length - (dequeued s.log).length
      omega
    · rw [hpc]
      show 6 < 3 + 4 * 1
      omega
  | store hcon =>
    refine stepsLeft_control rfl rfl ?_
    rw [hcon, notifyNext_left, Nat.sub_zero]
    show _ ≤ K * (4 * N + 1) + N + 1 + _
    dsimp only
    omega
  | @notifyAll k hk hcon =>
    refine stepsLeft_control rfl rfl ?_
    have hsum := sum_left_notifyAll (L := L) s ⟨k, hk⟩
    have hmul : (K - k) * (4 * N + 1) = (K - (k + 1)) * (4 * N + 1) + (4 * N + 1) := by
      rw [← Nat.succ_mul]
      congr 1
      omega
    rw [hcon, notifyNext_left]
    show _ ≤ (K - k) * (4 * N + 1) + N + _
    dsimp only
    omega
  | @join k hk hcon =>
    refine stepsLeft_control rfl rfl ?_
    rw [hcon, joinNext_left]
    show _ ≤ N - k + _
    dsimp only
    omega

theorem inner_ranked (hL : L.Lawful items) :
    (machine L ω).Ranked (machine L ω).Reachable Inner stepsLeft where
  keep hr _ hst := hr.next hst
  pay hr hok hst := Nat.succ_le_of_lt ((step_move hst).left hok
    ((reachable_account (hr.next hst)).dequeued_le (reachable_replay hL (hr.next hst))))

/-! ## Where no step is left -/

omit [Fintype ω] [DecidableEq ω] in
/-- A call of `submit` that cannot go on waits for a mutex. -/
theorem stepSubmit_stuck (h : ∀ wakes, stepSubmit L s t wakes call = none) :
    call.holds = none ∧ ∃ k u, s.holder k = some u := by
  cases call with
  | lock job k p =>
    have hnone := h none
    rw [stepSubmit, Option.map_eq_none_iff] at hnone
    unfold State.acquire at hnone
    split at hnone
    · exact absurd hnone (by simp)
    · exact ⟨rfl, k, _, ‹_›⟩
  | notify job k =>
    -- a worker that waits is there to be woken
    by_cases hw : ∃ w, L.core w = k ∧ s.worker w = .waiting
    · obtain ⟨w, hw⟩ := hw
      have hnone := h (some w)
      simp [stepSubmit, notifyOne, hw] at hnone
    · have hnone := h none
      simp only [stepSubmit, notifyOne, if_neg hw] at hnone
      exact absurd hnone (by simp)
  | ticket | push | unlock | done => exact absurd (h none) (by simp [stepSubmit])

omit [Fintype ω] in
/-- A worker that cannot move waits for a mutex, sleeps or has left. -/
theorem stopped_worker (hstop : (machine L ω).Stopped Inner s) (w : Fin N) :
    s.worker w = .waiting ∨ s.worker w = .exited ∨
      (s.worker w).holds (L.core w) = none ∧ ∃ k u, s.holder k = some u := by
  have hnone : ∀ wakes, stepWorker L s w wakes = none := fun wakes =>
    hstop (.worker w wakes) trivial
  unfold stepWorker at hnone
  cases hpc : s.worker w with
  | waiting => exact .inl rfl
  | exited => exact .inr (.inl rfl)
  | lock =>
    have hnone := hnone none
    simp only [hpc, Option.map_eq_none_iff] at hnone
    unfold State.acquire at hnone
    split at hnone
    · exact absurd hnone (by simp)
    · exact .inr (.inr ⟨rfl, _, _, ‹_›⟩)
  | body job call =>
    cases call with
    | none =>
      have hfinish : step L s (.finish w) = none := hstop (.finish w) trivial
      simp [step, hpc] at hfinish
    | some call =>
      simp only [hpc, Option.map_eq_none_iff] at hnone
      exact .inr (.inr (stepSubmit_stuck hnone))
  | search =>
    have hnone := hnone none
    simp only [hpc] at hnone
    split at hnone <;> exact absurd hnone (by simp)
  | loadFlag | wait | unlock | leave =>
    have hnone := hnone none
    simp [hpc] at hnone

omit [Fintype ω] in
theorem stopped_client (hstop : (machine L ω).Stopped Inner s) {c : ω}
    (hc : s.client c = some call) : call.holds = none ∧ ∃ k u, s.holder k = some u := by
  refine stepSubmit_stuck (L := L) (t := .inr c) fun wakes => ?_
  have hnone : step L s (.clientStep c wakes) = none := hstop (.clientStep c wakes) trivial
  simp only [step, hc, Option.map_eq_none_iff] at hnone
  exact hnone

omit [Fintype ω] in
/-- **Whoever has a mutex can move.** -/
theorem stopped_free (hr : (machine L ω).Reachable s) (hstop : (machine L ω).Stopped Inner s)
    (k : Fin K) : s.holder k = none := by
  by_contra hne
  obtain ⟨t, ht⟩ := Option.ne_none_iff_exists'.mp hne
  have hholds := (reachable_owned hr k t).mp ht
  cases t with
  | inl w =>
    change (s.worker w).holds (L.core w) = some k at hholds
    rcases stopped_worker hstop w with h | h | ⟨h, -⟩
    · simp [h, WorkerPc.holds] at hholds
    · simp [h, WorkerPc.holds] at hholds
    · exact absurd (h.symm.trans hholds) (by simp)
  | inr c =>
    change (s.client c).bind SubmitPc.holds = some k at hholds
    obtain ⟨call, hc, hholds⟩ := Option.bind_eq_some_iff.mp hholds
    exact absurd ((stopped_client hstop hc).1.symm.trans hholds) (by simp)

/-- Nobody is on the way to a queue or to the end of a job. -/
structure Resting (s : State N K Q ω) : Prop where
  holder : ∀ k, s.holder k = none
  client : ∀ c, s.client c = none
  worker : ∀ w, s.worker w = .waiting ∨ s.worker w = .exited

omit [Fintype ω] in
theorem stopped_resting (hr : (machine L ω).Reachable s)
    (hstop : (machine L ω).Stopped Inner s) : Resting s := by
  have hfree := stopped_free hr hstop
  have hnot : ¬ ∃ k u, s.holder k = some u := by
    rintro ⟨k, u, hu⟩
    exact absurd ((hfree k).symm.trans hu) (by simp)
  refine ⟨hfree, fun c => ?_, fun w => ?_⟩
  · cases hc : s.client c with
    | none => rfl
    | some call => exact absurd (stopped_client hstop hc).2 hnot
  · rcases stopped_worker hstop w with h | h | ⟨-, h⟩
    · exact .inl h
    · exact .inr h
    · exact absurd h hnot

omit [Fintype ω] [DecidableEq ω] in
theorem Resting.idle (hq : Resting s) (w : Fin N) : (s.worker w).call = none ∧
    (s.worker w).taken = none ∧ (s.worker w).running = none ∧ (s.worker w).coming = false := by
  rcases hq.worker w with h | h <;> rw [h] <;> exact ⟨rfl, rfl, rfl, rfl⟩

omit [DecidableEq ω] in
/-- The queues of a core whose workers sleep or have left are empty. -/
theorem Resting.queues (hq : Resting s) (hL : L.Lawful items) (hcore : Function.Surjective L.core)
    (hd : Drained L s) {k : Fin K} (hs : SuppliedAt L items k s) : items (s.queues k) = [] := by
  by_cases hw : ∃ w, L.core w = k ∧ s.worker w = .waiting
  · have hle := hs.length_le_owed hw fun w _ => (hq.idle w).2.2.2
    have hcall : ∀ t, s.call t = none
      | .inl w => (hq.idle w).1
      | .inr c => hq.client c
    simpa [hcall] using hle
  · obtain ⟨w, rfl⟩ := hcore k
    refine hL.pop_none _ (hd.empty w fun u hu => ?_)
    exact (hq.worker u).resolve_left fun h => hw ⟨u, hu, h⟩

omit [DecidableEq ω] in
/-- Where the queues are empty too, every job has run once. -/
theorem Resting.all_run (hq : Resting s) (ha : Account s) (hr : Replay L items s)
    (hempty : ∀ k, items (s.queues k) = []) {job : ℕ} (hjob : job < s.submitted.length) :
    (s.started.map Prod.snd).count job = 1 ∧ (s.finished.map Prod.snd).count job = 1 := by
  have h1 := ha.jobs (only job)
  have h2 := hr.queued (only job)
  have h3 := ha.started (only job)
  have h4 := ha.finished (only job)
  simp only [State.unpushed, hq.client, (hq.idle _).1, unpushed_none, Finset.sum_const_zero] at h1
  simp only [hempty, mass_nil, Finset.sum_const_zero] at h2
  simp only [(hq.idle _).2.1, Option.toList_none, mass_nil, Finset.sum_const_zero] at h3
  simp only [(hq.idle _).2.2.1, Option.toList_none, mass_nil, Finset.sum_const_zero] at h4
  rw [mass_only_range, if_pos hjob] at h1
  simp only [mass_only] at h1 h2 h3 h4
  omega

/-- `shutdown` is at a core or a worker that there is. -/
def Aimed (s : State N K Q ω) : Prop :=
  (∀ k, s.control = .notify k → k < K) ∧ ∀ k, s.control = .join k → k < N

omit [Fintype ω] in
theorem Move.aimed (ha : Aimed s) (h : Move L s l s') : Aimed s' := by
  have hjoin : ∀ j k : ℕ, joinNext N j = .join k → k < N := by
    intro j k hj
    unfold joinNext at hj
    split_ifs at hj with hlt
    exact ControlPc.join.inj hj ▸ hlt
  have hnotify : ∀ j : ℕ, (∀ k, notifyNext N K j = .notify k → k < K) ∧
      ∀ k, notifyNext N K j = .join k → k < N := by
    intro j
    unfold notifyNext
    split_ifs with hlt
    · exact ⟨fun k hk => ControlPc.notify.inj hk ▸ hlt, fun k hk => absurd hk (by simp)⟩
    · refine ⟨fun k hk => ?_, hjoin 0⟩
      unfold joinNext at hk
      split_ifs at hk
  cases h with
  | shutdown => exact ⟨fun k hk => absurd hk (by simp), fun k hk => absurd hk (by simp)⟩
  | store => exact hnotify 0
  | notifyAll => exact hnotify _
  | @join j =>
    refine ⟨fun k hk => ?_, hjoin _⟩
    have hk : joinNext N (j + 1) = .notify k := hk
    unfold joinNext at hk
    split_ifs at hk
  | clientStep _ hsub | nestedStep _ hsub =>
    obtain ⟨-, -, hcon, -⟩ := hsub.frame
    exact ⟨fun k hk => ha.1 k (hcon.symm.trans hk), fun k hk => ha.2 k (hcon.symm.trans hk)⟩
  | _ => exact ha

omit [Fintype ω] in
theorem reachable_aimed (h : (machine L ω).Reachable s) : Aimed s := by
  refine h.invariant (I := Aimed) (fun s hs => ?_) fun _ _ _ _ _ hst ha => (step_move hst).aimed ha
  simp only [machine, construct] at hs
  split_ifs at hs
  obtain rfl := Option.some.inj hs
  exact ⟨fun k hk => absurd hk (by simp), fun k hk => absurd hk (by simp)⟩

omit [Fintype ω] in
/-- A `shutdown` that cannot go on waits for a worker that has not left. -/
theorem stopped_control (hr : (machine L ω).Reachable s) (hstop : (machine L ω).Stopped Inner s) :
    s.control = .idle ∨ s.control = .returned ∨
      ∃ w : Fin N, s.control = .join w ∧ s.worker w ≠ .exited := by
  have hnone : stepControl L s = none := hstop .control trivial
  have haimed := reachable_aimed hr
  unfold stepControl at hnone
  cases hcon : s.control with
  | idle => exact .inl rfl
  | returned => exact .inr (.inl rfl)
  | store => simp [hcon] at hnone
  | notify k => simp [hcon, haimed.1 k hcon] at hnone
  | join k =>
    have hk := haimed.2 k hcon
    refine .inr (.inr ⟨⟨k, hk⟩, rfl, fun hex => ?_⟩)
    simp [hcon, hk, hex] at hnone

/-- **Left alone, a backend on condition variables comes to rest.** From any reachable state, the
steps that begin no call are at most `stepsLeft` in number, in whatever order they are taken and
whatever they notify, if no worker is woken spuriously. Where none is left, no mutex is held, no
call of `submit` is in progress and every worker is in a wait set or has left. `shutdown`, if it was
called, has returned or waits for a worker in a wait set, and it has returned if the run was
`Settled`. If the run was `Clean` and every push was `Served`, every job has run once and the queues
are empty, with or without `shutdown`. -/
theorem left_alone_rests {t : State N K Q ω} {tr : List (Label N ω)} (hL : L.Lawful items)
    (hcore : Function.Surjective L.core) (hs : (machine L ω).Reachable s)
    (h : (machine L ω).Path Inner s tr t) :
    tr.length ≤ stepsLeft s ∧ (∃ tr' t', (machine L ω).Path Inner t tr' t' ∧
      (machine L ω).Stopped Inner t') ∧
    ((machine L ω).Stopped Inner t →
      ((∀ k, t.holder k = none) ∧ (∀ c, t.client c = none) ∧
        ∀ w, t.worker w = .waiting ∨ t.worker w = .exited) ∧
      (t.control = .idle ∨ t.control = .returned ∨
        ∃ w : Fin N, t.control = .join w ∧ t.worker w = .waiting) ∧
      ((machine L ω).ReachableUnder (Settled L) t → t.control = .idle ∨ t.control = .returned) ∧
      ((machine L ω).ReachableUnder (fun s l => Clean s l ∧ Served L s l) t →
        (∀ job < t.submitted.length, (t.started.map Prod.snd).count job = 1 ∧
          (t.finished.map Prod.snd).count job = 1) ∧ ∀ k, items (t.queues k) = [])) := by
  have hr : (machine L ω).Reachable t := hs.path (h.mono fun _ _ _ => trivial)
  refine ⟨(inner_ranked hL).length_le h hs, (inner_ranked hL).exists_stopped hr, fun hstop => ?_⟩
  have hq := stopped_resting hr hstop
  have hcontrol := stopped_control hr hstop
  refine ⟨⟨hq.holder, hq.client, hq.worker⟩, ?_, fun hsettled => ?_, fun hserved => ?_⟩
  · refine hcontrol.imp_right (Or.imp_right ?_)
    rintro ⟨w, hw, hex⟩
    exact ⟨w, hw, (hq.worker w).resolve_right hex⟩
  · rcases hcontrol with h | h | ⟨w, hw, hex⟩
    · exact .inl h
    · exact .inr h
    · -- the worker was told
      have hawake := ((reachable_told hsettled).awake w (by rw [hw]; trivial)).2
      exact absurd ((hq.worker w).resolve_right hex) hawake
  · have hempty : ∀ k, items (t.queues k) = [] := fun k =>
      hq.queues hL hcore (reachable_drained hserved) (reachable_suppliedAt hL hr k)
    exact ⟨fun job hjob => hq.all_run (reachable_account hr) (reachable_replay hL hr) hempty hjob,
      hempty⟩

end Steps

/-- The worker of a core runs the job of a call that has begun, and sleeps. -/
def runThenWait : List (Label 1 Unit) :=
  let w : Fin 1 := ⟨0, Nat.one_pos⟩
  List.replicate 5 (.clientStep () none) ++ List.replicate 3 (.worker w none) ++ [.finish w] ++
    List.replicate 4 (.worker w none)

theorem left_alone_rests_one : ∃ s t : State 1 1 CoreQueues Unit,
    (machine (threadPerCore 1) Unit).Reachable s ∧
      s.client () = some (.lock 0 ⟨0, Nat.one_pos⟩ .high) ∧
      (machine (threadPerCore 1) Unit).Path Inner s runThenWait t ∧
      runThenWait.length ≤ stepsLeft s ∧ (machine (threadPerCore 1) Unit).Stopped Inner t ∧
      (t.finished.map Prod.snd).count 0 = 1 ∧ coreItems (t.queues ⟨0, Nat.one_pos⟩) = [] := by
  let M := machine (threadPerCore 1) Unit
  let ok : State 1 1 CoreQueues Unit → Label 1 Unit → Prop := fun s l =>
    Clean s l ∧ Served (threadPerCore 1) s l
  let s₀ : State 1 1 CoreQueues Unit := (construct (threadPerCore 1) Unit).get (by decide)
  let s := (M.execUnder ok s₀ [.client () ⟨.high, some 0⟩]).get (by decide +kernel)
  let t := (M.execUnder ok s runThenWait).get (by decide +kernel)
  have hs : M.ReachableUnder ok s :=
    ⟨_, s₀, (Option.some_get _).symm, Machine.execUnder_path (Option.some_get _).symm⟩
  have hserved : M.Path ok s runThenWait t := Machine.execUnder_path (Option.some_get _).symm
  have hinner : ∀ l ∈ runThenWait, Inner s l := by
    intro l hl
    simp only [runThenWait, List.mem_append, List.mem_replicate, List.mem_singleton] at hl
    rcases hl with ((⟨-, rfl⟩ | ⟨-, rfl⟩) | rfl) | ⟨-, rfl⟩ <;> trivial
  have hp : M.Path Inner s runThenWait t := hserved.mem.mono fun _ l h => hinner l h.2
  have hstop : M.Stopped Inner t := by
    have hasleep : ∀ w : Fin 1, t.worker w = .waiting := fun w => by
      rw [Subsingleton.elim w ⟨0, Nat.one_pos⟩]
      rfl
    have hclient : t.client () = none := rfl
    have hcontrol : t.control = .idle := rfl
    clear_value t
    intro l hl
    cases l with
    | client | nested | spurious | shutdown => exact absurd hl (by simp [Inner])
    | clientStep c wakes => simp [M, machine, step, hclient]
    | control => simp [M, machine, step, stepControl, hcontrol]
    | worker w wakes => simp [M, machine, step, stepWorker, hasleep w]
    | finish w => simp [M, machine, step, hasleep w]
  obtain ⟨hlen, -, hrest⟩ :=
    left_alone_rests (threadPerCore_lawful 1) Function.surjective_id hs.reachable hp
  obtain ⟨hjobs, hempty⟩ := (hrest hstop).2.2.2 (hs.path hserved)
  exact ⟨s, t, hs.reachable, rfl, hp, hlen, hstop, (hjobs 0 (by decide +kernel)).2, hempty _⟩

end Wss.Monitor
