import Wss.WorkStealing.Sleep
import Wss.WorkStealing.Own
import Wss.WorkStealing.Drain
import Mathlib.Algebra.Order.Ring.Nat

/-!
# `WorkStealingScheduler` has no stuck state

One worker may sleep over work of another (`Sleep.lean`). All of them together do not: where every
worker that has not left sleeps, each has left nothing in its own deques (`Own.lean`), and no
injector holds a job whose `submit` has notified. After `shutdown` has notified, they would have
been told (`Shutdown.lean`) that `pending` is `0`.

Results:
* `reachable_warned`: every worker is, once `shutdown` has notified.
* `no_stuck_state`: so where all sleep nothing is left to do, and `shutdown` waits for none of them.
-/

namespace Wss.WorkStealing

open Wss.Lib ChaseLev ChaseLev.Atomic

variable {N : ℕ} {ω : Type}

/-- `idle`, as the workers use it. -/
def idling (N : ℕ) : Idling (WorkerPc N) where
  snapshot := WorkerPc.snapshot
  asleep
    | .wait gen => some gen
    | _ => none
  finishing pc := pc = .ring
  snapshot_of_asleep {pc _} h := by
    cases pc <;> first | exact h | exact absurd h (by simp)

/-- What the workers know of the calls of `shutdown`. -/
structure Warned (s : State N ω) : Prop where
  fresh : Fresh s.gen fun w => (s.worker w).snapshot
  flag : s.control = .ring → s.shutdownFlag = true
  told : (∃ k, s.control = .join k) ∨ s.control = .returned →
    Told (idling N) s.gen s.shutdownFlag s.pending s.worker

variable {s s' : State N ω} {w v : Fin N} {p : Priority} {pc : WorkerPc N}

/-- A notification. -/
theorem Warned.ring (hs : Warned s) (hgen : s'.gen = s.gen + 1)
    (hcon : s'.control = s.control) (hflag : s'.shutdownFlag = s.shutdownFlag)
    (hw : ∀ u g, (s'.worker u).snapshot = some g → (s.worker u).snapshot = some g) : Warned s' where
  fresh := by
    rw [hgen]
    exact hs.fresh.mono (Nat.le_succ _) fun u g hg => .inl (hw u g hg)
  flag h := hflag.trans (hs.flag (hcon ▸ h))
  told h := by
    rw [hcon] at h
    rw [hgen, hflag]
    exact .ring hs.fresh (hs.told h).flag hw

/-- A step of worker `w` that does not notify. -/
theorem Warned.worker (hs : Warned s) (hgen : s'.gen = s.gen) (hcon : s'.control = s.control)
    (hflag : s'.shutdownFlag = s.shutdownFlag) (hw : s'.worker = Function.update s.worker w pc)
    (hfresh : ∀ g, pc.snapshot = some g → (s.worker w).snapshot = some g ∨ g ≤ s.gen)
    (hpending : s.pending ≠ 0 → s'.pending ≠ 0 ∨ pc = .ring) (hfin : s.worker w ≠ .ring)
    (hasleep : s.shutdownFlag = true → (idling N).asleep pc = some s.gen → s'.pending ≠ 0) :
    Warned s' where
  fresh := by
    rw [hgen, hw]
    exact hs.fresh.update le_rfl hfresh
  flag h := hflag.trans (hs.flag (hcon ▸ h))
  told h := by
    rw [hcon] at h
    have ht := hs.told h
    rw [hgen, hflag, hw]
    exact ht.update hpending hfin fun h => .inr (hasleep ht.flag h)

/-- Such a step that neither ends a job nor goes to sleep. -/
theorem Warned.quiet (hs : Warned s) (hgen : s'.gen = s.gen) (hcon : s'.control = s.control)
    (hflag : s'.shutdownFlag = s.shutdownFlag) (hp : s.pending ≠ 0 → s'.pending ≠ 0)
    (hw : s'.worker = Function.update s.worker w pc)
    (hfresh : ∀ g, pc.snapshot = some g → (s.worker w).snapshot = some g)
    (hfin : s.worker w ≠ .ring)
    (hasleep : (idling N).asleep pc = none) : Warned s' :=
  hs.worker hgen hcon hflag hw (fun g h => .inl (hfresh g h)) (fun h => .inl (hp h)) hfin
    fun _ h => absurd (hasleep.symm.trans h) (by simp)

/-- A step outside the pool that is none of `shutdown` and does not notify. -/
theorem Warned.outside (hs : Warned s) (hgen : s'.gen = s.gen) (hcon : s'.control = s.control)
    (hflag : s'.shutdownFlag = s.shutdownFlag) (hw : s'.worker = s.worker)
    (hpending : s.pending ≠ 0 → s'.pending ≠ 0) : Warned s' where
  fresh := by
    rw [hgen, hw]
    exact hs.fresh
  flag h := hflag.trans (hs.flag (hcon ▸ h))
  told h := by
    rw [hcon] at h
    rw [hgen, hflag, hw]
    exact (hs.told h).outside hpending

/-- What a step of `submit` does to what the workers wait for. -/
theorem stepSubmit_signal (s : State N ω) (call : SubmitPc) :
    ((stepSubmit s call).1.gen = s.gen + 1 ∨ (stepSubmit s call).1.gen = s.gen) ∧
      (stepSubmit s call).1.control = s.control ∧
      (stepSubmit s call).1.shutdownFlag = s.shutdownFlag ∧
      (s.pending ≠ 0 → (stepSubmit s call).1.pending ≠ 0) := by
  cases call with
  | count => exact ⟨.inr rfl, rfl, rfl, fun _ => Nat.succ_ne_zero _⟩
  | push | done => exact ⟨.inr rfl, rfl, rfl, id⟩
  | ring => exact ⟨.inl rfl, rfl, rfl, id⟩

section Moves

variable [DecidableEq ω] {l : Label N ω}

/-- **Every step leaves the workers warned.** -/
theorem Move.warned (hs : Warned s) (h : Move s l s') : Warned s' := by
  cases h with
  | client => exact hs.outside rfl rfl rfl rfl id
  | @clientStep c call hc =>
    obtain ⟨hgen, hcon, hflag, hpending⟩ := stepSubmit_signal s call
    have hw := (stepSubmit_frame s call).2.2
    rcases hgen with hgen | hgen
    · exact hs.ring hgen hcon hflag fun u g hg => hw ▸ hg
    · exact hs.outside hgen hcon hflag hw hpending
  | @nestedStep w job call hw =>
    obtain ⟨hgen, hcon, hflag, hpending⟩ := stepSubmit_signal s call
    have hself : ((stepSubmit s call).1.setWorker w (.body job (stepSubmit s call).2)).worker =
        Function.update s.worker w (.body job (stepSubmit s call).2) :=
      congrArg (Function.update · w _) (stepSubmit_frame s call).2.2
    rcases hgen with hgen | hgen
    · exact hs.ring hgen hcon hflag fun u g hg =>
        snap_of_update (f := WorkerPc.snapshot) (hself ▸ hg) rfl
    · exact hs.quiet hgen hcon hflag hpending hself (by simp [WorkerPc.snapshot]) (by simp [hw]) rfl
  | ring hw => exact hs.ring rfl rfl rfl fun u g hg => snap_of_update hg rfl
  | uncount hw =>
    -- the last one to be uncounted has still to notify
    exact hs.worker rfl rfl rfl rfl (by simp [WorkerPc.snapshot]) (fun _ => .inr rfl) (by simp [hw])
      (by simp [idling])
  | current hw =>
    refine hs.worker rfl rfl rfl rfl (fun g hg => .inr ?_) .inl (by simp [hw]) (by simp [idling])
    obtain rfl := Option.some.inj hg
    exact Nat.mod_le _ _
  | noFlag hw hflag =>
    exact hs.worker rfl rfl rfl rfl (fun g hg => .inl (by rw [hw]; exact hg)) .inl (by simp [hw])
      fun h => absurd (h.symm.trans hflag) (by simp)
  | pending hw hp =>
    exact hs.worker rfl rfl rfl rfl (fun g hg => .inl (by rw [hw]; exact hg)) .inl (by simp [hw])
      fun _ _ => hp
  | nested hw | finish hw | noPending hw | wake hw | popJob hw | injectJob hw | stealJob hw =>
    exact hs.quiet rfl rfl rfl id rfl (by simp [WorkerPc.snapshot]) (by simp [hw]) rfl
  | ownDone hw | popNone hw | injectDone hw | injectNone hw | stealDone hw | stealNone hw
  | flag hw =>
    exact hs.quiet rfl rfl rfl id rfl (fun g hg => by rw [hw]; exact hg) (by simp [hw]) rfl
  | pop | steal => exact hs.outside rfl rfl rfl rfl id
  | shutdown =>
    exact ⟨hs.fresh, fun h => absurd h (by simp), fun h => absurd h (by simp)⟩
  | store => exact ⟨hs.fresh, fun _ => rfl, fun h => absurd h (by simp)⟩
  | controlRing hc =>
    exact
      { fresh := hs.fresh.mono (Nat.le_succ _) fun _ _ h => .inl h
        flag := fun h => absurd h joinNext_ne_ring
        told := fun _ => .ring hs.fresh (hs.flag hc) fun _ _ h => h }
  | join hk hc hw =>
    exact ⟨hs.fresh, fun h => absurd h joinNext_ne_ring, fun _ => hs.told (.inl ⟨_, hc⟩)⟩

/-- A step notifies once at most. -/
theorem Move.gen_le (h : Move s l s') : s'.gen ≤ s.gen + 1 := by
  cases h with
  | @clientStep c call | @nestedStep w job call =>
    rcases (stepSubmit_signal s call).1 with hgen | hgen
    · exact hgen.le
    · exact hgen.le.trans (Nat.le_succ _)
  | ring | controlRing => exact le_rfl
  | _ => exact Nat.le_succ _

omit [DecidableEq ω] in
theorem construct_warned (h : construct N ω = some s) : Warned s := by
  unfold construct at h
  split at h
  · exact absurd h (by simp)
  · obtain ⟨d, -, rfl⟩ := Option.map_eq_some_iff.mp h
    exact ⟨fun _ _ h => absurd h (by simp [WorkerPc.snapshot]), fun h => absurd h (by simp),
      fun h => absurd h (by simp)⟩

theorem reachable_warned (h : (machine N ω).Reachable s) : Warned s :=
  h.invariant (fun _ => construct_warned) fun _ _ _ hr _ hst hs =>
    (step_move (reachable_linked hr.reachable) hst).warned hs

/-! ## Everybody sleeps -/

variable [Fintype ω]

/-- No call of `submit` or of `shutdown` is before its last `notify`. -/
def Notified (s : State N ω) : Prop :=
  (∀ c, s.client c = none ∨ ∃ job, s.client c = some (.done job)) ∧
    s.control ≠ .store ∧ s.control ≠ .ring

/-- Every worker that has not left is blocked in `IdleSignal::wait`. -/
def AllAsleep (s : State N ω) : Prop :=
  ∀ w, s.worker w = .exited ∨ s.worker w = .wait (s.gen % 2 ^ 64)

omit [DecidableEq ω] in
/-- Where every `submit` has notified, an injector without rung jobs is empty. -/
theorem Rung.injector_nil (hr : Rung s) (ha : Account s)
    (hc : ∀ c, s.client c = none ∨ ∃ job, s.client c = some (.done job))
    (hw : ∀ w, (s.worker w).call = none) (hno : NoRung s (s.injector p)) : s.injector p = [] := by
  refine List.eq_nil_iff_forall_not_mem.mpr fun job hmem => hno job hmem ?_
  have hsilent := hr.silent (only job)
  have hclient : ∑ c, silentMass (only job) (s.client c) = 0 :=
    Finset.sum_eq_zero fun c _ => by rcases hc c with h | ⟨job, h⟩ <;> rw [h] <;> rfl
  have hworker : ∑ w, silentMass (only job) (s.worker w).call = 0 :=
    Finset.sum_eq_zero fun w _ => by rw [hw w]; rfl
  -- the job is one of those `submit` was called with, so its call has notified
  have hjobs := ha.jobs (only job)
  have hpos : 0 < mass (only job) (s.injector p) := mass_only_pos hmem
  have hle := le_sum (fun p => mass (only job) (s.injector p)) p
  have hrung : 0 < mass (only job) s.rung := by
    unfold queued at hjobs
    omega
  rw [mass_only] at hrung
  exact List.count_pos_iff.mp hrung

/-- **`WorkStealingScheduler` has no stuck state.** In every reachable state with fewer than
`2 ^ 64` notifications in which no call is before its last `notify` and every worker that has not
left sleeps, at least one of them, all injectors and deques are empty, `pending` is `0` and
`shutdown` has not been called. -/
theorem no_stuck_state (h : (machine N ω).Reachable s) (hgen : s.gen < 2 ^ 64) (hn : Notified s)
    (hsleep : AllAsleep s) (hw : s.worker w = .wait (s.gen % 2 ^ 64)) :
    (∀ p, s.injector p = []) ∧ (∀ v p, remaining (s.deque v p) = []) ∧ s.pending = 0 ∧
      s.control = .idle := by
  have hl := reachable_linked h
  have ha := reachable_account h
  have ho := reachable_own h
  obtain ⟨hclient, hstore, hring⟩ := hn
  have hcall : ∀ v, (s.worker v).call = none := fun v => by
    rcases hsleep v with h | h <;> rw [h] <;> rfl
  have hitems : ∀ v p, (s.adeque v p).items = [] := fun v p => by
    have he := ho.emptied v
    rcases hsleep v with h | h <;> · rw [h] at he; exact he p
  have hcalm : ∀ v, (∀ p, (s.adeque v p).owner = .idle) ∧ ∀ u p, (s.adeque u p).thief v = .idle :=
    fun v => by rcases hsleep v with h | h <;> exact hl.calm (by simp [h]) (by simp [h])
  have hinj : ∀ p, s.injector p = [] := fun p => by
    rw [Nat.mod_eq_of_lt hgen] at hw
    have hsearched := (reachable_watchful h hgen w s.gen (by rw [hw]; rfl)).2 rfl
    rw [hw] at hsearched
    exact (reachable_rung h).injector_nil ha hclient hcall (hsearched.1.2 p)
  have hpending : s.pending = 0 := by
    have hdeque : ∀ v p, dequeMass (fun _ => 1) (s.adeque v p) = 0 := fun v p => by
      simp [dequeMass, hitems v p, (hcalm v).1 p, fun i => (hcalm i).2 v p, ownerMass, thiefMass]
    have hcount : countedCalls s = 0 := by
      have h1 : ∀ c, callCount (s.client c) = 0 := fun c => by
        rcases hclient c with h | ⟨job, h⟩ <;> rw [h] <;> rfl
      have h2 : ∀ v, callCount (s.worker v).call = 0 := fun v => by rw [hcall v]; rfl
      simp [countedCalls, h1, h2]
    have hbusy : ∀ v, (s.worker v).busy = 0 := fun v => by
      rcases hsleep v with h | h <;> rw [h] <;> rfl
    rw [ha.pending, hcount]
    simp [queued, hinj, hdeque, hbusy]
  refine ⟨hinj, fun v p => remaining_of_items (hl.sound v p) (hitems v p), hpending, ?_⟩
  by_contra hidle
  have htold := (reachable_warned h).told <| by
    cases hc : s.control with
    | idle => exact absurd hc hidle
    | store => exact absurd hc hstore
    | ring => exact absurd hc hring
    | join k => exact .inl ⟨k, rfl⟩
    | returned => exact .inr rfl
  have hasleep : (idling N).asleep (s.worker w) = some s.gen := by
    rw [hw, Nat.mod_eq_of_lt hgen]
    rfl
  refine htold.pending_ne hasleep (fun u hu => ?_) hpending
  rcases hsleep u with h | h <;> exact absurd (h.symm.trans hu) (by simp)

end Moves

/-- Worker `0` runs the only job; then both workers search and go to sleep. -/
def runThenSleep : List (Label 2 Unit) :=
  let search := 1 + (3 * 7 + 1) + (3 + 1) + (3 * 4 + 1) + 1
  let one : Fin 2 := ⟨0, Nat.two_pos⟩
  let other : Fin 2 := ⟨1, Nat.one_lt_two⟩
  List.flatten [fillDeque one 1, [.finish one, .worker one, .worker one],
    List.replicate search (.worker one), List.replicate search (.worker other)]

theorem no_stuck_state_two : ∃ s : State 2 Unit, (machine 2 Unit).Reachable s ∧ AllAsleep s ∧
    s.finished = [0] ∧ s.pending = 0 ∧ s.control = .idle := by
  let s₀ : State 2 Unit := (construct 2 Unit).get (by decide)
  let s := ((machine 2 Unit).exec s₀ runThenSleep).get (by decide +kernel)
  have hreach : (machine 2 Unit).Reachable s :=
    Machine.reachable_of_exec (s := s₀) (Option.some_get _).symm (Option.some_get _).symm
  have hclient : ∀ c, s.client c = none := by decide +kernel
  have hn : Notified s := ⟨fun c => .inl (hclient c), by decide +kernel, by decide +kernel⟩
  have hw : ∀ w, s.worker w = .wait (s.gen % 2 ^ 64) := by decide +kernel
  have hsleep : AllAsleep s := fun w => .inr (hw w)
  obtain ⟨-, -, hpending, hidle⟩ := no_stuck_state hreach (by decide +kernel) hn hsleep (hw 0)
  exact ⟨s, hreach, hsleep, by decide +kernel, hpending, hidle⟩

end Wss.WorkStealing
