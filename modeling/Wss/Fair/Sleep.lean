import Wss.Fair.Step
import Wss.Lib.Doorbell
import Mathlib.Algebra.Field.Rat
import Mathlib.Algebra.Order.Ring.Rat

/-!
# No wake-up of `FairScheduler` is missed

A worker takes the generation of `idle_`, then finds no entry, then reads the flag, then `pending_`,
and sleeps if the generation is still the one it took. Between these reads everything may change.

* After the critical section: where an entry appears, a `submit` has still to notify (`Alert`).
* After `shutdown` has notified, a worker with the current generation has read the flag set and a
  `pending_` that was not `0`; where it becomes `0`, a job has still to notify (`Told`).

Results:
* `reachable_alert`: no entry is overlooked.
* `Move.told`: nor is `shutdown`.
* `no_missed_wakeup` puts both together.
-/

namespace Wss.Fair

open Wss.Lib

variable {R : Type} {N : ℕ} {ω : Type}

namespace WorkerPc

/-- The generation a worker has taken. -/
def snapshot : WorkerPc R → Option ℕ
  | .dispatch gen | .loadFlag gen | .loadPending gen | .wait gen => some gen
  | .current | .body _ _ _ | .deliver _ _ | .uncount _ _ | .ring _ _ | .account _ _ | .exited =>
    none

/-- The generation of a worker that has found no entry since. -/
def searched : WorkerPc R → Option ℕ
  | .loadFlag gen | .loadPending gen | .wait gen => some gen
  | .current | .dispatch _ | .body _ _ _ | .deliver _ _ | .uncount _ _ | .ring _ _ | .account _ _
  | .exited => none

theorem snapshot_of_searched {pc : WorkerPc R} {gen : ℕ} (h : pc.searched = some gen) :
    pc.snapshot = some gen := by
  cases pc <;> first | exact h | exact absurd h (by simp [searched])

end WorkerPc

/-- `idle_`, as the workers use it. -/
def idling (R : Type) : Idling (WorkerPc R) where
  snapshot := WorkerPc.snapshot
  asleep
    | .wait gen => some gen
    | _ => none
  finishing pc := ∃ id job, pc = .ring id job
  snapshot_of_asleep {pc _} h := by
    cases pc <;> first | exact h | exact absurd h (by simp)

/-- Some `submit` is between its critical section and its `notify`. -/
def Submitted (s : State R N ω) : Prop :=
  (∃ c job, s.client c = some (.ring job)) ∨
    ∃ w id job job', s.worker w = .body id job (some (.ring job'))

/-- Some job is between its `fetch_sub` and its `notify`. -/
def Finishing (s : State R N ω) : Prop := ∃ w id job, s.worker w = .ring id job

/-- An entry that a worker may have overlooked is announced yet. -/
structure Alert (s : State R N ω) : Prop where
  fresh : Fresh s.gen fun w => (s.worker w).snapshot
  ready : Heeds s.gen (fun w => (s.worker w).searched) (s.tables.ready = [] ∨ Submitted s)

/-- What the sleepers know once `shutdown` has notified. -/
def State.Told (s : State R N ω) : Prop :=
  Wss.Told (idling R) s.gen s.shutdownFlag s.pending s.worker

variable {s s' : State R N ω} {w : Fin N} {pc : WorkerPc R}

/-- A worker that is not in such a `submit` moves. -/
theorem Submitted.worker (h : Submitted s) (hw : s'.worker = Function.update s.worker w pc)
    (hc : s'.client = s.client)
    (hne : ∀ id job job', s.worker w ≠ .body id job (some (.ring job'))) : Submitted s' := by
  rcases h with ⟨c, job, h⟩ | ⟨u, id, job, job', h⟩
  · exact .inl ⟨c, job, hc ▸ h⟩
  · have hu : u ≠ w := fun e => hne id job job' (e ▸ h)
    refine .inr ⟨u, id, job, job', ?_⟩
    rw [hw, Function.update_of_ne hu, h]

theorem Submitted.client [DecidableEq ω] (h : Submitted s) {c : ω} {call : Option (SubmitPc R)}
    (hw : s'.worker = s.worker) (hc : s'.client = Function.update s.client c call)
    (hne : ∀ job, s.client c ≠ some (.ring job)) : Submitted s' := by
  rcases h with ⟨d, job, h⟩ | h
  · have hd : d ≠ c := fun e => hne job (e ▸ h)
    refine .inl ⟨d, job, ?_⟩
    rw [hc, Function.update_of_ne hd, h]
  · exact .inr (hw ▸ h)

section Steps

variable [Zero R] [One R] [Add R] [Div R] [LE R] [DecidableLE R] [LT R] [DecidableLT R]

omit [One R] [DecidableLE R] in
/-- Only a job that is filed makes an entry. -/
theorem Change.ready_nil {t t' : Tables R} {o : Op R} (h : Change t o t') (ht : t.ready = [])
    (ho : ∀ id job, o ≠ .push id job) : t'.ready = [] := by
  cases h with
  | create | account => exact ht
  | push | wake => exact absurd rfl (ho _ _)
  | take hr | drain hr => exact absurd (ht.symm.trans hr) (by simp)

omit [DecidableLE R] in
/-- A step of `submit` that does not notify announces what it has filed. -/
theorem Submitting.announce {call : SubmitPc R} {call' : Option (SubmitPc R)}
    (h : Submitting s call s' call') :
    s'.gen = s.gen + 1 ∨ s'.gen = s.gen ∧ (∀ job, call ≠ .ring job) ∧
      ((∃ job, call' = some (.ring job)) ∨ s'.tables.ready = s.tables.ready) ∧
      (s.pending ≠ 0 → s'.pending ≠ 0) := by
  cases h with
  | ring => exact .inl rfl
  | count => exact .inr ⟨rfl, by simp, .inr rfl, fun _ => by simp⟩
  | enqueue => exact .inr ⟨rfl, by simp, .inl ⟨_, rfl⟩, id⟩
  | done => exact .inr ⟨rfl, by simp, .inr rfl, id⟩

omit [Zero R] [One R] [Add R] [Div R] [LE R] [DecidableLE R] [LT R] [DecidableLT R]

/-- A notification. -/
theorem Alert.ring (ha : Alert s) (hgen : s'.gen = s.gen + 1)
    (hw : ∀ u g, (s'.worker u).snapshot = some g → (s.worker u).snapshot = some g) : Alert s' where
  fresh := by
    rw [hgen]
    exact ha.fresh.mono (Nat.le_succ _) fun u g hg => .inl (hw u g hg)
  ready := by
    rw [hgen]
    exact .ring ha.fresh fun u g hg => hw u g (WorkerPc.snapshot_of_searched hg)

/-- A step of worker `w` that does not notify. -/
theorem Alert.worker (ha : Alert s) (hgen : s'.gen = s.gen)
    (hw : s'.worker = Function.update s.worker w pc)
    (hfresh : ∀ g, pc.snapshot = some g → (s.worker w).snapshot = some g ∨ g ≤ s.gen)
    (hready : s.tables.ready = [] ∨ Submitted s → s'.tables.ready = [] ∨ Submitted s')
    (hsearched : pc.searched = some s.gen →
      (s.worker w).searched = some s.gen ∨ s'.tables.ready = []) : Alert s' where
  fresh := by
    rw [hgen, hw]
    exact ha.fresh.update le_rfl hfresh
  ready := by
    rw [hgen, hw]
    exact ha.ready.update hready fun h => (hsearched h).imp_right .inl

/-- A step of worker `w` with nothing but its program counter and what no search looks at. -/
theorem Alert.quiet (ha : Alert s) (hgen : s'.gen = s.gen)
    (hw : s'.worker = Function.update s.worker w pc) (hc : s'.client = s.client)
    (hready : s'.tables.ready = s.tables.ready)
    (hne : ∀ id job job', s.worker w ≠ .body id job (some (.ring job')))
    (hfresh : ∀ g, pc.snapshot = some g → (s.worker w).snapshot = some g)
    (hsearched : ∀ g, pc.searched = some g → (s.worker w).searched = some g) : Alert s' :=
  ha.worker hgen hw (fun g h => .inl (hfresh g h))
    (Or.imp (fun h => hready.trans h) fun h => h.worker hw hc hne) fun h => .inl (hsearched _ h)

/-- A step outside the pool that does not notify. -/
theorem Alert.outside (ha : Alert s) (hgen : s'.gen = s.gen) (hw : s'.worker = s.worker)
    (hready : s.tables.ready = [] ∨ Submitted s → s'.tables.ready = [] ∨ Submitted s') :
    Alert s' where
  fresh := by
    rw [hgen, hw]
    exact ha.fresh
  ready := by
    rw [hgen, hw]
    exact ha.ready.keep hready fun _ h => .inl h

end Steps

/-! ## Every step -/

section Moves

variable [Zero R] [One R] [Add R] [Div R] [LE R] [LT R] [DecidableLT R] [DecidableEq ω]
variable {l : Label R N ω}

/-- **Every step keeps what may be overlooked announced.** -/
theorem Move.alert (ha : Alert s) (h : Move s l s') : Alert s' := by
  cases h with
  | shutdown | store | joinWorker | join =>
    exact ha.outside rfl rfl id
  | controlRing => exact ha.ring rfl fun _ _ h => h
  | @client c opts hc =>
    exact ha.outside rfl rfl (Or.imp_right fun h => h.client rfl rfl (by simp [hc]))
  | register hc =>
    exact ha.outside rfl rfl (Or.imp (fun h => hc.ready_nil h (by simp)) id)
  | @clientStep c call call' s₁ hc hs =>
    obtain ⟨hw, hcl, -⟩ := hs.frame
    rcases hs.announce with hgen | ⟨hgen, hne, hready, -⟩
    · exact ha.ring hgen fun u g hg => hw ▸ hg
    · refine ha.outside hgen hw fun h => ?_
      rcases hready with ⟨job, rfl⟩ | hready
      · exact .inr (.inl ⟨c, job, Function.update_self _ _ _⟩)
      · exact h.imp hready.trans fun h => h.client hw (by rw [hcl]) (by simpa [hc] using hne)
  | @nestedStep w id job call call' s₁ hpc hs =>
    obtain ⟨hw, hcl, -⟩ := hs.frame
    have hself : (s₁.setWorker w (.body id job call')).worker =
        Function.update s.worker w (.body id job call') := congrArg (Function.update · w _) hw
    rcases hs.announce with hgen | ⟨hgen, hne, hready, -⟩
    · exact ha.ring hgen fun u g hg => snap_of_update (f := WorkerPc.snapshot) (hself ▸ hg) rfl
    · refine ha.worker hgen hself (by simp [WorkerPc.snapshot]) (fun h => ?_)
        (by simp [WorkerPc.searched])
      rcases hready with ⟨job', rfl⟩ | hready
      · exact .inr (.inr ⟨w, id, job, job', setWorker_self _ _ _⟩)
      · exact h.imp hready.trans fun h => h.worker hself hcl (by simp [hpc, hne])
  | ring hpc => exact ha.ring rfl fun u g hg => snap_of_update hg rfl
  | @current w hpc =>
    refine ha.worker rfl rfl (fun g hg => .inr ?_)
      (Or.imp_right fun h => h.worker rfl rfl (by simp [hpc])) (by simp [WorkerPc.searched])
    obtain rfl := Option.some.inj hg
    exact Nat.mod_le _ _
  | @noJob w gen hpc hr =>
    exact ha.worker rfl rfl (fun g hg => .inl (by rw [hpc]; exact hg))
      (Or.imp_right fun h => h.worker rfl rfl (by simp [hpc])) fun _ => .inr hr
  | @take w gen id job t hpc hc =>
    exact ha.worker rfl rfl (by simp [WorkerPc.snapshot])
      (Or.imp (fun h => hc.ready_nil h (by simp)) fun h => h.worker rfl rfl (by simp [hpc]))
      (by simp [WorkerPc.searched])
  | @account w id job elapsed t hpc hc =>
    exact ha.worker rfl rfl (by simp [WorkerPc.snapshot])
      (Or.imp (fun h => hc.ready_nil h (by simp)) fun h => h.worker rfl rfl (by simp [hpc]))
      (by simp [WorkerPc.searched])
  | nested hpc | finish hpc | deliver hpc | uncount hpc | noPending hpc | wake hpc =>
    exact ha.quiet rfl rfl rfl rfl (by simp [hpc]) (by simp [WorkerPc.snapshot])
      (by simp [WorkerPc.searched])
  | flag hpc | noFlag hpc | pending hpc =>
    exact ha.quiet rfl rfl rfl rfl (by simp [hpc]) (fun g hg => by rw [hpc]; exact hg)
      fun g hg => by rw [hpc]; exact hg

/-- **Every step after the notification of `shutdown` leaves the workers told.** -/
theorem Move.told (ha : Alert s) (ht : s.Told) (h : Move s l s') : s'.Told := by
  have hflag : s.shutdownFlag = true := ht.flag
  cases h with
  | shutdown | joinWorker | join | client | register => exact ht.outside id
  | store => exact ⟨rfl, ht.pending⟩
  | controlRing => exact .ring ha.fresh hflag fun _ _ h => h
  | @clientStep c call call' s₁ hc hs =>
    obtain ⟨hw, -, -, hflag', -⟩ := hs.frame
    unfold State.Told
    simp only [hw, hflag']
    rcases hs.announce with hgen | ⟨hgen, -, -, hpending⟩
    · rw [hgen]
      exact .ring ha.fresh hflag fun _ _ h => h
    · rw [hgen]
      exact ht.outside hpending
  | @nestedStep w id job call call' s₁ hpc hs =>
    obtain ⟨hw, -, -, hflag', -⟩ := hs.frame
    unfold State.Told
    simp only [State.setWorker, hw, hflag']
    rcases hs.announce with hgen | ⟨hgen, -, -, hpending⟩
    · rw [hgen]
      exact .ring ha.fresh hflag fun u g hg => snap_of_update hg rfl
    · rw [hgen]
      exact ht.quiet hpending (by simp [hpc, idling]) rfl
  | ring hpc => exact .ring ha.fresh hflag fun u g hg => snap_of_update hg rfl
  | uncount hpc =>
    -- the last one to be uncounted has still to notify
    exact ht.update (fun _ => .inr ⟨_, _, rfl⟩) (by simp [hpc, idling]) (by simp [idling])
  | noFlag _ hflag' => exact absurd (hflag.symm.trans hflag') (by simp)
  | pending hpc hp => exact ht.update .inl (by simp [hpc, idling]) fun _ => .inr hp
  | current hpc | noJob hpc | take hpc | account hpc | nested hpc | finish hpc | deliver hpc
  | noPending hpc | wake hpc | flag hpc =>
    exact ht.quiet id (by simp [hpc, idling]) rfl

/-- A step notifies once at most. -/
theorem Move.gen_le (h : Move s l s') : s'.gen ≤ s.gen + 1 := by
  cases h with
  | clientStep _ hs | nestedStep _ hs =>
    rcases hs.announce with hgen | ⟨hgen, -⟩
    · exact hgen.le
    · exact hgen.le.trans (Nat.le_succ _)
  | ring | controlRing => exact le_rfl
  | _ => exact Nat.le_succ _

variable [DecidableLE R]

theorem reachable_alert (h : (machine R N ω).Reachable s) : Alert s := by
  refine h.invariant (fun s hs => ?_) fun _ _ _ _ _ hst ha => (step_move hst).alert ha
  simp only [machine, construct] at hs
  split_ifs at hs
  obtain rfl := Option.some.inj hs
  exact ⟨fun _ _ h => absurd h (by simp [WorkerPc.snapshot]),
    fun _ h => absurd h (by simp [WorkerPc.searched])⟩

omit [DecidableLE R] in
theorem Move.flagged (hf : s.control = .ring → s.shutdownFlag = true) (h : Move s l s') :
    s'.control = .ring → s'.shutdownFlag = true := by
  intro hr
  cases h with
  | clientStep _ hs | nestedStep _ hs =>
    obtain ⟨-, -, hcon, hflag, -⟩ := hs.frame
    exact hflag.trans (hf (hcon.symm.trans hr))
  | shutdown => exact absurd hr (by simp)
  | store => rfl
  | controlRing | joinWorker =>
    have := joinNext_ne_ring (N := N) (show joinNext N _ = .ring from hr)
    contradiction
  | _ => exact hf hr

/-- The flag is set when `shutdown` notifies. -/
theorem reachable_flagged (h : (machine R N ω).Reachable s) (hr : s.control = .ring) :
    s.shutdownFlag = true := by
  refine h.invariant (I := fun s => s.control = .ring → s.shutdownFlag = true) (fun s hs => ?_)
    (fun _ _ _ _ _ hst hf => (step_move hst).flagged hf) hr
  simp only [machine, construct] at hs
  split_ifs at hs
  obtain rfl := Option.some.inj hs
  simp

/-- `shutdown` has notified, on the way of some run to `s`. -/
def ShutdownNotified (s : State R N ω) : Prop :=
  ∃ s₁ s₂ tr, (machine R N ω).Reachable s₁ ∧ s₁.control = .ring ∧
    (machine R N ω).step s₁ .control = some s₂ ∧ (machine R N ω).Path Machine.Free s₂ tr s

omit [DecidableLE R] in
/-- The notification of `shutdown`. -/
theorem Move.tell (ha : Alert s) (hflag : s.shutdownFlag = true) (hr : s.control = .ring)
    (h : Move s .control s') : s'.Told := by
  cases h with
  | controlRing => exact .ring ha.fresh hflag fun _ _ h => h
  | store hc | joinWorker _ hc => exact absurd (hc.symm.trans hr) (by simp)

theorem ShutdownNotified.told (h : ShutdownNotified s) : s.Told := by
  obtain ⟨s₁, s₂, tr, hreach, hr, hst, hp⟩ := h
  have hmove : Move s₁ .control s₂ := step_move hst
  have htold : s₂.Told := hmove.tell (reachable_alert hreach) (reachable_flagged hreach hr) hr
  have hstep : ∀ t l t', Machine.Free t l → (machine R N ω).step t l = some t' →
      (machine R N ω).Reachable t ∧ t.Told → (machine R N ω).Reachable t' ∧ t'.Told :=
    fun t l t' _ hst' h => ⟨h.1.next hst', (step_move hst').told (reachable_alert h.1) h.2⟩
  exact (hp.preserves hstep ⟨hreach.next hst, htold⟩).2

/-- **`FairScheduler` never misses a wake-up.** In every reachable state with fewer than `2 ^ 64`
notifications in which a worker is blocked in `idle_.wait`: unless a `submit` is between its
critical section and its `notify`, no class has an entry or a job; and if `shutdown` has notified
and `pending_` is `0`, then some job is between its `fetch_sub` and its `notify`. -/
theorem no_missed_wakeup (h : (machine R N ω).Reachable s) (hgen : s.gen < 2 ^ 64)
    (hw : s.worker w = .wait (s.gen % 2 ^ 64)) :
    (¬ Submitted s → s.tables.ready = [] ∧ ∀ c ∈ s.tables.classes, c.runnable = []) ∧
      ¬ (ShutdownNotified s ∧ s.pending = 0 ∧ ¬ Finishing s) := by
  rw [Nat.mod_eq_of_lt hgen] at hw
  constructor
  · intro hsub
    have hsearched : (s.worker w).searched = some s.gen := by rw [hw]; rfl
    have hready := ((reachable_alert h).ready w hsearched).resolve_right hsub
    exact ⟨hready, fun c hc => (reachable_ok h).runnable_nil hready hc⟩
  · rintro ⟨hn, hp, hfin⟩
    have hasleep : (idling R).asleep (s.worker w) = some s.gen := by rw [hw]; rfl
    exact hn.told.pending_ne hasleep (fun u hu => hfin ⟨u, hu⟩) hp

end Moves

/-- One worker runs a job when `shutdown` is called. The other will find nothing to do and, though
it sees the flag, go to sleep. -/
def startThenShutdown : List (Label ℚ 2 Unit) :=
  let one : Fin 2 := ⟨0, Nat.two_pos⟩
  List.flatten [[.client () ⟨"", 1⟩], List.replicate 4 (.clientStep ()),
    List.replicate 2 (.worker one), [.shutdown, .control]]

theorem no_missed_wakeup_two : ∃ s : State ℚ 2 Unit, (machine ℚ 2 Unit).Reachable s ∧
    ShutdownNotified s ∧ s.pending = 1 ∧ s.tables.ready = [] := by
  let M := machine ℚ 2 Unit
  let one : Fin 2 := ⟨0, Nat.two_pos⟩
  let other : Fin 2 := ⟨1, Nat.one_lt_two⟩
  let s₀ : State ℚ 2 Unit := (construct ℚ 2 Unit).get (by decide)
  let s₁ := (M.exec s₀ startThenShutdown).get (by decide +kernel)
  let s₂ := (M.step s₁ .control).get (by decide +kernel)
  let s := (M.exec s₂ (List.replicate 4 (.worker other))).get (by decide +kernel)
  have h₁ : M.Reachable s₁ :=
    Machine.reachable_of_exec (s := s₀) (Option.some_get _).symm (Option.some_get _).symm
  have h₂ : M.step s₁ .control = some s₂ := (Option.some_get _).symm
  have hp : M.Path Machine.Free s₂ (List.replicate 4 (.worker other)) s :=
    Machine.exec_path (Option.some_get _).symm
  have hreach : M.Reachable s := (h₁.next h₂).path hp
  have hnotified : ShutdownNotified s := ⟨s₁, s₂, _, h₁, by decide +kernel, h₂, hp⟩
  have hw : s.worker other = .wait (s.gen % 2 ^ 64) := rfl
  have hsub : ¬ Submitted s := by
    rintro (⟨c, job, h⟩ | ⟨u, id, job, job', h⟩)
    · have hc : s.client c = none := rfl
      exact absurd (hc.symm.trans h) (by simp)
    · have h0 : s.worker one = .body 0 0 none := rfl
      have hone : s.worker one ≠ .body id job (some (.ring job')) := by rw [h0]; simp
      have hother : s.worker other ≠ .body id job (some (.ring job')) := by rw [hw]; simp
      have hworker : ∀ u, s.worker u ≠ .body id job (some (.ring job')) :=
        Fin.forall_fin_two.mpr ⟨hone, hother⟩
      exact hworker u h
  exact ⟨s, hreach, hnotified, by decide +kernel,
    ((no_missed_wakeup hreach (by decide +kernel) hw).1 hsub).1⟩

end Wss.Fair
