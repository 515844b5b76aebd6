import Wss.Lib.Doorbell
import Mathlib.Tactic.SplitIfs

/-!
# `shutdown` on an `IdleSignal`

`WorkStealingScheduler::shutdown` and `FairScheduler::shutdown` read the same: they set the flag,
notify, and `join` the `N` workers one after another. `ControlPc` says where the thread that calls
them is. Their workers leave by the same two loads, `shutdown_flag` and then `pending`.

`Drain p` is the way of the workers to the exit, for what `Pool` shows of a state of either
scheduler, as long as no thread outside the pool is inside `submit` when `shutdown` is called or
later: a worker that has left saw the flag and then `pending == 0`, and that is still so. Its
lemmas are the steps of a scheduler, by what they do to the `Pool`.

`Told` is about those that do not find the exit yet. Once `shutdown` has notified, a worker with the
current generation has read the flag set, so it sleeps only if it has read a `pending` that was not
`0`. Where it becomes `0`, a job has still to notify.

Results:
* `Drain.worker`, `Drain.early`, `Drain.shutdown`, `Drain.store`, `Drain.ring`, `Drain.join`: the
  steps of a scheduler keep `Drain`.
* `Told.pending_ne`: a worker that sleeps after the notification sleeps over a job.
-/

namespace Wss

open Wss.Lib

/-- Where the thread that calls `shutdown` is. -/
inductive ControlPc
  | idle
  /-- Before `shutdown_flag.store`. -/
  | store
  /-- Before the `fetch_add` of `idle.notify`. -/
  | ring
  /-- Before the `join` of worker `k`. -/
  | join (k : ℕ)
  /-- `shutdown` has returned. -/
  | returned
  deriving DecidableEq

/-- `shutdown` goes on to the `join` of worker `k`, or returns. -/
def joinNext (N k : ℕ) : ControlPc := if k < N then .join k else .returned

variable {N k k' : ℕ}

theorem joinNext_eq_join (h : joinNext N k = .join k') : k' = k := by
  unfold joinNext at h
  split_ifs at h
  exact (ControlPc.join.inj h).symm

theorem joinNext_lt (h : joinNext N k = .join k') : k' < N := by
  unfold joinNext at h
  split_ifs at h with hk
  exact ControlPc.join.inj h ▸ hk

theorem joinNext_eq_returned (h : joinNext N k = .returned) : N ≤ k := by
  unfold joinNext at h
  split_ifs at h with hk
  omega

theorem joinNext_ne_idle (k : ℕ) : joinNext N k ≠ .idle := by
  unfold joinNext
  split_ifs <;> simp

theorem joinNext_ne_ring {k : ℕ} : joinNext N k ≠ .ring := by
  unfold joinNext
  split_ifs <;> simp

namespace ControlPc

/-- The steps `shutdown` has left, if nobody keeps it waiting. -/
def left (N : ℕ) : ControlPc → ℕ
  | .store => N + 2
  | .ring => N + 1
  | .join k => N - k
  | .idle | .returned => 0

/-- The notifications `shutdown` has left. -/
def rings : ControlPc → ℕ
  | .store | .ring => 1
  | .idle | .join _ | .returned => 0

end ControlPc

@[simp] theorem joinNext_left (N k : ℕ) : (joinNext N k).left N = N - k := by
  unfold joinNext
  split_ifs with h
  · rfl
  · show 0 = N - k
    omega

@[simp] theorem joinNext_rings (N k : ℕ) : (joinNext N k).rings = 0 := by
  unfold joinNext
  split_ifs <;> rfl

/-- What `shutdown` and the exits of the workers depend on. -/
structure Pool (N : ℕ) where
  control : ControlPc
  shutdownFlag : Bool
  pending : ℕ
  /-- The worker has read the flag set and is about to read `pending`. -/
  checking : Fin N → Prop
  /-- The worker has left its loop. -/
  exited : Fin N → Prop
  /-- A thread outside the pool is inside `submit`. -/
  outside : Prop

/-- The way of the workers to the exit. -/
structure Drain (p : Pool N) : Prop where
  workers : N ≠ 0
  clients : p.control ≠ .idle → ¬ p.outside
  flag : p.shutdownFlag = true → p.control ≠ .idle
  checked : ∀ w, p.checking w → p.shutdownFlag = true
  drained : ∀ w, p.exited w → p.shutdownFlag = true ∧ p.pending = 0
  joined : ∀ k, p.control = .join k → ∀ w : Fin N, w.1 < k → p.exited w
  returned : p.control = .returned → ∀ w, p.exited w

namespace Drain

variable {p p' : Pool N}

/-- When `shutdown` has returned, `pending` is `0`. -/
theorem pending_zero (hd : Drain p) (h : p.control = .returned) : p.pending = 0 :=
  (hd.drained ⟨0, Nat.pos_of_ne_zero hd.workers⟩ (hd.returned h _)).2

/-- When all workers have left, `shutdown` was called and nobody is inside `submit`. -/
theorem quiet (hd : Drain p) (h : ∀ w, p.exited w) :
    p.control ≠ .idle ∧ ¬ p.outside ∧ p.pending = 0 := by
  obtain ⟨hflag, hpending⟩ := hd.drained ⟨0, Nat.pos_of_ne_zero hd.workers⟩ (h _)
  have hcontrol : p.control ≠ .idle := hd.flag hflag
  exact ⟨hcontrol, hd.clients hcontrol, hpending⟩

/-- A step of worker `w` that leaves `pending` at `0` if it is there. -/
theorem worker (hd : Drain p) {w : Fin N} (hcon : p'.control = p.control)
    (hflag : p'.shutdownFlag = p.shutdownFlag) (hout : p'.outside → p.outside)
    (hpending : p.shutdownFlag = true → p.pending = 0 → p'.pending = 0) (hleft : ¬ p.exited w)
    (hother : ∀ u, u ≠ w → (p'.checking u → p.checking u) ∧ (p'.exited u ↔ p.exited u))
    (hcheck : p'.checking w → p.shutdownFlag = true)
    (hexit : p'.exited w → p.shutdownFlag = true ∧ p.pending = 0) : Drain p' where
  workers := hd.workers
  clients h ho := hd.clients (hcon ▸ h) (hout ho)
  flag h := by rw [hcon]; exact hd.flag (hflag ▸ h)
  checked u hu := by
    rw [hflag]
    by_cases huw : u = w
    · exact hcheck (huw ▸ hu)
    · exact hd.checked u ((hother u huw).1 hu)
  drained u hu := by
    rw [hflag]
    have h0 : p.shutdownFlag = true ∧ p.pending = 0 := by
      by_cases huw : u = w
      · exact hexit (huw ▸ hu)
      · exact hd.drained u ((hother u huw).2.mp hu)
    exact ⟨h0.1, hpending h0.1 h0.2⟩
  joined k hk u hu := by
    have hex := hd.joined k (hcon ▸ hk) u hu
    have huw : u ≠ w := fun e => hleft (e ▸ hex)
    exact (hother u huw).2.mpr hex
  returned hr := absurd (hd.returned (hcon ▸ hr) w) hleft

/-- A step outside the pool, before `shutdown` is called. No worker has left yet. -/
theorem early (hd : Drain p) (hidle : p.control = .idle) (hcon : p'.control = p.control)
    (hflag : p'.shutdownFlag = p.shutdownFlag) (hcheck : ∀ w, p'.checking w → p.checking w)
    (hexit : ∀ w, p'.exited w → p.exited w) : Drain p' := by
  have hf : p.shutdownFlag ≠ true := fun h => hd.flag h hidle
  have hc : p'.control = .idle := hcon.trans hidle
  exact
    { workers := hd.workers
      clients := fun h => absurd hc h
      flag := fun h => absurd (hflag ▸ h) hf
      checked := fun w h => absurd (hd.checked w (hcheck w h)) hf
      drained := fun w h => absurd (hd.drained w (hexit w h)).1 hf
      joined := fun k h => absurd (hc.symm.trans h) (by simp)
      returned := fun h => absurd (hc.symm.trans h) (by simp) }

/-- The call of `shutdown`. -/
theorem shutdown (hd : Drain p) (hout : ¬ p.outside) : Drain { p with control := .store } where
  workers := hd.workers
  clients _ := hout
  flag _ := by simp
  checked := hd.checked
  drained := hd.drained
  joined k h := absurd h (by simp)
  returned h := absurd h (by simp)

/-- The flag is set. -/
theorem store (hd : Drain p) (hc : p.control = .store) :
    Drain { p with shutdownFlag := true, control := .ring } where
  workers := hd.workers
  clients _ := hd.clients (by simp [hc])
  flag _ := by simp
  checked _ _ := rfl
  drained w h := ⟨rfl, (hd.drained w h).2⟩
  joined k h := absurd h (by simp)
  returned h := absurd h (by simp)

/-- `shutdown` notifies. -/
theorem ring (hd : Drain p) (hc : p.control = .ring) :
    Drain { p with control := joinNext N 0 } where
  workers := hd.workers
  clients _ := hd.clients (by simp [hc])
  flag _ := joinNext_ne_idle 0
  checked := hd.checked
  drained := hd.drained
  joined k h w hw := by
    rw [joinNext_eq_join h] at hw
    exact absurd hw (Nat.not_lt_zero _)
  returned h := absurd (joinNext_eq_returned h) (by have := hd.workers; omega)

/-- A worker is joined. -/
theorem join (hd : Drain p) (hk : k < N) (hc : p.control = .join k) (hw : p.exited ⟨k, hk⟩) :
    Drain { p with control := joinNext N (k + 1) } := by
  have hall : ∀ w : Fin N, w.1 < k + 1 → p.exited w := fun w hlt => by
    rcases Nat.lt_succ_iff_lt_or_eq.mp hlt with hlt | rfl
    · exact hd.joined k hc w hlt
    · exact hw
  exact
    { workers := hd.workers
      clients := fun _ => hd.clients (by simp [hc])
      flag := fun _ => joinNext_ne_idle _
      checked := hd.checked
      drained := hd.drained
      joined := fun k' h w hw => hall w (joinNext_eq_join h ▸ hw)
      returned := fun h w => hall w (by have := joinNext_eq_returned h; omega) }

end Drain

/-! ## Sleep after the notification -/

/-- What the program counters of a pool say about its `IdleSignal`. -/
structure Idling (α : Type) where
  /-- The generation a worker has taken. -/
  snapshot : α → Option ℕ
  /-- The same, of a worker in `wait`. -/
  asleep : α → Option ℕ
  /-- The worker is between the `fetch_sub` of its job and the `notify`. -/
  finishing : α → Prop
  snapshot_of_asleep : ∀ {pc gen}, asleep pc = some gen → snapshot pc = some gen

/-- The flag is set, and nobody sleeps without having seen it. -/
structure Told {α : Type} (k : Idling α) (gen : ℕ) (shutdownFlag : Bool) (pending : ℕ)
    (worker : Fin N → α) : Prop where
  flag : shutdownFlag = true
  pending : Heeds gen (fun w => k.asleep (worker w)) (pending ≠ 0 ∨ ∃ w, k.finishing (worker w))

namespace Told

variable {α : Type} {k : Idling α} {gen : ℕ} {flag : Bool} {pending pending' : ℕ}
  {worker worker' : Fin N → α} {w : Fin N} {pc : α}

/-- A notification. -/
theorem ring (hf : Fresh gen fun w => k.snapshot (worker w)) (hflag : flag = true)
    (hw : ∀ u g, k.snapshot (worker' u) = some g → k.snapshot (worker u) = some g) :
    Told k (gen + 1) flag pending' worker' where
  flag := hflag
  pending := .ring hf fun u g hg => hw u g (k.snapshot_of_asleep hg)

/-- A step of worker `w` that does not notify. -/
theorem update (ht : Told k gen flag pending worker)
    (hpending : pending ≠ 0 → pending' ≠ 0 ∨ k.finishing pc) (hfin : ¬ k.finishing (worker w))
    (hasleep : k.asleep pc = some gen → k.asleep (worker w) = some gen ∨ pending' ≠ 0) :
    Told k gen flag pending' (Function.update worker w pc) where
  flag := ht.flag
  pending := by
    refine ht.pending.update (fun h => ?_) fun h => (hasleep h).imp_right .inl
    rcases h with h | ⟨u, h⟩
    · exact (hpending h).imp_right fun h => ⟨w, by rwa [Function.update_self]⟩
    · have hu : u ≠ w := fun e => hfin (e ▸ h)
      exact .inr ⟨u, by rwa [Function.update_of_ne hu]⟩

/-- Such a step of a worker that does not go to sleep. -/
theorem quiet (ht : Told k gen flag pending worker) (hpending : pending ≠ 0 → pending' ≠ 0)
    (hfin : ¬ k.finishing (worker w)) (hasleep : k.asleep pc = none) :
    Told k gen flag pending' (Function.update worker w pc) :=
  ht.update (fun h => .inl (hpending h)) hfin fun h => absurd (hasleep.symm.trans h) (by simp)

/-- A step outside the pool that does not notify. -/
theorem outside (ht : Told k gen flag pending worker) (hpending : pending ≠ 0 → pending' ≠ 0) :
    Told k gen flag pending' worker where
  flag := ht.flag
  pending := ht.pending.keep (Or.imp_left hpending) fun _ h => .inl h

/-- Where a worker sleeps and none is about to notify, a job is pending. -/
theorem pending_ne (ht : Told k gen flag pending worker) (hw : k.asleep (worker w) = some gen)
    (hfin : ∀ u, ¬ k.finishing (worker u)) : pending ≠ 0 :=
  (ht.pending w hw).resolve_right fun ⟨u, h⟩ => hfin u h

end Told

end Wss
