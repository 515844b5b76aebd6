import Wss.Monitor.Step

/-!
# Who is asleep when `shutdown` joins

`shutdown` sets the flag without the mutex. A worker that has read the flag before that and has not
entered the wait set yet misses the `notify_all`, and sleeps on. In the runs where no `notify_all`
is issued at such a moment (`Settled`) no worker is in a wait set once `shutdown` is at its joins.

Results:
* `reachable_told`: in such a run the workers of a core that was notified are not on their way to
  sleep.
* `none_stranded`: so nobody is stranded, on both backends.
* `stranded`: otherwise a worker may be, on both.
-/

namespace Wss.Monitor

open Wss.Lib

variable {N K : ℕ} {Q ω : Type} {L : Layout N K Q}

/-- Once `shutdown` has issued all its `notify_all`, no worker is in a wait set. -/
def NoneStranded (s : State N K Q ω) : Prop :=
  (∃ k, s.control = .join k) ∨ s.control = .returned → ∀ w, s.worker w ≠ .waiting

/-- A `notify_all` of `shutdown` is issued when no worker of the core is between reading the flag
unset and entering the wait set. -/
def Settled (L : Layout N K Q) (s : State N K Q ω) : Label N ω → Prop
  | .control => ∀ w, s.control = .notify (L.core w) → s.worker w ≠ .wait
  | _ => True

instance (s : State N K Q ω) : DecidablePred (Settled L s)
  | .control =>
    inferInstanceAs (Decidable (∀ w, s.control = .notify (L.core w) → s.worker w ≠ .wait))
  | .client _ _ | .clientStep _ _ | .nested _ _ | .finish _ | .worker _ _ | .spurious _
  | .shutdown => inferInstanceAs (Decidable True)

/-- `shutdown` has issued the `notify_all` of core `k`. -/
def ControlPc.told (k : Fin K) : ControlPc → Prop
  | .notify j => k.1 < j
  | .join _ | .returned => True
  | .idle | .store => False

theorem told_notifyNext {k : Fin K} {j : ℕ} (h : (notifyNext N K j).told k) : k.1 < j := by
  unfold notifyNext at h
  split_ifs at h with hj
  · exact h
  · have := k.2
    omega

/-- `shutdown` has set the flag. -/
theorem notifyNext_flag (j : ℕ) : notifyNext N K j ≠ .idle ∧ notifyNext N K j ≠ .store := by
  unfold notifyNext joinNext
  split_ifs <;> simp

/-- The workers of a core that was told are not on their way to sleep. -/
structure Told (L : Layout N K Q) (s : State N K Q ω) : Prop where
  flag : s.control ≠ .idle → s.control ≠ .store → s.shutdownFlag = true
  awake : ∀ w, s.control.told (L.core w) → s.worker w ≠ .wait ∧ s.worker w ≠ .waiting

variable {s s' : State N K Q ω} {w : Fin N} {pc : WorkerPc K}

theorem Told.flag_of_told (ht : Told L s) {k : Fin K} (h : s.control.told k) :
    s.shutdownFlag = true := by
  refine ht.flag (fun e => ?_) fun e => ?_
  all_goals rw [e] at h; exact h

/-- A step that leaves every worker where it is, or wakes it. -/
theorem Told.wake (ht : Told L s) (hcon : s'.control = s.control)
    (hflag : s'.shutdownFlag = s.shutdownFlag)
    (hw : ∀ u, s'.worker u = s.worker u ∨ s.worker u = .waiting ∧ s'.worker u = .lock) :
    Told L s' where
  flag := by rw [hcon, hflag]; exact ht.flag
  awake u hu := by
    rcases hw u with h | ⟨-, h⟩
    · rw [h]
      exact ht.awake u (hcon ▸ hu)
    · simp [h]

/-- A step of worker `w`. -/
theorem Told.worker (ht : Told L s) (hcon : s'.control = s.control)
    (hflag : s'.shutdownFlag = s.shutdownFlag) (hw : s'.worker = Function.update s.worker w pc)
    (hpc : s.control.told (L.core w) → pc ≠ .wait ∧ pc ≠ .waiting) : Told L s' where
  flag := by rw [hcon, hflag]; exact ht.flag
  awake u hu := by
    by_cases huw : u = w
    · subst huw
      rw [hw, Function.update_self]
      exact hpc (hcon ▸ hu)
    · rw [hw, Function.update_of_ne huw]
      exact ht.awake u (hcon ▸ hu)

section Moves

variable [DecidableEq ω] {l : Label N ω}

/-- **Every settled step keeps the workers that were told from going to sleep.** -/
theorem Move.told (ht : Told L s) (hok : Settled L s l) (h : Move L s l s') : Told L s' := by
  cases h with
  | client => exact ht.wake rfl rfl fun _ => .inl rfl
  | clientStep _ h =>
    obtain ⟨hwk, -, hcon, hflag, -⟩ := h.frame
    exact ht.wake hcon hflag hwk
  | nestedStep _ h =>
    obtain ⟨hwk, -, hcon, hflag, -⟩ := h.frame
    exact (ht.wake hcon hflag hwk).worker rfl rfl rfl fun _ => by simp
  | nested | finish | lock | take | noJob | flag | unlock | leave | spurious =>
    exact ht.worker rfl rfl rfl fun _ => by simp
  | noFlag _ hf =>
    refine ht.worker rfl rfl rfl fun hk => ?_
    rw [ht.flag_of_told hk] at hf
    exact absurd hf (by simp)
  | wait hpc =>
    exact ht.worker rfl rfl rfl fun hk => absurd hpc (ht.awake _ hk).1
  | shutdown =>
    exact ⟨fun _ h => absurd rfl h, fun _ h => absurd h (by simp [ControlPc.told])⟩
  | store hc =>
    exact ⟨fun _ _ => rfl, fun w hk => absurd (told_notifyNext hk) (Nat.not_lt_zero _)⟩
  | @notifyAll k hk hc =>
    refine ⟨fun _ _ => ht.flag (by simp [hc]) (by simp [hc]), fun w hw => ?_⟩
    have hle := told_notifyNext hw
    by_cases hwk : L.core w = ⟨k, hk⟩
    · have hnot : s.worker w ≠ .wait := hok w (by rw [hwk, hc])
      rw [notifyAll_apply]
      split_ifs with hwait
      · simp
      · exact ⟨hnot, fun e => hwait ⟨hwk, e⟩⟩
    · have hne : (L.core w).1 ≠ k := fun e => hwk (Fin.ext e)
      have hlt : (L.core w).1 < k := by omega
      rw [notifyAll_apply, if_neg fun e => hwk e.1]
      exact ht.awake w (hc ▸ hlt)
  | join hk hc hw =>
    refine ⟨fun _ _ => ht.flag (by simp [hc]) (by simp [hc]), fun w _ => ?_⟩
    exact ht.awake w (by simp [hc, ControlPc.told])

theorem reachable_told (h : (machine L ω).ReachableUnder (Settled L) s) : Told L s := by
  refine h.invariant (fun s hs => ?_) fun _ _ _ _ hok hst ht => (step_move hst).told ht hok
  simp only [machine, construct] at hs
  split_ifs at hs
  obtain rfl := Option.some.inj hs
  exact ⟨fun h => absurd rfl h, fun _ h => absurd h (by simp [ControlPc.told])⟩

theorem none_stranded_of_settled (h : (machine L ω).ReachableUnder (Settled L) s) :
    NoneStranded s := by
  intro hc w
  refine ((reachable_told h).awake w ?_).2
  rcases hc with ⟨k, hc⟩ | hc <;> rw [hc] <;> trivial

end Moves

/-! ## The two backends -/

/-- **No worker is left sleeping by `shutdown`, if no `notify_all` is issued between a worker's
reading the flag and its entering the wait set.** For both backends, with any number of workers. -/
theorem none_stranded (N : ℕ) [NeZero N] (ω : Type) [DecidableEq ω] :
    (∀ s : State N 1 (List ℕ) ω,
      (machine (globalQueue N) ω).ReachableUnder (Settled (globalQueue N)) s → NoneStranded s) ∧
    ∀ s : State N N CoreQueues ω,
      (machine (threadPerCore N) ω).ReachableUnder (Settled (threadPerCore N)) s →
        NoneStranded s :=
  ⟨fun _ => none_stranded_of_settled, fun _ => none_stranded_of_settled⟩

/-- The worker of a pool of one finds no job, and sleeps; then `shutdown` sets the flag and
notifies. -/
def sleepThenNotify : List (Label 1 Unit) :=
  let w : Fin 1 := ⟨0, Nat.one_pos⟩
  [.worker w none, .worker w none, .worker w none, .worker w none, .shutdown, .control, .control]

/-- The same, but the worker has still to enter the wait set when `shutdown` notifies. -/
def notifyThenSleep : List (Label 1 Unit) :=
  let w : Fin 1 := ⟨0, Nat.one_pos⟩
  [.worker w none, .worker w none, .worker w none, .shutdown, .control, .control, .worker w none]

theorem none_stranded_one :
    (∃ s : State 1 1 (List ℕ) Unit,
      (machine (globalQueue 1) Unit).ReachableUnder (Settled (globalQueue 1)) s ∧
        s.control = .join 0 ∧ NoneStranded s) ∧
    ∃ s : State 1 1 CoreQueues Unit,
      (machine (threadPerCore 1) Unit).ReachableUnder (Settled (threadPerCore 1)) s ∧
        s.control = .join 0 ∧ NoneStranded s := by
  constructor
  · let L := globalQueue 1
    let s₀ : State 1 1 (List ℕ) Unit := (construct L Unit).get (by decide)
    let s := ((machine L Unit).execUnder (Settled L) s₀ sleepThenNotify).get (by decide +kernel)
    have hreach : (machine L Unit).ReachableUnder (Settled L) s :=
      ⟨sleepThenNotify, s₀, (Option.some_get _).symm,
        Machine.execUnder_path (Option.some_get _).symm⟩
    exact ⟨s, hreach, by decide +kernel, (none_stranded 1 Unit).1 s hreach⟩
  · let L := threadPerCore 1
    let s₀ : State 1 1 CoreQueues Unit := (construct L Unit).get (by decide)
    let s := ((machine L Unit).execUnder (Settled L) s₀ sleepThenNotify).get (by decide +kernel)
    have hreach : (machine L Unit).ReachableUnder (Settled L) s :=
      ⟨sleepThenNotify, s₀, (Option.some_get _).symm,
        Machine.execUnder_path (Option.some_get _).symm⟩
    exact ⟨s, hreach, by decide +kernel, (none_stranded 1 Unit).2 s hreach⟩

/-- Both backends can leave a worker sleeping. -/
theorem stranded :
    (¬ ∀ s : State 1 1 (List ℕ) Unit,
      (machine (globalQueue 1) Unit).Reachable s → NoneStranded s) ∧
    ¬ ∀ s : State 1 1 CoreQueues Unit,
      (machine (threadPerCore 1) Unit).Reachable s → NoneStranded s := by
  constructor
  · intro h
    let L := globalQueue 1
    let s₀ : State 1 1 (List ℕ) Unit := (construct L Unit).get (by decide)
    let s := ((machine L Unit).exec s₀ notifyThenSleep).get (by decide +kernel)
    have hs := h s (Machine.reachable_of_exec (s := s₀) (Option.some_get _).symm
      (Option.some_get _).symm)
    exact hs (.inl ⟨0, by decide +kernel⟩) ⟨0, Nat.one_pos⟩ (by decide +kernel)
  · intro h
    let L := threadPerCore 1
    let s₀ : State 1 1 CoreQueues Unit := (construct L Unit).get (by decide)
    let s := ((machine L Unit).exec s₀ notifyThenSleep).get (by decide +kernel)
    have hs := h s (Machine.reachable_of_exec (s := s₀) (Option.some_get _).symm
      (Option.some_get _).symm)
    exact hs (.inl ⟨0, by decide +kernel⟩) ⟨0, Nat.one_pos⟩ (by decide +kernel)

end Wss.Monitor
