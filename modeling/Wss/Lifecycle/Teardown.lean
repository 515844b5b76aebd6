import Wss.Fair.Finish
import Wss.Lifecycle.Model
import Wss.WorkStealing.Stuck

/-!
# Who is waited for when a scheduler is torn down

As long as no thread creation throws but the first, the destruction of `workers_` finds all threads
joined (`reachable_tidy`): the destructor of the scheduler has called `shutdown` before. What the
`shutdown` of each backend does is `Pool.Lawful`; who was notified when it joins is known where no
notification is lost.

Results:
* `pool_lawful`: the `shutdown` of the four backends joins in the order of the workers, and only
  those that were told to stop.
* `teardown_safe`: the destruction of `workers_` joins no worker that was not told to stop, if no
  thread creation throws but the first; nor does the `shutdown` before it, if no notification is
  lost.
* `throw_unsafe`: where another thread creation throws, the threads started before are joined with
  the flag unset.
-/

namespace Wss.Lifecycle

open Wss.Lib

variable {N : ℕ} {P : Pool N}

/-! ## What `shutdown` does -/

/-- What the tear-down relies on in `shutdown`: it joins the workers in their order, after it has
set the flag and, where no notification is lost, notified them. -/
structure Pool.Lawful (P : Pool N) : Prop where
  actor_shutdown : P.actor P.shutdown = .shutdown
  init : ∀ {b}, P.machine.init b → P.progress b = none ∧ P.flag b = false
  quiet : ∀ {b l b'}, P.machine.Reachable b → P.machine.step b l = some b' →
    P.actor l ≠ .control → P.flag b' = P.flag b
  told : ∀ {b}, P.machine.ReachableUnder (fun b l => P.settled b l = true) b →
    ∀ {w : Fin N}, P.progress b = some w.1 → P.flag b = true ∧ P.notified b w
  joins : ∀ {b l b'}, P.machine.Reachable b → P.machine.step b l = some b' →
    ∀ {k}, P.progress b' = some k →
    P.progress b = some k ∨ k = 0 ∨ ∃ j, P.actor l = .control ∧ P.progress b = some j ∧ k = j + 1

/-- The threads that `shutdown` has joined are so many. -/
structure Tidy (s : State P) : Prop where
  base : P.machine.Reachable s.base
  joined : ∀ k, P.progress s.base = some k → ∀ w : Fin N, w.1 < k → s.joined w = true
  freeing : ∀ k rest, s.phase = .freeing k rest → ∀ w ∈ rest, s.joined w = true

variable {s s' : State P} {l : Label P}

theorem joined_mono {l : P.Label} {w : Fin N} (h : s.joined w = true) :
    s.joinedAfter l w = true := by
  unfold State.joinedAfter
  split
  · rw [h, Bool.true_or]
  · exact h
  · exact h
  · exact h

/-- **Every step of a scheduler whose thread creations do not throw keeps the threads joined.** -/
theorem Tidy.step (hP : P.Lawful) (ht : Tidy s) (hok : Sparing s l)
    (hst : Lifecycle.step s l = some s') : Tidy s' := by
  cases l with
  | base l =>
    simp only [Lifecycle.step] at hst
    split_ifs at hst
    obtain ⟨b, hb, rfl⟩ := Option.map_eq_some_iff.mp hst
    refine ⟨ht.base.next hb, fun k hk w hw => ?_,
      fun k rest hp w hw => joined_mono (ht.freeing k rest hp w hw)⟩
    rcases hP.joins ht.base hb hk with h | rfl | ⟨j, hl, hj, rfl⟩
    · exact joined_mono (ht.joined k h w hw)
    · exact absurd hw (Nat.not_lt_zero _)
    · rcases Nat.lt_succ_iff_lt_or_eq.mp hw with h | h
      · exact joined_mono (ht.joined j hj w h)
      · show s.joinedAfter l w = true
        simp [State.joinedAfter, hl, hj, h]
  | create =>
    simp only [Lifecycle.step] at hst
    split at hst
    · obtain rfl := Option.some.inj hst
      refine ⟨ht.base, ht.joined, fun k rest hp => ?_⟩
      have hp : (if _ then _ else _) = Phase.freeing k rest := hp
      split_ifs at hp
    · exact absurd hst (by simp)
  | throw order =>
    have hphase : s.phase = .constructing 0 := hok
    simp only [Lifecycle.step, hphase] at hst
    split_ifs at hst with hperm
    obtain rfl := Option.some.inj hst
    refine ⟨ht.base, ht.joined, fun k rest hp w hw => ?_⟩
    obtain ⟨-, rfl⟩ := Phase.freeing.inj hp
    have hmem := hperm.mem_iff.mp hw
    exact absurd hmem (by simp [firstWorkers])
  | destroy =>
    simp only [Lifecycle.step] at hst
    split at hst
    · obtain ⟨b, hb, rfl⟩ := Option.map_eq_some_iff.mp hst
      refine ⟨ht.base.next hb, fun k hk w hw => ?_, fun k rest hp => absurd hp (by simp)⟩
      rcases hP.joins ht.base hb hk with h | rfl | ⟨j, hl, -⟩
      · exact ht.joined k h w hw
      · exact absurd hw (Nat.not_lt_zero _)
      · exact absurd (hP.actor_shutdown.symm.trans hl) (by simp)
    · exact absurd hst (by simp)
  | free order =>
    simp only [Lifecycle.step] at hst
    split at hst
    · split_ifs at hst with hret
      obtain rfl := Option.some.inj hst
      exact ⟨ht.base, ht.joined, fun _ _ _ w _ => ht.joined N hret.1 w w.2⟩
    · exact absurd hst (by simp)
  | next =>
    simp only [Lifecycle.step] at hst
    split at hst
    · rename_i k w rest hphase
      split_ifs at hst
      obtain rfl := Option.some.inj hst
      refine ⟨ht.base, ht.joined, fun k' rest' hp u hu => ?_⟩
      obtain ⟨-, rfl⟩ := Phase.freeing.inj hp
      exact ht.freeing k _ hphase u (List.mem_cons_of_mem _ hu)
    · exact absurd hst (by simp)

theorem reachable_tidy (hP : P.Lawful) (h : (machine P).ReachableUnder Sparing s) : Tidy s := by
  refine h.invariant (fun s hs => ?_) fun _ _ _ _ hok hst ht => ht.step hP hok hst
  obtain ⟨b, hb, rfl⟩ := hs
  refine ⟨⟨[], b, hb, .nil⟩, fun k hk => ?_, fun k rest hp => absurd hp (by simp)⟩
  exact absurd ((hP.init hb).1.symm.trans hk) (by simp)

/-- Where no notification is lost to the scheduler with its life cycle, none is to the scheduler. -/
theorem reachable_settled (h : (machine P).ReachableUnder Calm s) :
    P.machine.ReachableUnder (fun b l => P.settled b l = true) s.base := by
  refine h.invariant
    (I := fun s => P.machine.ReachableUnder (fun b l => P.settled b l = true) s.base)
    (fun s hs => ?_) fun s l s' _ hok hst hi => ?_
  · obtain ⟨b, hb, rfl⟩ := hs
    exact ⟨[], b, hb, .nil⟩
  · cases l with
    | base l =>
      simp only [machine, step] at hst
      split_ifs at hst
      obtain ⟨b, hb, rfl⟩ := Option.map_eq_some_iff.mp hst
      exact hi.next hok hb
    | destroy =>
      simp only [machine, step] at hst
      split at hst
      · obtain ⟨b, hb, rfl⟩ := Option.map_eq_some_iff.mp hst
        exact hi.next hok hb
      · exact absurd hst (by simp)
    | create =>
      simp only [machine, step] at hst
      split at hst
      · obtain rfl := Option.some.inj hst
        exact hi
      · exact absurd hst (by simp)
    | throw | free | next =>
      simp only [machine, step] at hst
      split at hst
      · split_ifs at hst
        obtain rfl := Option.some.inj hst
        exact hi
      · exact absurd hst (by simp)

/-- While the constructor runs, `shutdown` is not called. -/
theorem reachable_constructing (hP : P.Lawful) (h : (machine P).Reachable s) :
    P.machine.Reachable s.base ∧
      ∀ k, s.phase = .constructing k → P.flag s.base = false ∧ ∀ w, s.joined w = false := by
  refine h.invariant (I := fun s => P.machine.Reachable s.base ∧ ∀ k, s.phase = .constructing k →
    P.flag s.base = false ∧ ∀ w, s.joined w = false) (fun s hs => ?_) fun s l s' _ _ hst hi => ?_
  · obtain ⟨b, hb, rfl⟩ := hs
    exact ⟨⟨[], b, hb, .nil⟩, fun _ _ => ⟨(hP.init hb).2, fun _ => rfl⟩⟩
  · cases l with
    | base l =>
      simp only [machine, step] at hst
      split_ifs at hst with hallows
      obtain ⟨b, hb, rfl⟩ := Option.map_eq_some_iff.mp hst
      refine ⟨hi.1.next hb, fun k hp => ?_⟩
      have hp : s.phase = .constructing k := hp
      obtain ⟨hflag, hjoined⟩ := hi.2 k hp
      -- only the workers that were started move
      have hactor : ∃ w, P.actor l = .worker w := by
        simp only [State.allows, hp] at hallows
        cases hl : P.actor l with
        | worker w => exact ⟨w, rfl⟩
        | shutdown | control | outside =>
          rw [hl] at hallows
          exact absurd hallows (by simp)
      obtain ⟨w, hw⟩ := hactor
      refine ⟨(hP.quiet hi.1 hb (by simp [hw])).trans hflag, fun u => ?_⟩
      show s.joinedAfter l u = false
      simp only [State.joinedAfter, hw, hjoined]
    | create =>
      simp only [machine, step] at hst
      split at hst
      · rename_i k hp
        obtain rfl := Option.some.inj hst
        exact ⟨hi.1, fun _ _ => hi.2 k hp⟩
      · exact absurd hst (by simp)
    | throw order =>
      simp only [machine, step] at hst
      split at hst
      · split_ifs at hst
        obtain rfl := Option.some.inj hst
        exact ⟨hi.1, fun k hp => absurd hp (by simp)⟩
      · exact absurd hst (by simp)
    | destroy =>
      simp only [machine, step] at hst
      split at hst
      · obtain ⟨b, hb, rfl⟩ := Option.map_eq_some_iff.mp hst
        exact ⟨hi.1.next hb, fun k hp => absurd hp (by simp)⟩
      · exact absurd hst (by simp)
    | free order =>
      simp only [machine, step] at hst
      split at hst
      · split_ifs at hst
        obtain rfl := Option.some.inj hst
        exact ⟨hi.1, fun k hp => absurd hp (by simp)⟩
      · exact absurd hst (by simp)
    | next =>
      simp only [machine, step] at hst
      split at hst
      · split_ifs at hst
        obtain rfl := Option.some.inj hst
        exact ⟨hi.1, fun k hp => absurd hp (by simp)⟩
      · exact absurd hst (by simp)

/-! ### In the four backends -/

namespace IdleSignal

/-- What a step of a scheduler on an `IdleSignal` does to its `shutdown`. -/
inductive Turn (N : ℕ) (control : Prop) (c : ControlPc) (flag : Bool) :
    ControlPc → Bool → Prop
  | keep : Turn N control c flag c flag
  | call : Turn N control c flag .store flag
  | store : control → c = .store → Turn N control c flag .ring true
  | ring : control → c = .ring → Turn N control c flag (joinNext N 0) flag
  | join {k} : control → k < N → c = .join k → Turn N control c flag (joinNext N (k + 1)) flag

variable {control : Prop} {c c' : ControlPc} {flag flag' : Bool}

theorem Turn.of_eq (hc : c' = c) (hflag : flag' = flag) : Turn N control c flag c' flag' := by
  subst hc hflag
  exact .keep

theorem progress_joinNext {k j : ℕ} (hk : k ≤ N) (h : progress N (joinNext N k) = some j) :
    j = k := by
  unfold joinNext at h
  split_ifs at h with hlt
  · exact (Option.some.inj h).symm
  · have := Option.some.inj h
    omega

/-- A worker that is joined is the next one of `shutdown`. -/
theorem progress_eq_join {w : Fin N} (h : progress N c = some w.1) : c = .join w.1 := by
  cases c with
  | join k => exact congrArg ControlPc.join (Option.some.inj h)
  | returned => exact absurd (Option.some.inj h) w.2.ne'
  | idle | store | ring => exact absurd h (by simp [progress])

theorem Turn.joins (h : Turn N control c flag c' flag') {k : ℕ} (hk : progress N c' = some k) :
    progress N c = some k ∨ k = 0 ∨ ∃ j, control ∧ progress N c = some j ∧ k = j + 1 := by
  cases h with
  | keep => exact .inl hk
  | call | store => exact absurd hk (by simp [progress])
  | ring => exact .inr (.inl (progress_joinNext (Nat.zero_le N) hk))
  | @join j hcontrol hj hc =>
    exact .inr (.inr ⟨j, hcontrol, by rw [hc]; rfl, progress_joinNext hj hk⟩)

theorem Turn.quiet (h : Turn N control c flag c' flag') (hcontrol : ¬ control) : flag' = flag := by
  cases h with
  | keep | call => rfl
  | store h | ring h | join h => exact absurd h hcontrol

end IdleSignal

section Backends

variable {ω : Type} [DecidableEq ω]

open IdleSignal in
theorem workStealing_turn {s s' : WorkStealing.State N ω} {l : WorkStealing.Label N ω}
    (h : WorkStealing.Move s l s') : Turn N (WorkStealing.actor l = .control) s.control
      s.shutdownFlag s'.control s'.shutdownFlag := by
  cases h with
  | shutdown => exact .call
  | store hc => exact .store rfl hc
  | controlRing hc => exact .ring rfl hc
  | join hk hc => exact .join rfl hk hc
  | @clientStep c call => cases call <;> exact .keep
  | @nestedStep w job call => cases call <;> exact .keep
  | _ => exact .keep

/-- The generation has not come around. -/
theorem workStealing_gen_lt {s : WorkStealing.State N ω}
    (h : (WorkStealing.machine N ω).ReachableUnder
      (fun s l => (workStealing N ω).settled s l = true) s) : s.gen < 2 ^ 64 := by
  refine h.invariant (I := fun s : WorkStealing.State N ω => s.gen < 2 ^ 64) (fun s hs => ?_)
    fun s l s' hr hok hst _ => ?_
  · have hs : WorkStealing.construct N ω = some s := hs
    unfold WorkStealing.construct at hs
    split_ifs at hs
    obtain ⟨d, -, rfl⟩ := Option.map_eq_some_iff.mp hs
    exact Nat.two_pow_pos 64
  · have hle := (WorkStealing.step_move (WorkStealing.reachable_linked hr.reachable) hst).gen_le
    exact hle.trans_lt (of_decide_eq_true hok)

omit [DecidableEq ω] in
/-- Who was told was notified, whatever it does since. -/
theorem workStealing_notified {s : WorkStealing.State N ω} {w : Fin N}
    (ht : Told (WorkStealing.idling N) s.gen s.shutdownFlag s.pending s.worker)
    (hgen : s.gen < 2 ^ 64) : WorkStealing.notified s w := fun hw =>
  ht.pending w <| show (WorkStealing.idling N).asleep (s.worker w) = some s.gen by
    rw [hw, Nat.mod_eq_of_lt hgen]
    rfl

theorem workStealing_lawful (N : ℕ) (ω : Type) [DecidableEq ω] : (workStealing N ω).Lawful where
  actor_shutdown := rfl
  init {s} h := by
    have h : WorkStealing.construct N ω = some s := h
    unfold WorkStealing.construct at h
    split_ifs at h
    obtain ⟨d, -, rfl⟩ := Option.map_eq_some_iff.mp h
    exact ⟨rfl, rfl⟩
  quiet hr hst := (workStealing_turn (WorkStealing.step_move
    (WorkStealing.reachable_linked hr) hst)).quiet
  told {s} hr w hk := by
    have hgen := workStealing_gen_lt hr
    have htold := (WorkStealing.reachable_warned hr.reachable).told
      (.inl ⟨w.1, IdleSignal.progress_eq_join hk⟩)
    exact ⟨htold.flag, workStealing_notified htold hgen⟩
  joins hr hst := (workStealing_turn (WorkStealing.step_move
    (WorkStealing.reachable_linked hr) hst)).joins

open IdleSignal in
theorem fair_turn {s s' : Fair.State ℚ N ω} {l : Fair.Label ℚ N ω} (h : Fair.Move s l s') :
    Turn N (Fair.actor l = .control) s.control s.shutdownFlag s'.control s'.shutdownFlag := by
  cases h with
  | shutdown => exact .call
  | store hc => exact .store rfl hc
  | controlRing hc => exact .ring rfl hc
  | joinWorker hk hc => exact .join rfl hk hc
  | clientStep _ hsub | nestedStep _ hsub =>
    obtain ⟨-, -, hcon, hflag, -⟩ := hsub.frame
    exact .of_eq hcon hflag
  | _ => exact .keep

/-- The generation has not come around. -/
theorem fair_gen_lt {s : Fair.State ℚ N ω}
    (h : (Fair.machine ℚ N ω).ReachableUnder (fun s l => (fair N ω).settled s l = true) s) :
    s.gen < 2 ^ 64 := by
  refine h.invariant (I := fun s : Fair.State ℚ N ω => s.gen < 2 ^ 64) (fun s hs => ?_)
    fun s l s' _ hok hst _ => (Fair.step_move hst).gen_le.trans_lt (of_decide_eq_true hok)
  have hs : Fair.construct ℚ N ω = some s := hs
  unfold Fair.construct at hs
  split_ifs at hs
  obtain rfl := Option.some.inj hs
  exact Nat.two_pow_pos 64

omit [DecidableEq ω] in
theorem fair_notified {s : Fair.State ℚ N ω} {w : Fin N} (ht : s.Told) (hgen : s.gen < 2 ^ 64) :
    Fair.notified s w := fun hw =>
  ht.pending w <| show (Fair.idling ℚ).asleep (s.worker w) = some s.gen by
    rw [hw, Nat.mod_eq_of_lt hgen]
    rfl

theorem fair_lawful (N : ℕ) (ω : Type) [DecidableEq ω] : (fair N ω).Lawful where
  actor_shutdown := rfl
  init {s} h := by
    have h : Fair.construct ℚ N ω = some s := h
    unfold Fair.construct at h
    split_ifs at h
    obtain rfl := Option.some.inj h
    exact ⟨rfl, rfl⟩
  quiet _ hst := (fair_turn (Fair.step_move hst)).quiet
  told {s} hr w hk := by
    have hgen := fair_gen_lt hr
    have htold := (Fair.reachable_joining hr.reachable _ (IdleSignal.progress_eq_join hk)).2
    exact ⟨htold.flag, fair_notified htold hgen⟩
  joins _ hst := (fair_turn (Fair.step_move hst)).joins

section Monitor

variable {K : ℕ} {Q : Type} {L : Monitor.Layout N K Q}

omit [DecidableEq ω] in
theorem monitor_progress_joinNext {k j : ℕ} (hk : k ≤ N)
    (h : Monitor.progress N (Monitor.joinNext N k) = some j) : j = k := by
  unfold Monitor.joinNext at h
  split_ifs at h with hlt
  · exact (Option.some.inj h).symm
  · have := Option.some.inj h
    omega

omit [DecidableEq ω] in
/-- A worker that is joined is the next one of `shutdown`. -/
theorem monitor_progress_eq_join {c : Monitor.ControlPc} {w : Fin N}
    (h : Monitor.progress N c = some w.1) : c = .join w.1 := by
  cases c with
  | join k => exact congrArg Monitor.ControlPc.join (Option.some.inj h)
  | returned => exact absurd (Option.some.inj h) w.2.ne'
  | idle | store | notify => exact absurd h (by simp [Monitor.progress])

/-- The `shutdown` of these backends joins the workers in their order. -/
theorem monitor_joins {s s' : Monitor.State N K Q ω} {l : Monitor.Label N ω}
    (h : Monitor.Move L s l s') {k : ℕ} (hk : Monitor.progress N s'.control = some k) :
    Monitor.progress N s.control = some k ∨ k = 0 ∨
      ∃ j, Monitor.actor l = .control ∧ Monitor.progress N s.control = some j ∧ k = j + 1 := by
  have hnext : ∀ {j}, Monitor.progress N (Monitor.notifyNext N K j) = some k → k = 0 := by
    intro j h
    unfold Monitor.notifyNext at h
    split_ifs at h
    · exact absurd h (by simp [Monitor.progress])
    · exact monitor_progress_joinNext (Nat.zero_le N) h
  cases h with
  | shutdown => exact absurd hk (by simp [Monitor.progress])
  | store | notifyAll => exact .inr (.inl (hnext hk))
  | @join j hj hc =>
    exact .inr (.inr ⟨j, rfl, by rw [hc]; rfl, monitor_progress_joinNext hj hk⟩)
  | clientStep _ hsub | nestedStep _ hsub =>
    obtain ⟨-, -, hcon, -⟩ := hsub.frame
    exact .inl (hcon ▸ hk)
  | _ => exact .inl hk

theorem settled_of_monitor {s : Monitor.State N K Q ω} {l : Monitor.Label N ω}
    (h : (monitor L ω).settled s l = true) : Monitor.Settled L s l := of_decide_eq_true h

theorem monitor_quiet {s s' : Monitor.State N K Q ω} {l : Monitor.Label N ω}
    (h : Monitor.Move L s l s') (hl : Monitor.actor l ≠ .control) :
    s'.shutdownFlag = s.shutdownFlag := by
  cases h with
  | store => exact absurd rfl hl
  | clientStep _ hsub | nestedStep _ hsub =>
    obtain ⟨-, -, -, hflag, -⟩ := hsub.frame
    exact hflag
  | _ => rfl

theorem monitor_lawful (L : Monitor.Layout N K Q) (ω : Type) [DecidableEq ω] :
    (monitor L ω).Lawful where
  actor_shutdown := rfl
  init {s} h := by
    have h : Monitor.construct L ω = some s := h
    unfold Monitor.construct at h
    split_ifs at h
    obtain rfl := Option.some.inj h
    exact ⟨rfl, rfl⟩
  quiet _ hst := monitor_quiet (Monitor.step_move hst)
  told {s} hr w hk := by
    have htold : Monitor.Told L s :=
      Monitor.reachable_told (hr.mono fun _ _ => settled_of_monitor)
    have hc : s.control.told (L.core w) := by
      rw [monitor_progress_eq_join hk]
      trivial
    exact ⟨htold.flag_of_told hc, htold.awake w hc⟩
  joins _ hst := monitor_joins (Monitor.step_move hst)

end Monitor

theorem pool_lawful (N : ℕ) [NeZero N] (ω : Type) [DecidableEq ω] :
    ∀ k : Spawn.Kind, (pool N ω k).Lawful
  | .workStealing => workStealing_lawful N ω
  | .fair => fair_lawful N ω
  | .globalQueue => monitor_lawful _ ω
  | .threadPerCore => monitor_lawful _ ω

end Backends

/-! ## Results -/

/-- **No scheduler is torn down while its workers cannot stop, if no thread creation throws but the
first.** The destruction of `workers_` joins no worker that was not told to stop; and where no
notification is lost, the `shutdown` that the destructor calls before joins none either. -/
theorem teardown_safe [NeZero N] {ω : Type} [DecidableEq ω] {k : Spawn.Kind}
    {s : State (pool N ω k)} :
    ((machine (pool N ω k)).ReachableUnder Sparing s → Safe s) ∧
      ((machine (pool N ω k)).ReachableUnder (fun s l => Sparing s l ∧ Calm s l) s →
        ∀ w, s.Awaited w → s.Told w) := by
  have hP := pool_lawful N ω k
  have hsafe : ∀ {s}, (machine (pool N ω k)).ReachableUnder Sparing s → Safe s := by
    rintro s h w ⟨j, rest, hphase, hnot⟩
    have hjoined := (reachable_tidy hP h).freeing j _ hphase w List.mem_cons_self
    exact absurd (hnot.symm.trans hjoined) (by simp)
  refine ⟨hsafe, fun h w => ?_⟩
  rintro (hw | ⟨-, hw⟩)
  · exact hsafe (h.mono fun _ _ hok => hok.1) w hw
  · exact hP.told (reachable_settled (h.mono fun _ _ hok => hok.2)) hw

/-- **Where another thread creation throws, a worker is joined that cannot stop.** -/
theorem throw_unsafe [NeZero N] {ω : Type} [DecidableEq ω] {k : Spawn.Kind}
    {s s' : State (pool N ω k)} (h : (machine (pool N ω k)).Reachable s) {order : List (Fin N)}
    (hok : ¬ Sparing s (.throw order)) (hst : step s (.throw order) = some s') : ¬ Safe s' := by
  obtain ⟨-, hfresh⟩ := reachable_constructing (pool_lawful N ω k) h
  simp only [step] at hst
  split at hst
  · rename_i j hphase
    split_ifs at hst with hperm
    obtain rfl := Option.some.inj hst
    obtain ⟨hflag, hjoined⟩ := hfresh j hphase
    have hj : 0 < j := Nat.pos_of_ne_zero fun h0 => hok (hphase.trans (congrArg _ h0))
    have hmem : (⟨0, Nat.pos_of_ne_zero (NeZero.ne N)⟩ : Fin N) ∈ order :=
      hperm.mem_iff.mpr (List.mem_filter.mpr ⟨List.mem_finRange _, decide_eq_true hj⟩)
    cases order with
    | nil => exact absurd hmem List.not_mem_nil
    | cons w rest =>
      intro hs
      have hset := (hs w ⟨j, rest, rfl, hjoined w⟩).1
      exact absurd (hflag.symm.trans hset) (by simp)
  · exact absurd hst (by simp)

/-- The constructor starts the first worker, and the creation of the second throws. -/
theorem unwinding_unsafe : ¬ ∀ s : State (pool 2 Unit .globalQueue),
    (machine (pool 2 Unit .globalQueue)).Reachable s → Safe s := by
  intro h
  let M := machine (pool 2 Unit .globalQueue)
  let s₀ : State (pool 2 Unit .globalQueue) :=
    ⟨(Monitor.construct (Monitor.globalQueue 2) Unit).get (by decide), .constructing 0,
      fun _ => false⟩
  have h₀ : M.init s₀ := ⟨_, (Option.some_get _).symm, rfl⟩
  let s := (M.exec s₀ [.create, .throw [⟨0, Nat.two_pos⟩]]).get (by decide +kernel)
  have hs := h s (Machine.reachable_of_exec h₀ (Option.some_get _).symm) ⟨0, Nat.two_pos⟩
    ⟨1, [], by decide +kernel, by decide +kernel⟩
  exact absurd hs.1 (by decide +kernel)

/-- Both workers are started and go to sleep; then the destructor sets the flag and notifies. -/
def sleepThenDestroy : List (Label (pool 2 Unit .globalQueue)) :=
  let turn (w : Fin 2) : Label (pool 2 Unit .globalQueue) :=
    .base (show Monitor.Label 2 Unit from .worker w none)
  let control : Label (pool 2 Unit .globalQueue) := .base (show Monitor.Label 2 Unit from .control)
  [.create, .create] ++ List.replicate 4 (turn ⟨0, Nat.two_pos⟩) ++
    List.replicate 4 (turn ⟨1, Nat.one_lt_two⟩) ++ [.destroy, control, control]

/-- They wake up and leave; `shutdown` joins them and returns, and their threads are destroyed. -/
def leaveThenFree : List (Label (pool 2 Unit .globalQueue)) :=
  let turn (w : Fin 2) : Label (pool 2 Unit .globalQueue) :=
    .base (show Monitor.Label 2 Unit from .worker w none)
  let control : Label (pool 2 Unit .globalQueue) := .base (show Monitor.Label 2 Unit from .control)
  List.replicate 4 (turn ⟨1, Nat.one_lt_two⟩) ++ List.replicate 4 (turn ⟨0, Nat.two_pos⟩) ++
    [control, control, .free [⟨1, Nat.one_lt_two⟩, ⟨0, Nat.two_pos⟩]]

theorem teardown_safe_two : ∃ s t : State (pool 2 Unit .globalQueue),
    (machine (pool 2 Unit .globalQueue)).ReachableUnder (fun s l => Sparing s l ∧ Calm s l) s ∧
      s.Awaited ⟨0, Nat.two_pos⟩ ∧ s.Told ⟨0, Nat.two_pos⟩ ∧
      (machine (pool 2 Unit .globalQueue)).ReachableUnder Sparing t ∧
      t.phase = .freeing 2 [⟨1, Nat.one_lt_two⟩, ⟨0, Nat.two_pos⟩] ∧ Safe t := by
  let M := machine (pool 2 Unit .globalQueue)
  let s₀ : State (pool 2 Unit .globalQueue) :=
    ⟨(Monitor.construct (Monitor.globalQueue 2) Unit).get (by decide), .constructing 0,
      fun _ => false⟩
  have h₀ : M.init s₀ := ⟨_, (Option.some_get _).symm, rfl⟩
  let s := (M.execUnder (fun s l => Sparing s l ∧ Calm s l) s₀ sleepThenDestroy).get
    (by decide +kernel)
  let t := (M.execUnder Sparing s leaveThenFree).get (by decide +kernel)
  have hs : M.ReachableUnder (fun s l => Sparing s l ∧ Calm s l) s :=
    ⟨_, s₀, h₀, Machine.execUnder_path (Option.some_get _).symm⟩
  have ht : M.ReachableUnder Sparing t :=
    (hs.mono fun _ _ hok => hok.1).path (Machine.execUnder_path (Option.some_get _).symm)
  have hawaited : s.Awaited ⟨0, Nat.two_pos⟩ := .inr (by decide +kernel)
  exact ⟨s, t, hs, hawaited, teardown_safe.2 hs _ hawaited, ht, by decide +kernel,
    teardown_safe.1 ht⟩

end Wss.Lifecycle
