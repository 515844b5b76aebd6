import Mathlib.Algebra.BigOperators.Fin
import Wss.WorkStealing.Account
import Wss.WorkStealing.Failure

/-!
# A scheduler in which calls of `submit` have thrown

A call that throws has counted its job, and nobody will uncount it. To the others it looks like a
call that was interrupted before `Injector::push` and never goes on: `haunt s lost` is the state `s`
with such a call for each job of `lost`, in threads of their own. The steps of the scheduler are
those of the haunted one (`Move.haunt`), and a call that throws is one that such a thread takes
over, so the account of the jobs holds there: `Haunted`.

Results:
* `Move.haunt`: the steps of the scheduler are those of the haunted one.
* `failing_never_stops`: after a call has thrown no worker leaves any more, so `shutdown` does not
  return while a worker is still in the pool. The other jobs run once, as ever.
-/

namespace Wss.WorkStealing

open Wss.Lib

variable {N : ℕ} {ω : Type}

/-- The job of a call of `submit` that throws. -/
def thrown (s : State N ω) : FailLabel N ω → List ℕ
  | .run _ => []
  | .client c _ =>
    match s.client c with
    | some (.push job _) => [job]
    | _ => []
  | .nested w _ =>
    match s.worker w with
    | .body _ (some (.push job _)) => [job]
    | _ => []

/-- The state with a call that never goes on for each job of `lost`. -/
def haunt (s : State N ω) (lost : List ℕ) : State N (ω ⊕ Fin lost.length) where
  deque := s.deque
  injector := s.injector
  pending := s.pending
  shutdownFlag := s.shutdownFlag
  gen := s.gen
  worker := s.worker
  client := Sum.elim s.client fun i => some (.push lost[i] .normal)
  control := s.control
  next := s.next
  rung := s.rung
  returned := s.returned
  started := s.started
  finished := s.finished
  winners := s.winners
  lost := s.lost

/-- The same step where there are more threads. -/
def Label.among {κ : Type} : Label N ω → Label N (ω ⊕ κ)
  | .client c p => .client (.inl c) p
  | .clientStep c => .clientStep (.inl c)
  | .nested w p => .nested w p
  | .finish w => .finish w
  | .worker w => .worker w
  | .shutdown => .shutdown
  | .control => .control

variable {s s' s₀ : State N ω} {lost : List ℕ} {l : Label N ω} {w : Fin N}

theorem throwSubmit_eq_some {call : SubmitPc} {site : Site}
    (h : throwSubmit s site call = some s') :
    s' = s ∧ ∃ job p, call = .push job p := by
  cases call with
  | push job p => exact ⟨(Option.some.inj (throwSubmit_push.symm.trans h)).symm, job, p, rfl⟩
  | count | ring | done => exact absurd h (by simp [throwSubmit])

/-- What a step does where allocations may fail: the scheduler's own, or a call is over that has not
pushed its job. -/
theorem stepFailing_cases [DecidableEq ω] {l : FailLabel N ω} (h : stepFailing s l = some s') :
    (∃ l', l = .run l' ∧ step s l' = some s') ∨
    (∃ c site job p, l = .client c site ∧ s.client c = some (.push job p) ∧
      s' = { s with client := Function.update s.client c none }) ∨
    ∃ w site running job p, l = .nested w site ∧
      s.worker w = .body running (some (.push job p)) ∧
        s' = s.setWorker w (.body running none) := by
  cases l with
  | run l => exact .inl ⟨l, rfl, h⟩
  | client c site =>
    obtain ⟨call, hc, hst⟩ := Option.bind_eq_some_iff.mp h
    obtain ⟨t, ht, rfl⟩ := Option.map_eq_some_iff.mp hst
    obtain ⟨rfl, job, p, rfl⟩ := throwSubmit_eq_some ht
    exact .inr (.inl ⟨c, site, job, p, rfl, hc, rfl⟩)
  | nested w site =>
    simp only [stepFailing] at h
    split at h
    · rename_i running call hw
      obtain ⟨t, ht, rfl⟩ := Option.map_eq_some_iff.mp h
      obtain ⟨rfl, job, p, rfl⟩ := throwSubmit_eq_some ht
      exact .inr (.inr ⟨w, site, running, job, p, rfl, hw, rfl⟩)
    · exact absurd h (by simp)

theorem stepSubmit_haunt (s : State N ω) (lost : List ℕ) (call : SubmitPc) :
    stepSubmit (haunt s lost) call = (haunt (stepSubmit s call).1 lost, (stepSubmit s call).2) := by
  cases call <;> rfl

section Moves

variable [DecidableEq ω]

/-- A thread of the scheduler changes its call. -/
theorem update_haunt (s : State N ω) (lost : List ℕ) (c : ω) (call : Option SubmitPc) :
    Function.update (haunt s lost).client (.inl c) call =
      Sum.elim (Function.update s.client c call) fun i => some (.push lost[i] .normal) :=
  Sum.update_elim_inl

/-- **The steps of the scheduler are those of the haunted one.** -/
theorem Move.haunt (h : Move s l s') (lost : List ℕ) :
    Move (haunt s lost) l.among (haunt s' lost) := by
  cases h with
  | @client c p hc =>
    have hmove := Move.client (s := WorkStealing.haunt s lost) (c := .inl c) (p := p) hc
    rw [update_haunt] at hmove
    exact hmove
  | @clientStep c call hc =>
    have hmove := Move.clientStep (s := WorkStealing.haunt s lost) (c := .inl c) hc
    rw [stepSubmit_haunt, update_haunt] at hmove
    exact hmove
  | nested hw => exact .nested hw
  | @nestedStep w job call hw =>
    have hmove := Move.nestedStep (s := WorkStealing.haunt s lost) hw
    rw [stepSubmit_haunt] at hmove
    exact hmove
  | finish hw => exact .finish hw
  | current hw => exact .current hw
  | ownDone hw => exact .ownDone hw
  | pop hw hi hst => exact .pop hw hi hst
  | popNone hw hi hst => exact .popNone hw hi hst
  | popJob hw hi hst => exact .popJob hw hi hst
  | injectDone hw => exact .injectDone hw
  | injectNone hw hq => exact .injectNone hw hq
  | injectJob hw hi hq hlen ha => exact .injectJob hw hi hq hlen ha
  | stealDone hw => exact .stealDone hw
  | steal hw hi hst hlost => exact .steal hw hi hst hlost
  | stealNone hw hi hst => exact .stealNone hw hi hst
  | stealJob hw hi hst => exact .stealJob hw hi hst
  | uncount hw => exact .uncount hw
  | ring hw => exact .ring hw
  | flag hw hf => exact .flag hw hf
  | noFlag hw hf => exact .noFlag hw hf
  | noPending hw hp => exact .noPending hw hp
  | pending hw hp => exact .pending hw hp
  | wake hw hg => exact .wake hw hg
  | shutdown hc => exact .shutdown hc
  | store hc => exact .store hc
  | controlRing hc => exact .controlRing hc
  | join hk hc hw => exact .join hk hc hw

end Moves

/-! ## The account of the jobs -/

section Owing

variable [Fintype ω] {μ : ℕ → ℕ}

/-- The threads that never go on have the lost jobs in their hands. -/
theorem sum_lost (μ : ℕ → ℕ) : ∀ lost : List ℕ, ∑ i : Fin lost.length, μ lost[i] = mass μ lost
  | [] => rfl
  | x :: lost => (Fin.sum_univ_succ _).trans (congrArg (μ x + ·) (sum_lost μ lost))

theorem unpushed_haunt (μ : ℕ → ℕ) (s : State N ω) (lost : List ℕ) :
    unpushed μ (haunt s lost) = unpushed μ s + mass μ lost := by
  unfold unpushed
  rw [Fintype.sum_sum_type]
  show ∑ c, callMass μ (s.client c) + ∑ i : Fin lost.length, μ lost[i] + _ = _
  rw [sum_lost]
  exact Nat.add_right_comm _ _ _

theorem countedCalls_haunt (s : State N ω) (lost : List ℕ) :
    countedCalls (haunt s lost) = countedCalls s + lost.length := by
  unfold countedCalls
  rw [Fintype.sum_sum_type]
  show ∑ c, callCount (s.client c) + ∑ _ : Fin lost.length, 1 + _ = _
  rw [Finset.sum_const, Finset.card_univ, Fintype.card_fin, smul_eq_mul, Nat.mul_one]
  exact Nat.add_right_comm _ _ _

/-- The account of the haunted state is that of the state, with the lost jobs beside it. -/
theorem account_haunt : Account (haunt s lost) ↔
    (∀ μ, queued μ s + mass μ s.started + (unpushed μ s + mass μ lost) =
      mass μ (List.range s.next)) ∧
    (∀ μ, mass μ s.started = mass μ s.finished + ∑ w, (s.worker w).running μ) ∧
    s.pending = queued (fun _ => 1) s + (countedCalls s + lost.length) +
      ∑ w, (s.worker w).busy := by
  constructor
  · intro ha
    refine ⟨fun μ => ?_, ha.bodies, ?_⟩
    · rw [← unpushed_haunt]
      exact ha.jobs μ
    · rw [← countedCalls_haunt]
      exact ha.pending
  · rintro ⟨hjobs, hbodies, hpending⟩
    refine ⟨fun μ => ?_, hbodies, ?_⟩
    · rw [unpushed_haunt]
      exact hjobs μ
    · rw [countedCalls_haunt]
      exact hpending

variable {job : ℕ} {p : Priority}

/-- A call outside the pool that throws goes over to a thread that never goes on. -/
theorem Account.throw_client [DecidableEq ω] (ha : Account (haunt s lost)) {c : ω}
    (hc : s.client c = some (.push job p)) :
    Account (haunt { s with client := Function.update s.client c none } (lost ++ [job])) := by
  obtain ⟨hjobs, hbodies, hpending⟩ := account_haunt.mp ha
  refine account_haunt.mpr ⟨fun μ => ?_, hbodies, ?_⟩
  · have hsum := sum_update (callMass μ) s.client c none
    have hmass := hjobs μ
    simp only [unpushed, hc, callMass, mass_append, mass_cons, mass_nil] at hsum hmass ⊢
    show queued μ s + _ + _ = _
    omega
  · have hsum := sum_update callCount s.client c none
    simp only [countedCalls, hc, callCount, List.length_append,
      List.length_singleton] at hsum hpending ⊢
    show s.pending = queued (fun _ => 1) s + _ + _
    omega

/-- So does one of a running job. -/
theorem Account.throw_nested (ha : Account (haunt s lost)) {running : ℕ}
    (hw : s.worker w = .body running (some (.push job p))) :
    Account (haunt (s.setWorker w (.body running none)) (lost ++ [job])) := by
  obtain ⟨hjobs, hbodies, hpending⟩ := account_haunt.mp ha
  refine account_haunt.mpr ⟨fun μ => ?_, fun μ => ?_, ?_⟩
  · have hsum := sum_update (fun pc : WorkerPc N => callMass μ pc.call) s.worker w
      (.body running none)
    have hmass := hjobs μ
    simp only [unpushed, hw, callMass, WorkerPc.call, State.setWorker, mass_append, mass_cons,
      mass_nil] at hsum hmass ⊢
    show queued μ s + _ + _ = _
    omega
  · have hsum := sum_update (fun pc : WorkerPc N => pc.running μ) s.worker w (.body running none)
    have hmass := hbodies μ
    simp only [hw, WorkerPc.running, State.setWorker] at hsum hmass ⊢
    omega
  · have hsum := sum_update (fun pc : WorkerPc N => callCount pc.call) s.worker w
      (.body running none)
    have hbusy := sum_update WorkerPc.busy s.worker w (.body running none)
    simp only [countedCalls, hw, callCount, WorkerPc.call, WorkerPc.busy, State.setWorker,
      List.length_append, List.length_singleton] at hsum hbusy hpending ⊢
    show s.pending = queued (fun _ => 1) s + _ + _
    omega

end Owing

/-! ## Runs -/

section Runs

variable [DecidableEq ω]

/-- No worker comes back. -/
theorem Move.exited (h : Move s l s') (hw : s.worker w = .exited) : s'.worker w = .exited := by
  have hother : ∀ {u : Fin N} (pc : WorkerPc N), s.worker u ≠ .exited →
      Function.update s.worker u pc w = .exited := by
    intro u pc hu
    rw [Function.update_of_ne fun hwu : w = u => hu (hwu ▸ hw)]
    exact hw
  cases h with
  | client | pop | steal | shutdown | store | controlRing | join => exact hw
  | @clientStep c call =>
    rw [(stepSubmit_frame s call).2.2]
    exact hw
  | @nestedStep u job call hu =>
    show Function.update (stepSubmit s call).1.worker u _ w = _
    rw [(stepSubmit_frame s call).2.2]
    exact hother _ (by simp [hu])
  | nested hu | finish hu | current hu | ownDone hu | popNone hu | popJob hu | injectDone hu
  | injectNone hu | injectJob hu | stealDone hu | stealNone hu | stealJob hu | uncount hu | ring hu
  | flag hu | noFlag hu | noPending hu | pending hu | wake hu => exact hother _ (by simp [hu])

/-- A worker that leaves has read `pending` at `0`. -/
theorem Move.leaves (h : Move s l s') (hw : s.worker w ≠ .exited) (hw' : s'.worker w = .exited) :
    s.pending = 0 := by
  have hself : ∀ {u : Fin N} {pc : WorkerPc N}, pc ≠ .exited →
      Function.update s.worker u pc w ≠ .exited := by
    intro u pc hpc
    by_cases hwu : w = u
    · rw [hwu, Function.update_self]
      exact hpc
    · rw [Function.update_of_ne hwu]
      exact hw
  cases h with
  | noPending _ hp => exact hp
  | client | pop | steal | shutdown | store | controlRing | join => exact absurd hw' hw
  | @clientStep c call =>
    rw [(stepSubmit_frame s call).2.2] at hw'
    exact absurd hw' hw
  | @nestedStep u job call =>
    have hupd : Function.update s.worker u (.body job (stepSubmit s call).2) w = .exited := by
      rw [← (stepSubmit_frame s call).2.2]
      exact hw'
    exact absurd hupd (hself (by simp))
  | nested | finish | current | ownDone | popNone | popJob | injectDone | injectNone | injectJob
  | stealDone | stealNone | stealJob | uncount | ring | flag | noFlag | pending | wake =>
    exact absurd hw' (hself (by simp))

/-- What a step does to `shutdown`. -/
theorem Move.control (h : Move s l s') : s'.control = s.control ∨ s'.control = .store ∨
    s'.control = .ring ∨ s'.control = joinNext N 0 ∨
    ∃ k, ∃ hk : k < N, s.control = .join k ∧ s.worker ⟨k, hk⟩ = .exited ∧
      s'.control = joinNext N (k + 1) := by
  cases h with
  | shutdown => exact .inr (.inl rfl)
  | store => exact .inr (.inr (.inl rfl))
  | controlRing => exact .inr (.inr (.inr (.inl rfl)))
  | join hk hc hw => exact .inr (.inr (.inr (.inr ⟨_, hk, hc, hw, rfl⟩)))
  | @clientStep c call | @nestedStep _ _ call => exact .inl (by cases call <;> rfl)
  | _ => exact .inl rfl

/-- The workers `shutdown` has joined. -/
def JoinedBy : ControlPc → Fin N → Prop
  | .join k, w => w.1 < k
  | .returned, _ => True
  | .idle, _ | .store, _ | .ring, _ => False

theorem joinedBy_joinNext {k : ℕ} (h : JoinedBy (joinNext N k) w) : w.1 < k := by
  unfold joinNext at h
  split_ifs at h with hk
  · exact h
  · exact w.2.trans_le (Nat.le_of_not_lt hk)

/-- What holds where the calls of the jobs `lost` have thrown. -/
structure Haunted [Fintype ω] (s : State N ω) (lost : List ℕ) : Prop where
  linked : Linked s
  account : Account (haunt s lost)
  joined : ∀ w, JoinedBy s.control w → s.worker w = .exited

variable [Fintype ω] {tr : List (FailLabel N ω)}

omit [DecidableEq ω] in
theorem construct_haunted (h : construct N ω = some s) : Haunted s [] := by
  have ha := construct_account h
  refine ⟨construct_linked h, account_haunt.mpr ⟨ha.jobs, ha.bodies, ha.pending⟩, fun w hw => ?_⟩
  unfold construct at h
  split at h
  · exact absurd h (by simp)
  · obtain ⟨d, -, rfl⟩ := Option.map_eq_some_iff.mp h
    exact hw.elim

/-- A step in which no call throws. -/
theorem Haunted.move (hh : Haunted s lost) (h : Move s l s') : Haunted s' lost where
  linked := h.linked hh.linked
  account := (h.haunt lost).account hh.account
  joined u hu := by
    rcases h.control with hc | hc | hc | hc | ⟨k, hk, hcon, hexit, hc⟩
    · exact h.exited (hh.joined u (hc ▸ hu))
    · exact absurd hu (by simp [hc, JoinedBy])
    · exact absurd hu (by simp [hc, JoinedBy])
    · exact absurd (joinedBy_joinNext (hc ▸ hu)) (Nat.not_lt_zero _)
    · rcases Nat.lt_succ_iff_lt_or_eq.mp (joinedBy_joinNext (hc ▸ hu)) with hlt | heq
      · refine h.exited (hh.joined u ?_)
        rw [hcon]
        exact hlt
      · obtain rfl : u = ⟨k, hk⟩ := Fin.ext heq
        exact h.exited hexit

/-- A step in which calls may throw. -/
theorem Haunted.step {l : FailLabel N ω} (hh : Haunted s lost) (h : stepFailing s l = some s') :
    Haunted s' (lost ++ thrown s l) := by
  rcases stepFailing_cases h with ⟨l, rfl, hst⟩ | ⟨c, site, job, p, rfl, hc, rfl⟩ |
    ⟨w, site, running, job, p, rfl, hw, rfl⟩
  · rw [thrown, List.append_nil]
    exact hh.move (step_move hh.linked hst)
  · simp only [thrown, hc]
    exact ⟨hh.linked.congr rfl rfl rfl, hh.account.throw_client hc, hh.joined⟩
  · simp only [thrown, hw]
    refine ⟨hh.linked.free (w := w) rfl rfl rfl (by simp [hw]) (by simp [hw]) (by simp),
      hh.account.throw_nested hw, fun u hu => ?_⟩
    have hexit := hh.joined u hu
    have huw : u ≠ w := fun e => absurd (hw.symm.trans (e ▸ hexit)) (by simp)
    rw [setWorker_of_ne _ _ huw]
    exact hexit

/-- A worker that has not left stays where a call has thrown. -/
theorem Haunted.stays {l : FailLabel N ω} (hh : Haunted s lost) (hlost : lost ≠ [])
    (h : stepFailing s l = some s') (hw : s.worker w ≠ .exited) : s'.worker w ≠ .exited := by
  rcases stepFailing_cases h with ⟨l, rfl, hst⟩ | ⟨c, site, job, p, rfl, -, rfl⟩ |
    ⟨u, site, running, job, p, rfl, -, rfl⟩
  · intro hw'
    have hpending := (account_haunt.mp hh.account).2.2
    have hzero := (step_move hh.linked hst).leaves hw hw'
    have := List.length_pos_iff.mpr hlost
    omega
  · exact hw
  · by_cases hwu : w = u
    · rw [hwu, setWorker_self]
      simp
    · rw [setWorker_of_ne _ _ hwu]
      exact hw

/-- **What holds along a run in which calls throw.** -/
theorem path_haunted (h₀ : construct N ω = some s₀)
    (h : (failing N ω).Path Machine.Free s₀ tr s) :
    Haunted s ((failing N ω).observe thrown s₀ tr) := by
  induction h with
  | nil => exact construct_haunted h₀
  | snoc hp _ hst ih =>
    rw [hp.observe_snoc hst]
    exact ih.step hst

/-- **After a call of `submit` has thrown, `shutdown` does not return while a worker is still in the
pool.** Along every run in which allocations of any calls fail, each job `submit` was called with is
waiting, queued, started, or that of a call that threw, once in all, and `pending` counts the latter
ones besides those it should. From the first of them on no worker leaves any more. -/
theorem failing_never_stops (h₀ : construct N ω = some s₀)
    (h : (failing N ω).Path Machine.Free s₀ tr s) :
    (∀ job < s.next, unpushed (only job) s + queued (only job) s + s.started.count job +
      ((failing N ω).observe thrown s₀ tr).count job = 1) ∧
    s.pending = queued (fun _ => 1) s + countedCalls s + ∑ w, (s.worker w).busy +
      ((failing N ω).observe thrown s₀ tr).length ∧
    ((failing N ω).observe thrown s₀ tr ≠ [] → ∀ w, s.worker w ≠ .exited → ∀ tr' t,
      (failing N ω).Path Machine.Free s tr' t → t.worker w ≠ .exited ∧ t.control ≠ .returned) := by
  have hh := path_haunted h₀ h
  obtain ⟨hjobs, -, hpending⟩ := account_haunt.mp hh.account
  refine ⟨fun job hjob => ?_, by omega, fun hlost w hw tr' t hp => ?_⟩
  · have hone := hjobs (only job)
    rw [mass_only_range, if_pos hjob, mass_only, mass_only] at hone
    omega
  · obtain ⟨hhaunted, hleft⟩ := hp.preserves
      (I := fun t => (∃ lost, lost ≠ [] ∧ Haunted t lost) ∧ t.worker w ≠ .exited)
      (fun t l t' _ hst ⟨⟨lost, hne, hht⟩, hwt⟩ =>
        ⟨⟨_, List.append_ne_nil_of_left_ne_nil hne _, hht.step hst⟩, hht.stays hne hst hwt⟩)
      ⟨⟨_, hlost, hh⟩, hw⟩
    obtain ⟨lost, -, hht⟩ := hhaunted
    refine ⟨hleft, fun hret => hleft (hht.joined w ?_)⟩
    rw [hret]
    trivial

/-- The closure of the first job cannot be made. The worker stays whatever comes. -/
theorem failing_never_stops_one : ∃ s₀ s : State 1 Unit, construct 1 Unit = some s₀ ∧
    (failing 1 Unit).Path Machine.Free s₀
      [.run (.client () .normal), .run (.clientStep ()), .client () .wrap] s ∧
    s.pending = 1 ∧ ∀ tr t, (failing 1 Unit).Path Machine.Free s tr t → t.control ≠ .returned := by
  let s₀ : State 1 Unit := (construct 1 Unit).get (by decide)
  have h₀ : construct 1 Unit = some s₀ := (Option.some_get _).symm
  have ha : Allocates true .wrap := trivial
  have hp := submit_path (s := s₀) (c := ()) (by decide) .normal ha
  obtain ⟨-, -, hstays⟩ := failing_never_stops h₀ hp
  have hlost : ((failing 1 Unit).observe thrown s₀ [.run (.client () .normal),
      .run (.clientStep ()), .client () .wrap]) = [0] := by decide +kernel
  refine ⟨s₀, _, h₀, hp, ?_, fun tr t ht => ?_⟩
  · rw [submit_throws _ _ _ ha]
    decide +kernel
  · have hthere : ((submit true (some .wrap) s₀ s₀.next .normal).2.worker ⟨0, Nat.one_pos⟩) ≠
        .exited := by
      rw [submit_throws _ _ _ ha]
      decide +kernel
    exact (hstays (by rw [hlost]; simp) ⟨0, Nat.one_pos⟩ hthere tr t ht).2

end Runs

end Wss.WorkStealing
