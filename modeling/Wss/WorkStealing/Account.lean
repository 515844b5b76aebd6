import Wss.WorkStealing.Step
import Wss.Lib.Mass

/-!
# Where every job of `WorkStealingScheduler` is

`Account s` says in each state where the jobs are that `submit` was called with: waiting to be
pushed, in an injector or a deque or in the hands of a `pop` or `steal`, or started; and that
`pending` counts those counted by their `submit` and not yet uncounted after their run. Sums of
weights (`Lib/Mass.lean`) say this for all jobs and all places at once.

Results:
* `Move.account`: each step moves weight at one deque, one injector, one call of `submit` and one
  worker, and these movements balance.
* `reachable_account`: so the account holds in every reachable state.
* `started_nodup`: no job is started twice.
-/

namespace Wss.WorkStealing

open Wss.Lib ChaseLev ChaseLev.Atomic

variable {N : ℕ} {ω : Type}

/-! ## Deques -/

section Deque

/-- The job an owner's call on a deque has in its hands. -/
def ownerMass (μ : ℕ → ℕ) : OwnerStatus ℕ → ℕ
  | .pushing x | .popped (some x) => μ x
  | .idle | .pushed | .popping | .popped none => 0

/-- The job a thief's call on a deque has in its hands. -/
def thiefMass (μ : ℕ → ℕ) : ThiefStatus ℕ → ℕ
  | .stolen x => μ x
  | .idle | .called | .stealing _ | .empty | .lost => 0

/-- The jobs in a deque and in the hands of the calls on it. -/
def dequeMass (μ : ℕ → ℕ) (a : Deque (Fin N) ℕ) : ℕ :=
  mass μ a.items + ownerMass μ a.owner + ∑ i, thiefMass μ (a.thief i)

/-- The job a call returns. -/
def resultMass (μ : ℕ → ℕ) : Option ℕ → ℕ
  | some x => μ x
  | none => 0

variable {μ : ℕ → ℕ} {a a' : Deque (Fin N) ℕ} {i : Fin N} {r : Option ℕ}

theorem dequeMass_mono {ν : ℕ → ℕ} (h : ∀ x, μ x ≤ ν x) (a : Deque (Fin N) ℕ) :
    dequeMass μ a ≤ dequeMass ν a := by
  have hm : mass μ a.items ≤ mass ν a.items := mass_le h
  have ho : ownerMass μ a.owner ≤ ownerMass ν a.owner := by
    unfold ownerMass
    split
    all_goals first | exact h _ | exact le_rfl
  have ht : ∑ i, thiefMass μ (a.thief i) ≤ ∑ i, thiefMass ν (a.thief i) := by
    refine Finset.sum_le_sum fun i _ => ?_
    unfold thiefMass
    split
    all_goals first | exact h _ | exact le_rfl
  unfold dequeMass
  omega

theorem dequeMass_setThief (a : Deque (Fin N) ℕ) (i : Fin N) (st : ThiefStatus ℕ) :
    dequeMass μ (a.setThief i st) + thiefMass μ (a.thief i) = dequeMass μ a + thiefMass μ st := by
  have := sum_update (thiefMass μ) a.thief i st
  simp only [dequeMass, Deque.setThief] at this ⊢
  omega

theorem dequeMass_owner (h : Step a .pop a' ∨ Step a .owner a') :
    dequeMass μ a' = dequeMass μ a := by
  rcases h with h | h
  · cases h with
    | pop hpc => simp only [dequeMass, hpc, ownerMass]
  · cases h with
    | ownerStutter => rfl
    | linPush hpc =>
      simp only [dequeMass, hpc, ownerMass, mass_append, mass_cons, mass_nil]
      omega
    | linPop hpc hl _ | linPopLast hpc hl =>
      simp only [dequeMass, hpc, hl, ownerMass, mass_append, mass_cons, mass_nil]
      omega
    | linPopNone hpc hl => simp only [dequeMass, hpc, ownerMass]

theorem dequeMass_popped (h : Step a (.popped r) a') :
    dequeMass μ a = dequeMass μ a' + resultMass μ r := by
  obtain ⟨hpc, rfl⟩ := h.popped_frame
  cases r <;> simp only [dequeMass, hpc, ownerMass, resultMass] <;> omega

theorem dequeMass_thief (h : Step a (.steal i) a' ∨ Step a (.thief i) a') :
    dequeMass μ a' = dequeMass μ a := by
  rcases h with h | h
  · cases h with
    | steal hpc =>
      have := dequeMass_setThief (μ := μ) a i .called
      simpa only [hpc, thiefMass, Nat.add_zero] using this
  · cases h with
    | thiefStutter => rfl
    | @observe _ hpc =>
      have := dequeMass_setThief (μ := μ) a i (.stealing a.front)
      simpa only [hpc, thiefMass, Nat.add_zero] using this
    | @linSteal _ l x hpc hl =>
      have := dequeMass_setThief (μ := μ) a i (.stolen x)
      simp only [dequeMass, hpc, hl, thiefMass, mass_cons, Deque.setThief] at this ⊢
      omega
    | linEmpty hpc =>
      have := dequeMass_setThief (μ := μ) a i .empty
      simpa only [hpc, thiefMass, Nat.add_zero] using this
    | linLost hpc =>
      have := dequeMass_setThief (μ := μ) a i .lost
      simpa only [hpc, thiefMass, Nat.add_zero] using this

theorem dequeMass_stolen (h : Step a (.stolen i r) a') :
    dequeMass μ a = dequeMass μ a' + resultMass μ r := by
  have hset := dequeMass_setThief (μ := μ) a i .idle
  cases h with
  | stolen hpc =>
    simp only [hpc, thiefMass] at hset
    simp only [resultMass]
    omega
  | stolenNone hpc =>
    have hnone : thiefMass μ (a.thief i) = 0 := by
      rcases hpc with hpc | hpc <;> rw [hpc] <;> rfl
    have hidle : thiefMass μ .idle = 0 := rfl
    simp only [resultMass]
    omega

end Deque

/-! ## The scheduler -/

/-- The job a call of `submit` has not pushed yet. -/
def callMass (μ : ℕ → ℕ) : Option SubmitPc → ℕ
  | some (.count job _) | some (.push job _) => μ job
  | none | some (.ring _) | some (.done _) => 0

/-- A call of `submit` that has counted its job and not pushed it yet. -/
def callCount : Option SubmitPc → ℕ
  | some (.push _ _) => 1
  | none | some (.count _ _) | some (.ring _) | some (.done _) => 0

namespace WorkerPc

/-- The call of `submit` the job of a worker is in. -/
def call : WorkerPc N → Option SubmitPc
  | .body _ call => call
  | .current | .own _ _ | .inject _ _ | .steal _ _ | .uncount _ | .ring | .loadFlag _
  | .loadPending _ | .wait _ | .exited => none

/-- The job whose body a worker runs. -/
def running (μ : ℕ → ℕ) : WorkerPc N → ℕ
  | .body job _ => μ job
  | .current | .own _ _ | .inject _ _ | .steal _ _ | .uncount _ | .ring | .loadFlag _
  | .loadPending _ | .wait _ | .exited => 0

/-- Whether a worker has a job that it has not uncounted yet. -/
def busy : WorkerPc N → ℕ
  | .body _ _ | .uncount _ => 1
  | .current | .own _ _ | .inject _ _ | .steal _ _ | .ring | .loadFlag _ | .loadPending _
  | .wait _ | .exited => 0

end WorkerPc

section Sums

variable (μ : ℕ → ℕ) (s : State N ω)

/-- The jobs in the injectors and the deques. -/
def queued : ℕ :=
  ∑ p, mass μ (s.injector p) + ∑ v, ∑ p, dequeMass μ (s.adeque v p)

variable [Fintype ω]

/-- The jobs waiting to be pushed. -/
def unpushed : ℕ := ∑ c, callMass μ (s.client c) + ∑ w, callMass μ (s.worker w).call

/-- The jobs counted and waiting to be pushed. -/
def countedCalls : ℕ := ∑ c, callCount (s.client c) + ∑ w, callCount (s.worker w).call

end Sums

/-- Where the jobs are. -/
structure Account [Fintype ω] (s : State N ω) : Prop where
  jobs : ∀ μ, queued μ s + mass μ s.started + unpushed μ s = mass μ (List.range s.next)
  bodies : ∀ μ, mass μ s.started = mass μ s.finished + ∑ w, (s.worker w).running μ
  pending : s.pending = queued (fun _ => 1) s + countedCalls s + ∑ w, (s.worker w).busy

variable {s s' : State N ω} {μ : ℕ → ℕ} {w v : Fin N} {p : Priority} {pc : WorkerPc N}

theorem queued_setDeque (s : State N ω) (w : Fin N) (d : ChaseLev.State (Fin N) ℕ) :
    queued μ (s.setDeque w v p d) + dequeMass μ (s.adeque v p) =
      queued μ s + dequeMass μ (toAtomic d) := by
  have hrow := sum_update (fun d => dequeMass μ (toAtomic d)) (s.deque v) p d
  have hall := sum_update (fun f : Priority → ChaseLev.State (Fin N) ℕ =>
    ∑ p, dequeMass μ (toAtomic (f p))) s.deque v (Function.update (s.deque v) p d)
  simp only [queued, State.adeque, State.setDeque] at hrow hall ⊢
  omega

theorem queued_setInjector (s : State N ω) (p : Priority) (queue : List ℕ) :
    queued μ (s.setInjector p queue) + mass μ (s.injector p) = queued μ s + mass μ queue := by
  have := sum_update (mass μ) s.injector p queue
  have ha : (s.setInjector p queue).adeque = s.adeque := rfl
  simp only [queued, ha]
  simp only [State.setInjector]
  omega

theorem queued_congr (hd : s'.deque = s.deque) (hinj : s'.injector = s.injector) :
    queued μ s' = queued μ s := by
  simp only [queued, State.adeque, hd, hinj]

/-- What a step of `submit` moves. -/
theorem stepSubmit_mass (s : State N ω) (call : SubmitPc) :
    queued μ (stepSubmit s call).1 + callMass μ (stepSubmit s call).2 =
      queued μ s + callMass μ (some call) := by
  cases call with
  | push job p =>
    have := queued_setInjector (μ := μ) s p (s.injector p ++ [job])
    simp only [mass_append, mass_cons, mass_nil] at this
    simp only [stepSubmit, callMass]
    omega
  | count | ring | done => exact congrArg (· + _) (queued_congr rfl rfl)

/-- What a step of `submit` does to `pending`. -/
theorem stepSubmit_pending (s : State N ω) (call : SubmitPc) :
    (stepSubmit s call).1.pending + queued (fun _ => 1) s + callCount (some call) =
      s.pending + queued (fun _ => 1) (stepSubmit s call).1 + callCount (stepSubmit s call).2 := by
  cases call with
  | push job p =>
    have := queued_setInjector (μ := fun _ => 1) s p (s.injector p ++ [job])
    simp only [mass_append, mass_cons, mass_nil] at this
    have hp : (s.setInjector p (s.injector p ++ [job])).pending = s.pending := rfl
    simp only [stepSubmit, callCount, hp]
    omega
  | count job p =>
    have hq : queued (fun _ => 1) { s with pending := s.pending + 1 } = queued (fun _ => 1) s :=
      queued_congr rfl rfl
    simp only [stepSubmit, callCount, hq]
    omega
  | ring job =>
    have hq : queued (fun _ => 1) { s with gen := s.gen + 1, rung := s.rung ++ [job] } =
        queued (fun _ => 1) s := queued_congr rfl rfl
    simp only [stepSubmit, callCount, hq]
  | done job =>
    have hq : queued (fun _ => 1) { s with returned := s.returned ++ [job] } =
        queued (fun _ => 1) s := queued_congr rfl rfl
    simp only [stepSubmit, callCount, hq]

section Step

variable [Fintype ω]

/-- A step of worker `w` to `pc` keeps the account if what it moves balances. -/
theorem Account.worker (ha : Account s) (hw : s'.worker = Function.update s.worker w pc)
    (hc : s'.client = s.client)
    (hjobs : ∀ μ, queued μ s' + mass μ s'.started + callMass μ pc.call +
      mass μ (List.range s.next) =
      queued μ s + mass μ s.started + callMass μ (s.worker w).call + mass μ (List.range s'.next))
    (hbodies : ∀ μ, mass μ s'.started + mass μ s.finished + (s.worker w).running μ =
      mass μ s.started + mass μ s'.finished + pc.running μ)
    (hpending : s'.pending + queued (fun _ => 1) s + callCount (s.worker w).call +
      (s.worker w).busy =
      s.pending + queued (fun _ => 1) s' + callCount pc.call + pc.busy) : Account s' where
  jobs μ := by
    have h1 := ha.jobs μ
    have h2 := hjobs μ
    have h3 := sum_update (fun pc : WorkerPc N => callMass μ pc.call) s.worker w pc
    simp only [unpushed, hw, hc] at h1 h3 ⊢
    omega
  bodies μ := by
    have h1 := ha.bodies μ
    have h2 := hbodies μ
    have h3 := sum_update (fun pc : WorkerPc N => pc.running μ) s.worker w pc
    rw [hw]
    omega
  pending := by
    have h1 := ha.pending
    have h3 := sum_update (fun pc : WorkerPc N => callCount pc.call) s.worker w pc
    have h4 := sum_update (fun pc : WorkerPc N => pc.busy) s.worker w pc
    simp only [countedCalls, hw, hc] at h1 h3 h4 ⊢
    omega

/-- A step outside the pool keeps the account if what it moves balances. -/
theorem Account.client [DecidableEq ω] (ha : Account s) {c : ω} {call : Option SubmitPc}
    (hw : s'.worker = s.worker) (hc : s'.client = Function.update s.client c call)
    (hst : s'.started = s.started) (hfin : s'.finished = s.finished)
    (hjobs : ∀ μ, queued μ s' + callMass μ call + mass μ (List.range s.next) =
      queued μ s + callMass μ (s.client c) + mass μ (List.range s'.next))
    (hpending : s'.pending + queued (fun _ => 1) s + callCount (s.client c) =
      s.pending + queued (fun _ => 1) s' + callCount call) : Account s' where
  jobs μ := by
    have h1 := ha.jobs μ
    have h2 := hjobs μ
    have h3 := sum_update (callMass μ) s.client c call
    simp only [unpushed, hw, hc, hst] at h1 h3 ⊢
    omega
  bodies μ := by
    rw [hst, hfin, hw]
    exact ha.bodies μ
  pending := by
    have h1 := ha.pending
    have h3 := sum_update callCount s.client c call
    simp only [countedCalls, hw, hc] at h1 h3 ⊢
    omega

/-- A step that leaves every job where it is, or in the same deque. -/
theorem Account.congr (ha : Account s) (hq : ∀ μ, queued μ s' = queued μ s)
    (hw : s'.worker = s.worker) (hc : s'.client = s.client) (hst : s'.started = s.started)
    (hfin : s'.finished = s.finished) (hn : s'.next = s.next) (hp : s'.pending = s.pending) :
    Account s' where
  jobs μ := by
    have := ha.jobs μ
    simpa only [unpushed, hw, hc, hst, hn, hq] using this
  bodies μ := by
    rw [hst, hfin, hw]
    exact ha.bodies μ
  pending := by
    have := ha.pending
    simpa only [countedCalls, hw, hc, hp, hq] using this

/-- Such a step of a worker that goes on in its search. -/
theorem Account.quiet (ha : Account s) (hq : ∀ μ, queued μ s' = queued μ s)
    (hw : s'.worker = Function.update s.worker w pc) (hc : s'.client = s.client)
    (hst : s'.started = s.started) (hfin : s'.finished = s.finished) (hn : s'.next = s.next)
    (hp : s'.pending = s.pending) (hcall : pc.call = (s.worker w).call)
    (hrun : ∀ μ, pc.running μ = (s.worker w).running μ) (hbusy : pc.busy = (s.worker w).busy) :
    Account s' := by
  refine ha.worker hw hc (fun μ => ?_) (fun μ => ?_) ?_
  · rw [hq, hst, hn, hcall]
  · rw [hst, hfin, hrun]
  · rw [hq, hp, hcall, hbusy]

/-- A worker starts a job that was queued. -/
theorem Account.start (ha : Account s) {job : ℕ} (hq : ∀ μ, queued μ s' + μ job = queued μ s)
    (hw : s'.worker = Function.update s.worker w (.body job none)) (hc : s'.client = s.client)
    (hst : s'.started = s.started ++ [job]) (hfin : s'.finished = s.finished)
    (hn : s'.next = s.next) (hp : s'.pending = s.pending) (hcall : (s.worker w).call = none)
    (hrun : ∀ μ, (s.worker w).running μ = 0) (hbusy : (s.worker w).busy = 0) : Account s' := by
  refine ha.worker hw hc (fun μ => ?_) (fun μ => ?_) ?_
  · have := hq μ
    rw [hst, hn, hcall]
    simp only [WorkerPc.call, callMass, mass_append, mass_cons, mass_nil]
    omega
  · rw [hst, hfin, hrun]
    simp only [WorkerPc.running, mass_append, mass_cons, mass_nil]
    omega
  · have := hq fun _ => 1
    rw [hp, hcall, hbusy]
    simp only [WorkerPc.call, callCount, WorkerPc.busy]
    omega

variable [DecidableEq ω] {l : Label N ω}

/-- **Every step keeps the account.** -/
theorem Move.account (ha : Account s) (h : Move s l s') : Account s' := by
  cases h with
  | shutdown | store | controlRing | join => exact ha.congr (fun _ => rfl) rfl rfl rfl rfl rfl rfl
  | current hw | ownDone hw | injectDone hw | injectNone hw | stealDone hw | flag hw | noFlag hw
  | noPending hw | pending hw | wake hw =>
    exact ha.quiet (fun _ => rfl) rfl rfl rfl rfl rfl rfl (by rw [hw]; rfl)
      (fun μ => by rw [hw]; rfl) (by rw [hw]; rfl)
  | @client c p hc =>
    refine ha.client rfl rfl rfl rfl (fun μ => ?_) ?_
    · show queued μ s + μ s.next + _ = queued μ s + callMass μ (s.client c) +
        mass μ (List.range (s.next + 1))
      simp only [hc, callMass, List.range_succ, mass_append, mass_cons, mass_nil]
      omega
    · show s.pending + queued (fun _ => 1) s + _ = s.pending + queued (fun _ => 1) s + 0
      rw [hc]
      rfl
  | @clientStep c call hc =>
    refine ha.client (stepSubmit_frame s call).2.2 rfl ?_ ?_ (fun μ => ?_) ?_
    · cases call <;> rfl
    · cases call <;> rfl
    · have hm := stepSubmit_mass (μ := μ) s call
      have hn : (stepSubmit s call).1.next = s.next := by cases call <;> rfl
      rw [hc, hn]
      exact congrArg (· + _) hm
    · have hp := stepSubmit_pending s call
      rw [hc]
      exact hp
  | @nested w p job hw =>
    refine ha.worker rfl rfl (fun μ => ?_) (fun μ => ?_) ?_
    · show queued μ s + mass μ s.started + μ s.next + _ = queued μ s + mass μ s.started +
        callMass μ (s.worker w).call + mass μ (List.range (s.next + 1))
      simp only [hw, WorkerPc.call, callMass, List.range_succ, mass_append, mass_cons, mass_nil]
      omega
    · rw [hw]
      rfl
    · rw [hw]
      rfl
  | @nestedStep w job call hw =>
    refine ha.worker (congrArg (Function.update · w _) (stepSubmit_frame s call).2.2) ?_
      (fun μ => ?_)
      (fun μ => ?_) ?_
    · cases call <;> rfl
    · have hm := stepSubmit_mass (μ := μ) s call
      have hn : (stepSubmit s call).1.next = s.next := by cases call <;> rfl
      have hst : (stepSubmit s call).1.started = s.started := by cases call <;> rfl
      show queued μ (stepSubmit s call).1 + mass μ (stepSubmit s call).1.started +
        callMass μ (stepSubmit s call).2 + mass μ (List.range s.next) = queued μ s +
        mass μ s.started + callMass μ (s.worker w).call +
          mass μ (List.range (stepSubmit s call).1.next)
      simp only [hn, hst, hw, WorkerPc.call]
      omega
    · have hst : (stepSubmit s call).1.started = s.started := by cases call <;> rfl
      have hfin : (stepSubmit s call).1.finished = s.finished := by cases call <;> rfl
      show mass μ (stepSubmit s call).1.started + mass μ s.finished + (s.worker w).running μ =
        mass μ s.started + mass μ (stepSubmit s call).1.finished + μ job
      simp only [hst, hfin, hw, WorkerPc.running]
    · have hp := stepSubmit_pending s call
      show (stepSubmit s call).1.pending + queued (fun _ => 1) s + callCount (s.worker w).call +
        (s.worker w).busy = s.pending + queued (fun _ => 1) (stepSubmit s call).1 +
        callCount (stepSubmit s call).2 + 1
      simp only [hw, WorkerPc.call, WorkerPc.busy]
      omega
  | @finish w job hw =>
    refine ha.worker rfl rfl (fun μ => ?_) (fun μ => ?_) ?_
    · rw [hw]
      rfl
    · show mass μ s.started + mass μ s.finished + (s.worker w).running μ = mass μ s.started +
        mass μ (s.finished ++ [job]) + 0
      simp only [hw, WorkerPc.running, mass_append, mass_cons, mass_nil]
      omega
    · rw [hw]
      rfl
  | @uncount w job hw =>
    have hpos : 1 ≤ s.pending := by
      have h1 := ha.pending
      have h2 := le_sum (fun w => (s.worker w).busy) w
      have h3 : (s.worker w).busy = 1 := by rw [hw]; rfl
      simp only [h3] at h2
      omega
    refine ha.worker rfl rfl (fun μ => ?_) (fun μ => ?_) ?_
    · rw [hw]
      rfl
    · rw [hw]
      rfl
    · show s.pending - 1 + queued (fun _ => 1) s + callCount (s.worker w).call + (s.worker w).busy =
        s.pending + queued (fun _ => 1) s + 0 + 0
      simp only [hw, WorkerPc.call, callCount, WorkerPc.busy]
      omega
  | ring hw =>
    exact ha.quiet (fun _ => rfl) rfl rfl rfl rfl rfl rfl (by rw [hw]; rfl)
      (fun μ => by rw [hw]; rfl) (by rw [hw]; rfl)
  | @pop w gen p ps d hw hi hst =>
    refine ha.congr (fun μ => ?_) rfl rfl rfl rfl rfl rfl
    have hq := queued_setDeque (μ := μ) (v := w) (p := p) s w d
    rw [dequeMass_owner hst] at hq
    omega
  | @popNone w gen p ps d hw hi hst =>
    refine ha.quiet (w := w) (fun μ => ?_) rfl rfl rfl rfl rfl rfl (by rw [hw]; rfl)
      (fun μ => by rw [hw]; rfl) (by rw [hw]; rfl)
    have hq := queued_setDeque (μ := μ) (v := w) (p := p) s w d
    rw [dequeMass_popped hst] at hq
    exact Nat.add_right_cancel hq
  | @popJob w gen p ps d job hw hi hst =>
    refine ha.start (w := w) (fun μ => ?_) rfl rfl rfl rfl rfl rfl (by rw [hw]; rfl)
      (fun μ => by rw [hw]; rfl) (by rw [hw]; rfl)
    have hq := queued_setDeque (μ := μ) (v := w) (p := p) s w d
    rw [dequeMass_popped hst] at hq
    show queued μ (s.setDeque w w p d) + μ job = queued μ s
    simp only [resultMass] at hq
    omega
  | @injectJob w gen p ps d job moved queue hw hi hinj hlen habs =>
    refine ha.start (w := w) (fun μ => ?_) rfl rfl rfl rfl rfl rfl (by rw [hw]; rfl)
      (fun μ => by rw [hw]; rfl) (by rw [hw]; rfl)
    have hq₁ := queued_setInjector (μ := μ) s p queue
    have hq₂ := queued_setDeque (μ := μ) (v := w) (p := p) (s.setInjector p queue) w d
    have hm : dequeMass μ (toAtomic d) = dequeMass μ (s.adeque w p) + mass μ moved := by
      rw [habs]
      simp only [dequeMass, mass_append]
      omega
    have hs : (s.setInjector p queue).adeque w p = s.adeque w p := rfl
    show queued μ ((s.setInjector p queue).setDeque w w p d) + μ job = queued μ s
    simp only [hinj, mass_cons, mass_append] at hq₁
    rw [hm, hs] at hq₂
    omega
  | @steal w gen p v ts d hw hi hst hlost =>
    refine ha.congr (fun μ => ?_) rfl rfl rfl rfl rfl rfl
    have hq := queued_setDeque (μ := μ) (v := v) (p := p) s w d
    rw [dequeMass_thief hst] at hq
    exact Nat.add_right_cancel hq
  | @stealNone w gen p v ts d hw hi hst =>
    refine ha.quiet (w := w) (fun μ => ?_) rfl rfl rfl rfl rfl rfl (by rw [hw]; rfl)
      (fun μ => by rw [hw]; rfl) (by rw [hw]; rfl)
    have hq := queued_setDeque (μ := μ) (v := v) (p := p) s w d
    rw [dequeMass_stolen hst] at hq
    exact Nat.add_right_cancel hq
  | @stealJob w gen p v ts d job hw hi hst =>
    refine ha.start (w := w) (fun μ => ?_) rfl rfl rfl rfl rfl rfl (by rw [hw]; rfl)
      (fun μ => by rw [hw]; rfl) (by rw [hw]; rfl)
    have hq := queued_setDeque (μ := μ) (v := v) (p := p) s w d
    rw [dequeMass_stolen hst] at hq
    show queued μ (s.setDeque w v p d) + μ job = queued μ s
    simp only [resultMass] at hq
    omega

omit [DecidableEq ω] in
theorem construct_account (h : construct N ω = some s) : Account s := by
  unfold construct at h
  split at h
  · exact absurd h (by simp)
  · obtain ⟨d, hd, rfl⟩ := Option.map_eq_some_iff.mp h
    have hempty : ∀ μ, dequeMass μ (toAtomic d) = 0 := fun μ => by
      rw [construct_toAtomic hd]
      simp [dequeMass, ownerMass, thiefMass]
    refine ⟨fun μ => ?_, fun μ => ?_, ?_⟩
    · simp [queued, State.adeque, hempty, unpushed, callMass, WorkerPc.call]
    · simp [WorkerPc.running]
    · simp [queued, State.adeque, hempty, countedCalls, callCount, WorkerPc.call, WorkerPc.busy]

/-- **The account holds in every reachable state.** -/
theorem reachable_account (h : (machine N ω).Reachable s) : Account s :=
  h.invariant (fun _ => construct_account) fun _ _ _ hr _ hst ha =>
    (step_move (reachable_linked hr.reachable) hst).account ha

omit [DecidableEq ω] in
/-- **No job is started twice.** -/
theorem started_nodup (ha : Account s) : s.started.Nodup :=
  nodup_of_mass (n := s.next) fun μ => by
    have := ha.jobs μ
    omega

end Step

end Wss.WorkStealing
