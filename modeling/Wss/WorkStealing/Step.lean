import Wss.WorkStealing.Model

/-!
# What a step of `WorkStealingScheduler` can do

`Move s l s'` lists the steps with the deques seen through their abstraction. `Linked s` is what
ties the calls in progress on the deques to the program counters of the workers: a worker is inside
`pop` or `steal` on the one deque its search is at, and on no other.

Results:
* `step_move`: every step of the code is one of the list.
* `reachable_linked`: the calls and the program counters are linked in every reachable state.
-/

namespace Wss.WorkStealing

open Wss.Lib ChaseLev ChaseLev.Atomic

variable {N : ℕ} {ω : Type}

/-- The abstract deque of worker `v` and priority `p`. -/
def State.adeque (s : State N ω) (v : Fin N) (p : Priority) : Deque (Fin N) ℕ :=
  toAtomic (s.deque v p)

/-- The states of the deques are reachable ones. -/
def State.Sound (s : State N ω) : Prop := ∀ v p, ChaseLev.Inv (s.deque v p)

section

variable [DecidableEq ω]

/-- The steps of the scheduler, by what they do. -/
inductive Move : State N ω → Label N ω → State N ω → Prop
  | client {s c p} : s.client c = none → Move s (.client c p)
      { s with client := Function.update s.client c (some (.count s.next p)), next := s.next + 1 }
  | clientStep {s c call} : s.client c = some call → Move s (.clientStep c)
      { (stepSubmit s call).1 with client := Function.update s.client c (stepSubmit s call).2 }
  | nested {s w p job} : s.worker w = .body job none → Move s (.nested w p)
      { s.setWorker w (.body job (some (.count s.next p))) with next := s.next + 1 }
  | nestedStep {s w job call} : s.worker w = .body job (some call) → Move s (.worker w)
      ((stepSubmit s call).1.setWorker w (.body job (stepSubmit s call).2))
  | finish {s w job} : s.worker w = .body job none → Move s (.finish w)
      { s.setWorker w (.uncount job) with finished := s.finished ++ [job] }
  | current {s w} : s.worker w = .current → Move s (.worker w)
      { s.setWorker w (.own (s.gen % 2 ^ 64) kPriorityOrder) with
        lost := Function.update s.lost w [] }
  | ownDone {s w gen} : s.worker w = .own gen [] →
      Move s (.worker w) (s.setWorker w (.inject gen kPriorityOrder))
  | pop {s w gen p ps d} : s.worker w = .own gen (p :: ps) → ChaseLev.Inv d →
      Step (s.adeque w p) .pop (toAtomic d) ∨ Step (s.adeque w p) .owner (toAtomic d) →
      Move s (.worker w) (s.setDeque w w p d)
  | popNone {s w gen p ps d} : s.worker w = .own gen (p :: ps) → ChaseLev.Inv d →
      Step (s.adeque w p) (.popped none) (toAtomic d) →
      Move s (.worker w) ((s.setDeque w w p d).setWorker w (.own gen ps))
  | popJob {s w gen p ps d job} : s.worker w = .own gen (p :: ps) → ChaseLev.Inv d →
      Step (s.adeque w p) (.popped (some job)) (toAtomic d) →
      Move s (.worker w) ((s.setDeque w w p d).start w job)
  | injectDone {s w gen} : s.worker w = .inject gen [] →
      Move s (.worker w) (s.setWorker w (.steal gen (targets w)))
  | injectNone {s w gen p ps} : s.worker w = .inject gen (p :: ps) → s.injector p = [] →
      Move s (.worker w) (s.setWorker w (.inject gen ps))
  | injectJob {s w gen p ps d job moved queue} : s.worker w = .inject gen (p :: ps) →
      ChaseLev.Inv d → s.injector p = job :: (moved ++ queue) →
      moved.length ≤ kInjectorBatchSize - 1 →
      toAtomic d = { s.adeque w p with items := (s.adeque w p).items ++ moved } →
      Move s (.worker w) (((s.setInjector p queue).setDeque w w p d).start w job)
  | stealDone {s w gen} : s.worker w = .steal gen [] →
      Move s (.worker w) (s.setWorker w (.loadFlag gen))
  | steal {s w gen p v ts d} : s.worker w = .steal gen ((p, v) :: ts) → ChaseLev.Inv d →
      Step (s.adeque v p) (.steal w) (toAtomic d) ∨ Step (s.adeque v p) (.thief w) (toAtomic d) →
      (∀ t, (s.adeque v p).thief w = .stealing t → (toAtomic d).thief w = .lost →
        lostAt w (s.deque v p) d = some t) →
      Move s (.worker w) { s.setDeque w v p d with
        lost := Function.update s.lost w
          (s.lost w ++ (lostAt w (s.deque v p) d).toList.map fun t => (p, v, t)) }
  | stealNone {s w gen p v ts d} : s.worker w = .steal gen ((p, v) :: ts) → ChaseLev.Inv d →
      Step (s.adeque v p) (.stolen w none) (toAtomic d) →
      Move s (.worker w) ((s.setDeque w v p d).setWorker w (.steal gen ts))
  | stealJob {s w gen p v ts d job} : s.worker w = .steal gen ((p, v) :: ts) → ChaseLev.Inv d →
      Step (s.adeque v p) (.stolen w (some job)) (toAtomic d) →
      Move s (.worker w) ((s.setDeque w v p d).start w job)
  | uncount {s w job} : s.worker w = .uncount job →
      Move s (.worker w) ({ s with pending := s.pending - 1 }.setWorker w .ring)
  | ring {s w} : s.worker w = .ring →
      Move s (.worker w) ({ s with gen := s.gen + 1 }.setWorker w .current)
  | flag {s w gen} : s.worker w = .loadFlag gen → s.shutdownFlag = true →
      Move s (.worker w) (s.setWorker w (.loadPending gen))
  | noFlag {s w gen} : s.worker w = .loadFlag gen → s.shutdownFlag = false →
      Move s (.worker w) (s.setWorker w (.wait gen))
  | noPending {s w gen} : s.worker w = .loadPending gen → s.pending = 0 →
      Move s (.worker w) (s.setWorker w .exited)
  | pending {s w gen} : s.worker w = .loadPending gen → s.pending ≠ 0 →
      Move s (.worker w) (s.setWorker w (.wait gen))
  | wake {s w gen} : s.worker w = .wait gen → s.gen % 2 ^ 64 ≠ gen →
      Move s (.worker w) (s.setWorker w .current)
  | shutdown {s} : s.control = .idle ∨ s.control = .returned →
      Move s .shutdown { s with control := .store }
  | store {s} : s.control = .store →
      Move s .control { s with shutdownFlag := true, control := .ring }
  | controlRing {s} : s.control = .ring →
      Move s .control { s with gen := s.gen + 1, control := joinNext N 0 }
  | join {s k} (h : k < N) : s.control = .join k → s.worker ⟨k, h⟩ = .exited →
      Move s .control { s with control := joinNext N (k + 1) }

end

/-! ## The deques and the workers -/

/-- The calls on the deques are those of the workers' searches. -/
structure Linked (s : State N ω) : Prop where
  sound : s.Sound
  owner : ∀ v p, (s.adeque v p).owner = .idle ∨
    ((s.adeque v p).owner = .popping ∨ ∃ r, (s.adeque v p).owner = .popped r) ∧
      ∃ gen ps, s.worker v = .own gen (p :: ps)
  thief : ∀ v p i, (s.adeque v p).thief i = .idle ∨
    ∃ gen ts, s.worker i = .steal gen ((p, v) :: ts)
  targets : ∀ w gen ts, s.worker w = .steal gen ts → ∀ t ∈ ts, t.2 ≠ w
  winners : ∀ v p, ((s.winners v p).length : ℤ) = (s.adeque v p).front

theorem owner_idle_of_toAtomic {d : ChaseLev.State (Fin N) ℕ} (h : (toAtomic d).owner = .idle) :
    d.owner = .idle := by
  have h : ownerStatus d d.owner = .idle := h
  cases hpc : d.owner with
  | idle => rfl
  | popSlot b _ t =>
    rw [hpc] at h
    simp only [ownerStatus] at h
    split_ifs at h
  | _ =>
    rw [hpc] at h
    exact absurd h (by simp [ownerStatus])

theorem thief_idle_of_toAtomic {d : ChaseLev.State (Fin N) ℕ} {i : Fin N}
    (h : (toAtomic d).thief i = .idle) : d.thief i = .idle := by
  have h : thiefStatus d (d.thief i) = .idle := h
  cases hpc : d.thief i with
  | idle => rfl
  | stealTake ptr =>
    rw [hpc] at h
    simp only [thiefStatus] at h
    split at h <;> exact absurd h (by simp)
  | _ =>
    rw [hpc] at h
    exact absurd h (by simp [thiefStatus])

variable {s s' : State N ω} {w v : Fin N} {p : Priority}

theorem stepSubmit_client (s : State N ω) (call : SubmitPc) :
    (stepSubmit s call).1.client = s.client := by
  cases call <;> rfl

theorem setDeque_self (s : State N ω) (w v : Fin N) (p : Priority) :
    s.setDeque w v p (s.deque v p) = s := by
  simp only [State.setDeque, Function.update_eq_self, if_true]

theorem setInjector_self {queue : List ℕ} (h : s.injector p = queue) :
    s.setInjector p queue = s := by
  simp only [State.setInjector, ← h, Function.update_eq_self]

theorem thief_lost_of_toAtomic {d : ChaseLev.State (Fin N) ℕ} (hi : ChaseLev.Inv d) {i : Fin N}
    (h : (toAtomic d).thief i = .lost) : d.thief i = .stealLost := by
  have h : thiefStatus d (d.thief i) = .lost := h
  have ht := hi.thief i
  cases hpc : d.thief i with
  | stealLost => rfl
  | stealTake ptr =>
    rw [hpc] at h ht
    have hheld : held d (.thief i) = ptr := by simp only [held, hpc, ThiefPc.held]
    obtain ⟨x, hx⟩ := value_of_held hi hheld ht
    simp only [thiefStatus, hx] at h
    exact absurd h (by simp)
  | _ =>
    rw [hpc] at h
    exact absurd h (by simp [thiefStatus])

/-- The history has every lost compare-and-swap. -/
theorem lostAt_of_lost {d d' : ChaseLev.State (Fin N) ℕ} {t : ℤ} (hi' : ChaseLev.Inv d')
    (h : stealStep d w = some (d', none)) (ht : (toAtomic d).thief w = .stealing t)
    (hlost : (toAtomic d').thief w = .lost) : lostAt w d d' = some t := by
  have hpc' := thief_lost_of_toAtomic hi' hlost
  have ht : thiefStatus d (d.thief w) = .stealing t := ht
  have hst : ∀ {q : Option (Option ℕ)},
      (stepThief d w).map (fun e => (e, q)) = some (d', none) → stepThief d w = some d' := by
    intro q hq
    obtain ⟨e, he, hq⟩ := Option.map_eq_some_iff.mp hq
    rwa [(Prod.mk.inj hq).1] at he
  cases hpc : d.thief w with
  | stealCas t' ptr =>
    rw [hpc] at ht
    unfold lostAt
    rw [hpc, hpc']
    exact congrArg some (ThiefStatus.stealing.inj ht)
  | stealBottom _ | stealBuffer _ | stealSlot _ _ =>
    -- from these a thief does not get to the lost compare-and-swap
    simp only [stealStep, hpc] at h
    have h := hst h
    simp only [stepThief, hpc] at h
    try split_ifs at h
    all_goals
      obtain rfl := Option.some.inj h
      rw [ChaseLev.setThief_self] at hpc'
      exact absurd hpc' (by simp)
  | stealTake ptr =>
    rw [hpc] at ht
    simp only [thiefStatus] at ht
    split at ht <;> exact absurd ht (by simp)
  | _ =>
    rw [hpc] at ht
    exact absurd ht (by simp [thiefStatus])

/-- A return of `steal` is no lost compare-and-swap. -/
theorem lost_of_stolen {x : Option ℕ} {d d' : ChaseLev.State (Fin N) ℕ}
    (h : Step (toAtomic d) (.stolen w x) (toAtomic d')) : lostAt w d d' = none := by
  have hidle : d'.thief w = .idle := thief_idle_of_toAtomic (i := w) <| by
    generalize toAtomic d' = a' at h
    cases h <;> exact Atomic.setThief_self _ _ _
  unfold lostAt
  rw [hidle]
  split <;> simp_all

theorem Linked.own_idle (hl : Linked s) (hpc : ∀ gen ps, s.worker v ≠ .own gen (p :: ps)) :
    (s.deque v p).owner = .idle := by
  rcases hl.owner v p with h | ⟨-, gen, ps, h⟩
  · exact owner_idle_of_toAtomic h
  · exact absurd h (hpc gen ps)

theorem Linked.not_pushing (hl : Linked s) (v : Fin N) (p : Priority) (x : ℕ) :
    (s.adeque v p).owner ≠ .pushing x := fun hx => by
  rcases hl.owner v p with h | ⟨h | ⟨r, h⟩, -⟩ <;> exact absurd (hx.symm.trans h) (by simp)

variable [DecidableEq ω] {l : Label N ω}

/-- **Every step of the code is a `Move`.** -/
theorem step_move (hl : Linked s) (h : step s l = some s') : Move s l s' := by
  cases l with
  | client c p =>
    simp only [step] at h
    split at h
    · rename_i hc
      obtain rfl := Option.some.inj h
      exact .client hc
    · exact absurd h (by simp)
  | clientStep c =>
    simp only [step] at h
    split at h
    · exact absurd h (by simp)
    · rename_i call hc
      obtain rfl := Option.some.inj h
      rw [stepSubmit_client]
      exact .clientStep hc
  | nested w p =>
    simp only [step] at h
    split at h
    · rename_i job hpc
      obtain rfl := Option.some.inj h
      exact .nested hpc
    · exact absurd h (by simp)
  | finish w =>
    simp only [step] at h
    split at h
    · rename_i job hpc
      obtain rfl := Option.some.inj h
      exact .finish hpc
    · exact absurd h (by simp)
  | shutdown =>
    simp only [step] at h
    split at h
    · rename_i hc
      obtain rfl := Option.some.inj h
      exact .shutdown (.inl hc)
    · rename_i hc
      obtain rfl := Option.some.inj h
      exact .shutdown (.inr hc)
    · exact absurd h (by simp)
  | control =>
    simp only [step, stepControl] at h
    split at h
    · exact absurd h (by simp)
    · exact absurd h (by simp)
    · rename_i hc
      obtain rfl := Option.some.inj h
      exact .store hc
    · rename_i hc
      obtain rfl := Option.some.inj h
      exact .controlRing hc
    · rename_i k hc
      split_ifs at h with hk hw
      obtain rfl := Option.some.inj h
      exact .join hk hc hw
  | worker w =>
    simp only [step, stepWorker] at h
    split at h
    · rename_i hpc
      obtain rfl := Option.some.inj h
      exact .current hpc
    · rename_i gen hpc
      obtain rfl := Option.some.inj h
      exact .ownDone hpc
    · rename_i gen p ps hpc
      obtain ⟨⟨d, r⟩, hd, rfl⟩ := Option.map_eq_some_iff.mp h
      obtain ⟨hi, ⟨x, rfl, hst⟩ | ⟨rfl, hst⟩⟩ := popStep_refines (hl.sound w p) hd
      · cases x with
        | none => exact .popNone hpc hi hst
        | some job => exact .popJob hpc hi hst
      · exact .pop hpc hi hst
    · rename_i gen hpc
      obtain rfl := Option.some.inj h
      exact .injectDone hpc
    · rename_i gen p ps hpc
      obtain ⟨⟨r, queue, d⟩, hd, rfl⟩ := Option.map_eq_some_iff.mp h
      have hidle := hl.own_idle (v := w) (p := p) fun gen ps hw => by
        rw [hpc] at hw
        exact absurd hw (by simp)
      obtain ⟨hi, -, ⟨rfl, hq, rfl, rfl⟩ | ⟨job, moved, rfl, hq, hlen, ha⟩⟩ :=
        popBatchInto_refines (hl.sound w p) hidle hd
      · simp only [setInjector_self hq, setDeque_self]
        exact .injectNone hpc hq
      · exact .injectJob hpc hi hq hlen ha
    · rename_i gen hpc
      obtain rfl := Option.some.inj h
      exact .stealDone hpc
    · rename_i gen p v ts hpc
      obtain ⟨⟨d, r⟩, hd, rfl⟩ := Option.map_eq_some_iff.mp h
      obtain ⟨hi, ⟨x, rfl, hst⟩ | ⟨rfl, hst⟩⟩ := stealStep_refines (hl.sound v p) hd
      · have hlost := lost_of_stolen hst
        have hsame : Function.update s.lost w (s.lost w ++ []) = s.lost := by
          rw [List.append_nil, Function.update_eq_self]
        simp only [hlost, Option.toList_none, List.map_nil, hsame]
        cases x with
        | none => exact .stealNone hpc hi hst
        | some job => exact .stealJob hpc hi hst
      · exact .steal hpc hi hst fun t ht hlost =>
          lostAt_of_lost hi hd ht hlost
    · exact absurd h (by simp)
    · rename_i job call hpc
      obtain rfl := Option.some.inj h
      exact .nestedStep hpc
    · rename_i job hpc
      obtain rfl := Option.some.inj h
      exact .uncount hpc
    · rename_i hpc
      obtain rfl := Option.some.inj h
      exact .ring hpc
    · rename_i gen hpc
      split_ifs at h with hf
      · obtain rfl := Option.some.inj h
        exact .flag hpc hf
      · obtain rfl := Option.some.inj h
        exact .noFlag hpc (by simpa using hf)
    · rename_i gen hpc
      split_ifs at h with hp
      · obtain rfl := Option.some.inj h
        exact .noPending hpc hp
      · obtain rfl := Option.some.inj h
        exact .pending hpc hp
    · rename_i gen hpc
      split_ifs at h with hg
      obtain rfl := Option.some.inj h
      exact .wake hpc hg
    · exact absurd h (by simp)

/-! ## `Linked` along a run -/

section

omit [DecidableEq ω]

@[simp] theorem adeque_setDeque (s : State N ω) (w v : Fin N) (p : Priority)
    (d : ChaseLev.State (Fin N) ℕ) : (s.setDeque w v p d).adeque v p = toAtomic d := by
  simp only [State.adeque, State.setDeque, Function.update_self]

theorem setDeque_of_ne (s : State N ω) (w : Fin N) (d : ChaseLev.State (Fin N) ℕ) {v' : Fin N}
    {p' : Priority} (h : ¬ (v' = v ∧ p' = p)) :
    (s.setDeque w v p d).deque v' p' = s.deque v' p' ∧
      (s.setDeque w v p d).winners v' p' = s.winners v' p' := by
  by_cases hv : v' = v
  · subst hv
    have hp : p' ≠ p := fun hp => h ⟨rfl, hp⟩
    simp only [State.setDeque, Function.update_self, Function.update_of_ne hp, true_and]
    split_ifs
    · rfl
    · rw [Function.update_self, Function.update_of_ne hp]
  · simp only [State.setDeque, Function.update_of_ne hv, true_and]
    split_ifs
    · rfl
    · rw [Function.update_of_ne hv]

theorem adeque_setDeque_of_ne (s : State N ω) (w : Fin N) (d : ChaseLev.State (Fin N) ℕ)
    {v' : Fin N} {p' : Priority} (h : ¬ (v' = v ∧ p' = p)) :
    (s.setDeque w v p d).adeque v' p' = s.adeque v' p' :=
  congrArg toAtomic (setDeque_of_ne s w d h).1

theorem Linked.congr (hl : Linked s) (hd : s'.deque = s.deque) (hwin : s'.winners = s.winners)
    (hw : s'.worker = s.worker) : Linked s' := by
  have ha : s'.adeque = s.adeque := by
    funext v p
    simp only [State.adeque, hd]
  exact
    { sound := fun v p => by rw [hd]; exact hl.sound v p
      owner := by rw [ha, hw]; exact hl.owner
      thief := by rw [ha, hw]; exact hl.thief
      targets := by rw [hw]; exact hl.targets
      winners := by rw [ha, hwin]; exact hl.winners }

/-- A worker goes to another program counter while no call of its is in progress. -/
theorem Linked.goto (hl : Linked s) {pc : WorkerPc N} (ho : ∀ p, (s.adeque w p).owner = .idle)
    (ht : ∀ v p, (s.adeque v p).thief w = .idle)
    (htg : ∀ gen ts, pc = .steal gen ts → ∀ t ∈ ts, t.2 ≠ w) : Linked (s.setWorker w pc) where
  sound := hl.sound
  owner v p := by
    by_cases hv : v = w
    · exact .inl (hv ▸ ho p)
    · rw [setWorker_of_ne s pc hv]
      exact hl.owner v p
  thief v p i := by
    by_cases hi : i = w
    · exact .inl (hi ▸ ht v p)
    · rw [setWorker_of_ne s pc hi]
      exact hl.thief v p i
  targets u gen ts hu := by
    by_cases huw : u = w
    · rw [huw, setWorker_self] at hu
      exact huw ▸ htg gen ts hu
    · rw [setWorker_of_ne s pc huw] at hu
      exact hl.targets u gen ts hu
  winners := hl.winners

/-- A worker that is in no `pop` and no `steal` has no call in progress. -/
theorem Linked.calm (hl : Linked s) (ho : ∀ gen p ps, s.worker w ≠ .own gen (p :: ps))
    (ht : ∀ gen t ts, s.worker w ≠ .steal gen (t :: ts)) :
    (∀ p, (s.adeque w p).owner = .idle) ∧ ∀ v p, (s.adeque v p).thief w = .idle := by
  refine ⟨fun p => ?_, fun v p => ?_⟩
  · rcases hl.owner w p with h | ⟨-, gen, ps, h⟩
    · exact h
    · exact absurd h (ho gen p ps)
  · rcases hl.thief v p w with h | ⟨gen, ts, h⟩
    · exact h
    · exact absurd h (ht gen _ ts)

/-- A step on a deque that the program counters allow. -/
theorem Linked.setDeque (hl : Linked s) {d : ChaseLev.State (Fin N) ℕ} (hi : ChaseLev.Inv d)
    (ho : (toAtomic d).owner = .idle ∨
      ((toAtomic d).owner = .popping ∨ ∃ r, (toAtomic d).owner = .popped r) ∧
      ∃ gen ps, s.worker v = .own gen (p :: ps))
    (ht : ∀ i, (toAtomic d).thief i = .idle ∨ ∃ gen ts, s.worker i = .steal gen ((p, v) :: ts))
    (hf : (toAtomic d).front = (s.adeque v p).front ∨
      (toAtomic d).front = (s.adeque v p).front + 1) :
    Linked (s.setDeque w v p d) where
  sound v' p' := by
    by_cases h : v' = v ∧ p' = p
    · obtain ⟨rfl, rfl⟩ := h
      simpa only [State.setDeque, Function.update_self] using hi
    · rw [(setDeque_of_ne s w d h).1]
      exact hl.sound v' p'
  owner v' p' := by
    by_cases h : v' = v ∧ p' = p
    · obtain ⟨rfl, rfl⟩ := h
      rw [adeque_setDeque]
      exact ho
    · rw [adeque_setDeque_of_ne s w d h]
      exact hl.owner v' p'
  thief v' p' i := by
    by_cases h : v' = v ∧ p' = p
    · obtain ⟨rfl, rfl⟩ := h
      rw [adeque_setDeque]
      exact ht i
    · rw [adeque_setDeque_of_ne s w d h]
      exact hl.thief v' p' i
  targets := hl.targets
  winners v' p' := by
    by_cases h : v' = v ∧ p' = p
    · obtain ⟨rfl, rfl⟩ := h
      have hlen := hl.winners v' p'
      have hd : (toAtomic d).front = d.top := rfl
      have hs : (s.adeque v' p').front = (s.deque v' p').top := rfl
      rw [adeque_setDeque]
      simp only [State.setDeque]
      split_ifs with htop
      · omega
      · simp only [Function.update_self, List.length_append, List.length_singleton]
        push_cast
        omega
    · rw [(setDeque_of_ne s w d h).2, adeque_setDeque_of_ne s w d h]
      exact hl.winners v' p'

/-- `Linked` where a worker with no call in progress goes on, whatever else changes. -/
theorem Linked.free (hl : Linked s) {pc : WorkerPc N} (hd : s'.deque = s.deque)
    (hwin : s'.winners = s.winners) (hw : s'.worker = Function.update s.worker w pc)
    (ho : ∀ gen p ps, s.worker w ≠ .own gen (p :: ps))
    (ht : ∀ gen t ts, s.worker w ≠ .steal gen (t :: ts))
    (htg : ∀ gen ts, pc = .steal gen ts → ∀ t ∈ ts, t.2 ≠ w) : Linked s' :=
  (hl.goto (hl.calm ho ht).1 (hl.calm ho ht).2 htg).congr hd hwin hw

/-- The step at which a worker's `pop` returns. -/
theorem Linked.popped (hl : Linked s) {gen : ℕ} {ps : List Priority} {r : Option ℕ}
    {d : ChaseLev.State (Fin N) ℕ} {pc : WorkerPc N} (hw : s.worker w = .own gen (p :: ps))
    (hi : ChaseLev.Inv d) (hst : Step (s.adeque w p) (.popped r) (toAtomic d))
    (htg : ∀ gen ts, pc ≠ .steal gen ts) :
    Linked ((s.setDeque w w p d).setWorker w pc) := by
  obtain ⟨-, ha⟩ := hst.popped_frame
  have hl' : Linked (s.setDeque w w p d) :=
    hl.setDeque hi (.inl (by rw [ha])) (fun i => by rw [ha]; exact hl.thief w p i) hst.front
  refine hl'.goto (fun p' => ?_) (fun v p' => ?_) fun gen ts h => absurd h (htg gen ts)
  · by_cases hp : p' = p
    · rw [hp, adeque_setDeque, ha]
    · rw [adeque_setDeque_of_ne s w d (by simp [hp])]
      rcases hl.owner w p' with h | ⟨-, gen', ps', h⟩
      · exact h
      · rw [hw] at h
        exact absurd (WorkerPc.own.inj h).2 (by simp [Ne.symm hp])
  · rcases hl'.thief v p' w with h | ⟨gen', ts, h⟩
    · exact h
    · exact absurd (hw.symm.trans h) (by simp)

/-- The step at which a worker's `steal` returns. -/
theorem Linked.stolen (hl : Linked s) {gen : ℕ} {ts : List (Priority × Fin N)} {r : Option ℕ}
    {d : ChaseLev.State (Fin N) ℕ} {pc : WorkerPc N}
    (hw : s.worker w = .steal gen ((p, v) :: ts)) (hi : ChaseLev.Inv d)
    (hst : Step (s.adeque v p) (.stolen w r) (toAtomic d))
    (htg : ∀ gen ts, pc = .steal gen ts → ∀ t ∈ ts, t.2 ≠ w) :
    Linked ((s.setDeque w v p d).setWorker w pc) := by
  have ha := hst.stolen_frame
  have hl' : Linked (s.setDeque w v p d) := by
    refine hl.setDeque hi (by rw [ha]; exact hl.owner v p) (fun i => ?_) hst.front
    by_cases hiw : i = w
    · rw [ha, hiw, Atomic.setThief_self]
      exact .inl rfl
    · rw [ha, Atomic.setThief_of_ne _ _ hiw]
      exact hl.thief v p i
  refine hl'.goto (fun p' => ?_) (fun v' p' => ?_) htg
  · rcases hl'.owner w p' with h | ⟨-, gen', ps', h⟩
    · exact h
    · exact absurd (hw.symm.trans h) (by simp)
  · by_cases hvp : v' = v ∧ p' = p
    · obtain ⟨rfl, rfl⟩ := hvp
      rw [adeque_setDeque, ha, Atomic.setThief_self]
    · rcases hl'.thief v' p' w with h | ⟨gen', ts', h⟩
      · exact h
      · have := (List.cons.inj (WorkerPc.steal.inj (hw.symm.trans h)).2).1
        exact absurd ⟨(Prod.mk.inj this).2.symm, (Prod.mk.inj this).1.symm⟩ hvp

theorem stepSubmit_frame (s : State N ω) (call : SubmitPc) :
    (stepSubmit s call).1.deque = s.deque ∧ (stepSubmit s call).1.winners = s.winners ∧
      (stepSubmit s call).1.worker = s.worker := by
  cases call <;> exact ⟨rfl, rfl, rfl⟩

theorem mem_targets {u : Fin N} : (p, u) ∈ targets w ↔ u ≠ w := by
  simp [targets, mem_kPriorityOrder]

end

/-- **Every step keeps the calls linked to the program counters.** -/
theorem Move.linked (hl : Linked s) (h : Move s l s') : Linked s' := by
  cases h with
  | client | shutdown | store | controlRing | join => exact hl.congr rfl rfl rfl
  | @clientStep c call =>
    obtain ⟨h1, h2, h3⟩ := stepSubmit_frame s call
    exact hl.congr h1 h2 h3
  | @nestedStep w job call hw =>
    obtain ⟨h1, h2, h3⟩ := stepSubmit_frame s call
    exact hl.free h1 h2 (congrArg (Function.update · w _) h3) (by simp [hw]) (by simp [hw])
      (by simp)
  | nested hw | finish hw | current hw | ownDone hw | injectNone hw | stealDone hw | uncount hw
  | ring hw | flag hw | noFlag hw | noPending hw | pending hw | wake hw =>
    exact hl.free rfl rfl rfl (by simp [hw]) (by simp [hw]) (by simp)
  | @injectDone w gen hw =>
    refine hl.free rfl rfl rfl (by simp [hw]) (by simp [hw]) ?_
    rintro gen' ts hpc ⟨p, u⟩ ht
    rw [← (WorkerPc.steal.inj hpc).2] at ht
    exact mem_targets.mp ht
  | @pop w gen p ps d hw hi hst =>
    have hthief : ∀ i, (toAtomic d).thief i = (s.adeque w p).thief i := fun i => by
      rw [Step.owner_frame hst]
    refine hl.setDeque hi ?_ (fun i => by rw [hthief]; exact hl.thief w p i)
      (hst.elim Step.front Step.front)
    have hpop := Step.popping hst ((hl.owner w p).imp_right fun h => h.1)
    exact hpop.imp_right fun h => ⟨h, gen, ps, hw⟩
  | popNone hw hi hst => exact hl.popped hw hi hst (by simp)
  | popJob hw hi hst => exact (hl.popped hw hi hst (by simp)).congr rfl rfl rfl
  | @injectJob w gen p ps d job moved queue hw hi hq hlen ha =>
    have hl₀ : Linked (s.setInjector p queue) := hl.congr rfl rfl rfl
    have ha₀ : (s.setInjector p queue).adeque w p = s.adeque w p := rfl
    have hl' : Linked ((s.setInjector p queue).setDeque w w p d) :=
      hl₀.setDeque hi (by rw [ha]; exact hl.owner w p) (fun i => by rw [ha]; exact hl.thief w p i)
        (.inl (by rw [ha, ha₀]))
    exact hl'.free rfl rfl rfl (by simp [State.setDeque, State.setInjector, hw])
      (by simp [State.setDeque, State.setInjector, hw]) (by simp)
  | @steal w gen p v ts d hw hi hst hlost =>
    obtain ⟨howner, hthief⟩ := Step.thief_frame hst
    have hl' : Linked (s.setDeque w v p d) := by
      refine hl.setDeque hi (by rw [howner]; exact hl.owner v p) (fun i => ?_)
        (hst.elim Step.front Step.front)
      by_cases hiw : i = w
      · exact .inr ⟨gen, ts, hiw ▸ hw⟩
      · rw [hthief i hiw]
        exact hl.thief v p i
    exact hl'.congr rfl rfl rfl
  | @stealNone w gen p v ts d hw hi hst =>
    refine hl.stolen hw hi hst ?_
    rintro gen' ts' hpc t ht
    rw [← (WorkerPc.steal.inj hpc).2] at ht
    exact hl.targets w gen _ hw t (List.mem_cons_of_mem _ ht)
  | stealJob hw hi hst => exact (hl.stolen hw hi hst (by simp)).congr rfl rfl rfl

omit [DecidableEq ω] in
theorem construct_linked (h : construct N ω = some s) : Linked s := by
  unfold construct at h
  split at h
  · exact absurd h (by simp)
  · obtain ⟨d, hd, rfl⟩ := Option.map_eq_some_iff.mp h
    have hnew := construct_toAtomic hd
    exact
      { sound := fun _ _ => construct_inv hd
        owner := fun v p => .inl (congrArg Deque.owner hnew)
        thief := fun v p i => .inl (congrFun (congrArg Deque.thief hnew) i)
        targets := fun w gen ts hw => absurd hw (by simp)
        winners := fun v p => (congrArg Deque.front hnew).symm }

/-- **The calls and the program counters are linked in every reachable state.** -/
theorem reachable_linked (h : (machine N ω).Reachable s) : Linked s :=
  h.invariant (fun _ => construct_linked) fun _ _ _ _ _ hst hl => (step_move hl hst).linked hl

end Wss.WorkStealing
