import Wss.WorkStealing.Account

/-!
# What a sleeping worker of `WorkStealingScheduler` has overlooked

A worker blocked in `IdleSignal::wait` has seen no notification since before its search. So a job
whose `submit` has returned (it is `rung`) was already queued when the search began, and the search
passed by the place where the job was. `Searched s w pc` says what this leaves at each position of
the search: the places searched hold no such job, save a deque for which the worker has an excuse.

* The deque holds one item, which its owner is just deciding over in a `pop`: the thief saw
  `bottom_` lowered.
* The worker lost its compare-and-swap on that deque to a third worker, took this for an empty
  deque as `find_task` does, and went on. With three workers this can hide any number of jobs.

Results:
* `reachable_watchful`: what a search has seen is still so, as long as nobody notifies.
* `sleeps_over_work`: both excuses occur.
* `sleeping_worker`: there is no other case.
-/

namespace Wss.WorkStealing

open Wss.Lib ChaseLev ChaseLev.Atomic

variable {N : ℕ} {ω : Type}

/-! ## Jobs whose `submit` has notified -/

/-- The job of a call of `submit` that has not notified yet. -/
def silentMass (μ : ℕ → ℕ) : Option SubmitPc → ℕ
  | some (.count job _) | some (.push job _) | some (.ring job) => μ job
  | none | some (.done _) => 0

/-- Every job is rung once its `submit` has notified, and not before. -/
structure Rung [Fintype ω] (s : State N ω) : Prop where
  silent : ∀ μ, ∑ c, silentMass μ (s.client c) + ∑ w, silentMass μ (s.worker w).call +
    mass μ s.rung = mass μ (List.range s.next)
  returned : ∀ job ∈ s.returned, job ∈ s.rung
  client : ∀ c job, s.client c = some (.done job) → job ∈ s.rung
  worker : ∀ w job, (s.worker w).call = some (.done job) → job ∈ s.rung

variable {s s' : State N ω} {w v : Fin N} {p : Priority} {pc : WorkerPc N} {job : ℕ}

section Rung

/-- What a step of `submit` does to the jobs that are rung. -/
theorem stepSubmit_rung (s : State N ω) (call : SubmitPc) :
    (∀ μ, silentMass μ (stepSubmit s call).2 + mass μ (stepSubmit s call).1.rung =
      silentMass μ (some call) + mass μ s.rung) ∧
    (∀ job ∈ s.rung, job ∈ (stepSubmit s call).1.rung) ∧
    (∀ job, (stepSubmit s call).2 = some (.done job) → job ∈ (stepSubmit s call).1.rung) ∧
    (∀ job ∈ (stepSubmit s call).1.returned, job ∈ s.returned ∨ call = .done job) ∧
    (stepSubmit s call).1.next = s.next := by
  cases call with
  | count job p | push job p =>
    exact ⟨fun _ => rfl, fun _ h => h, fun _ h => absurd h (by simp [stepSubmit]),
      fun _ h => .inl h,
      rfl⟩
  | ring job =>
    refine ⟨fun μ => ?_, fun _ h => List.mem_append_left _ h, fun j h => ?_, fun _ h => .inl h, rfl⟩
    · simp only [stepSubmit, silentMass, mass_append, mass_cons, mass_nil]
      omega
    · obtain rfl := SubmitPc.done.inj (Option.some.inj h)
      exact List.mem_append_right _ (List.mem_singleton_self _)
  | done job =>
    refine ⟨fun _ => rfl, fun _ h => h, fun _ h => absurd h (by simp [stepSubmit]), fun j h => ?_,
      rfl⟩
    rcases List.mem_append.mp h with h | h
    · exact .inl h
    · exact .inr (by rw [List.mem_singleton.mp h])

variable [Fintype ω]

/-- A step of worker `w` with its call of `submit`, if it is in one. -/
theorem Rung.step (hr : Rung s) (hw : s'.worker = Function.update s.worker w pc)
    (hc : s'.client = s.client)
    (hsilent : ∀ μ, silentMass μ pc.call + mass μ s'.rung + mass μ (List.range s.next) =
      silentMass μ (s.worker w).call + mass μ s.rung + mass μ (List.range s'.next))
    (hmono : ∀ job ∈ s.rung, job ∈ s'.rung)
    (hdone : ∀ job, pc.call = some (.done job) → job ∈ s'.rung)
    (hret : ∀ job ∈ s'.returned, job ∈ s.returned ∨ (s.worker w).call = some (.done job)) :
    Rung s' where
  silent μ := by
    have h1 := hr.silent μ
    have h2 := hsilent μ
    have h3 := sum_update (fun pc : WorkerPc N => silentMass μ pc.call) s.worker w pc
    rw [hw, hc]
    omega
  returned j hj := by
    rcases hret j hj with h | h
    · exact hmono j (hr.returned j h)
    · exact hmono j (hr.worker w j h)
  client c j h := hmono j (hr.client c j (hc ▸ h))
  worker u j h := by
    by_cases hu : u = w
    · rw [hw, hu, Function.update_self] at h
      exact hdone j h
    · rw [hw, Function.update_of_ne hu] at h
      exact hmono j (hr.worker u j h)

/-- A step outside the pool. -/
theorem Rung.stepClient [DecidableEq ω] (hr : Rung s) {c : ω} {call : Option SubmitPc}
    (hw : s'.worker = s.worker) (hc : s'.client = Function.update s.client c call)
    (hsilent : ∀ μ, silentMass μ call + mass μ s'.rung + mass μ (List.range s.next) =
      silentMass μ (s.client c) + mass μ s.rung + mass μ (List.range s'.next))
    (hmono : ∀ job ∈ s.rung, job ∈ s'.rung)
    (hdone : ∀ job, call = some (.done job) → job ∈ s'.rung)
    (hret : ∀ job ∈ s'.returned, job ∈ s.returned ∨ s.client c = some (.done job)) : Rung s' where
  silent μ := by
    have h1 := hr.silent μ
    have h2 := hsilent μ
    have h3 := sum_update (silentMass μ) s.client c call
    rw [hw, hc]
    omega
  returned j hj := by
    rcases hret j hj with h | h
    · exact hmono j (hr.returned j h)
    · exact hmono j (hr.client c j h)
  client d j h := by
    by_cases hd : d = c
    · rw [hc, hd, Function.update_self] at h
      exact hdone j h
    · rw [hc, Function.update_of_ne hd] at h
      exact hmono j (hr.client d j h)
  worker u j h := hmono j (hr.worker u j (hw ▸ h))

/-- A step of no call of `submit`. -/
theorem Rung.quiet (hr : Rung s) (hw : s'.worker = Function.update s.worker w pc)
    (hc : s'.client = s.client) (hcall : pc.call = (s.worker w).call) (hrung : s'.rung = s.rung)
    (hret : s'.returned = s.returned) (hn : s'.next = s.next) : Rung s' :=
  hr.step hw hc (fun μ => by rw [hcall, hrung, hn]) (fun _ h => hrung ▸ h)
    (fun j h => hrung ▸ hr.worker w j (hcall ▸ h)) fun _ h => .inl (hret ▸ h)

theorem Rung.congr (hr : Rung s) (hw : s'.worker = s.worker) (hc : s'.client = s.client)
    (hrung : s'.rung = s.rung) (hret : s'.returned = s.returned) (hn : s'.next = s.next) :
    Rung s' where
  silent := by rw [hw, hc, hrung, hn]; exact hr.silent
  returned := by rw [hret, hrung]; exact hr.returned
  client := by rw [hc, hrung]; exact hr.client
  worker := by rw [hw, hrung]; exact hr.worker

variable [DecidableEq ω] {l : Label N ω}

theorem Move.rung (hr : Rung s) (h : Move s l s') : Rung s' := by
  cases h with
  | shutdown | store | controlRing | join | pop | steal => exact hr.congr rfl rfl rfl rfl rfl
  | current hw | ownDone hw | injectDone hw | injectNone hw | stealDone hw | flag hw | noFlag hw
  | noPending hw | pending hw | wake hw | finish hw | uncount hw | ring hw | popNone hw | popJob hw
  | injectJob hw | stealNone hw | stealJob hw =>
    exact hr.quiet rfl rfl (by rw [hw]; rfl) rfl rfl rfl
  | @client c p hc =>
    refine hr.stepClient rfl rfl (fun μ => ?_) (fun _ h => h) (by simp) fun _ h => .inl h
    rw [hc]
    simp only [silentMass, List.range_succ, mass_append, mass_cons, mass_nil]
    omega
  | @clientStep c call hc =>
    obtain ⟨h1, h2, h3, h4, h5⟩ := stepSubmit_rung s call
    refine hr.stepClient (stepSubmit_frame s call).2.2 rfl (fun μ => ?_) h2 h3 fun j hj => ?_
    · have := h1 μ
      rw [hc]
      simp only [h5]
      omega
    · rw [hc]
      exact (h4 j hj).imp_right (congrArg some)
  | @nested w p job hw =>
    refine hr.step rfl rfl (fun μ => ?_) (fun _ h => h) (by simp [WorkerPc.call]) fun _ h => .inl h
    rw [hw]
    simp only [State.setWorker, WorkerPc.call, silentMass, List.range_succ, mass_append, mass_cons,
      mass_nil]
    omega
  | @nestedStep w job call hw =>
    obtain ⟨h1, h2, h3, h4, h5⟩ := stepSubmit_rung s call
    refine hr.step (congrArg (Function.update · w _) (stepSubmit_frame s call).2.2)
      (stepSubmit_client s call) (fun μ => ?_) h2 h3 fun j hj => ?_
    · have := h1 μ
      rw [hw]
      simp only [State.setWorker, WorkerPc.call, h5]
      omega
    · rw [hw]
      exact (h4 j hj).imp_right (congrArg some)

omit [DecidableEq ω] in
theorem construct_rung (h : construct N ω = some s) : Rung s := by
  unfold construct at h
  split at h
  · exact absurd h (by simp)
  · obtain ⟨d, -, rfl⟩ := Option.map_eq_some_iff.mp h
    exact
      { silent := fun μ => by simp [silentMass, WorkerPc.call]
        returned := fun _ h => absurd h (by simp)
        client := fun _ _ h => absurd h (by simp)
        worker := fun _ _ h => absurd h (by simp [WorkerPc.call]) }

theorem reachable_rung (h : (machine N ω).Reachable s) : Rung s :=
  h.invariant (fun _ => construct_rung) fun _ _ _ hr _ hst ha =>
    (step_move (reachable_linked hr.reachable) hst).rung ha

omit [DecidableEq ω] in
/-- A job that is being pushed is not rung. -/
theorem Rung.not_mem (hr : Rung s)
    (h : (∃ c, s.client c = some (.push job p)) ∨ ∃ w, (s.worker w).call = some (.push job p)) :
    job ∉ s.rung := fun hmem => by
  have h1 := hr.silent (only job)
  have h2 := mass_only_pos hmem
  have h3 : mass (only job) (List.range s.next) ≤ 1 := by
    rw [mass_only_range]
    split_ifs <;> omega
  have h4 : ∀ {call}, call = some (.push job p) → silentMass (only job) call = 1 := by
    rintro _ rfl
    exact only_self
  rcases h with ⟨c, hc⟩ | ⟨w, hw⟩
  · have := le_sum (fun c => silentMass (only job) (s.client c)) c
    rw [h4 hc] at this
    omega
  · have := le_sum (fun w => silentMass (only job) (s.worker w).call) w
    rw [h4 hw] at this
    omega

end Rung

/-! ## What a search has passed by -/

/-- No job in the list is rung. -/
def NoRung (s : State N ω) (l : List ℕ) : Prop := ∀ job ∈ l, job ∉ s.rung

/-- A third worker took the item at index `t` of deque `(v, p)`. -/
def TakenByThird (s : State N ω) (w v : Fin N) (p : Priority) (t : ℤ) : Prop :=
  0 ≤ t ∧ ∃ u, (s.winners v p)[t.toNat]? = some u ∧ u ≠ v ∧ u ≠ w

/-- What worker `w` may leave behind in deque `(v, p)`. -/
def Excused (s : State N ω) (w v : Fin N) (p : Priority) : Prop :=
  NoRung s (s.adeque v p).items ∨
    ((s.adeque v p).owner = .popping ∧ ∃ job, (s.adeque v p).items = [job]) ∨
    ∃ t, (p, v, t) ∈ s.lost w ∧ TakenByThird s w v p t

/-- What a `steal` by worker `w` in progress on deque `(v, p)` knows. -/
def StealOk (s : State N ω) (w v : Fin N) (p : Priority) : Prop :=
  match (s.adeque v p).thief w with
  | .stealing t => 0 ≤ t ∧ t ≤ (s.adeque v p).front ∧
      (t < (s.adeque v p).front → NoRung s (s.adeque v p).items ∨ TakenByThird s w v p t)
  | .empty | .lost => Excused s w v p
  | _ => True

/-- The jobs in the slots `top_, …, bottom_ - 1`. -/
def contents (d : ChaseLev.State (Fin N) ℕ) : List ℕ := (remaining d).filterMap d.value

theorem mem_items {d : ChaseLev.State (Fin N) ℕ} (hi : ChaseLev.Inv d) (h : job ∈ contents d) :
    job ∈ items d := by
  obtain ⟨ptr, hptr, hval⟩ := List.mem_filterMap.mp h
  obtain ⟨i, h1, h2, rfl⟩ := mem_slice.mp hptr
  have hlb := hi.bottom_near.1
  exact List.reduceOption_mem_iff.mpr (mem_slice.mpr ⟨i, h1, by omega, hval⟩)

/-- The own deques are empty, and no job in an injector is rung. -/
def Cleared (s : State N ω) (w : Fin N) : Prop :=
  (∀ p, (s.adeque w p).items = []) ∧ ∀ p, NoRung s (s.injector p)

/-- What worker `w` knows at each position of its search, without a notification since it began. -/
def Searched (s : State N ω) (w : Fin N) : WorkerPc N → Prop
  | .own _ ps =>
    ∀ p, p ∉ ps ∨ (s.adeque w p).owner = .popped none → (s.adeque w p).items = []
  | .inject _ ps => (∀ p, (s.adeque w p).items = []) ∧ ∀ p ∉ ps, NoRung s (s.injector p)
  | .steal _ ts =>
    Cleared s w ∧ ∀ p v, v ≠ w → ((p, v) ∉ ts → Excused s w v p) ∧ StealOk s w v p
  | .loadFlag _ | .loadPending _ | .wait _ => Cleared s w ∧ ∀ p v, v ≠ w → Excused s w v p
  | _ => True

/-- The generation a worker took before its search. -/
def WorkerPc.snapshot : WorkerPc N → Option ℕ
  | .own gen _ | .inject gen _ | .steal gen _ | .loadFlag gen | .loadPending gen | .wait gen =>
    some gen
  | _ => none

/-! ### The steps of the others -/

/-- What worker `w` can see of a step of another thread in the deque of worker `v`. -/
structure DequeSeen (s s' : State N ω) (w v : Fin N) (p : Priority) : Prop where
  items : ∀ job ∈ (s'.adeque v p).items, job ∈ (s.adeque v p).items ∨ job ∈ s.injector p
  last : ∀ job, (s.adeque v p).owner = .popping → (s.adeque v p).items = [job] →
    (s'.adeque v p).items = [] ∨
      (s'.adeque v p).items = [job] ∧ (s'.adeque v p).owner = .popping
  thief : (s'.adeque v p).thief w = (s.adeque v p).thief w
  front : (s'.adeque v p).front = (s.adeque v p).front ∧ s'.winners v p = s.winners v p ∨
    (s'.adeque v p).front = (s.adeque v p).front + 1 ∧ ∃ u,
      s'.winners v p = s.winners v p ++ [u] ∧ u ≠ w ∧ (u ≠ v ∨ (s'.adeque v p).items = [])

/-- What worker `w` can see of a step of another thread that does not notify. -/
structure Seen (s s' : State N ω) (w : Fin N) : Prop where
  lost : s'.lost w = s.lost w
  rung : s'.rung = s.rung
  injector : ∀ p, ∀ job ∈ s'.injector p, job ∈ s.injector p ∨ job ∉ s.rung
  owner : ∀ p, (s'.adeque w p).owner = (s.adeque w p).owner
  own : ∀ p, (s.adeque w p).items = [] → (s'.adeque w p).items = []
  deque : ∀ v p, v ≠ w → DequeSeen s s' w v p

theorem DequeSeen.refl (w v : Fin N) (p : Priority) (ha : s'.adeque v p = s.adeque v p)
    (hwin : s'.winners v p = s.winners v p) : DequeSeen s s' w v p where
  items job h := .inl (ha ▸ h)
  last job ho hl := .inr ⟨ha ▸ hl, ha ▸ ho⟩
  thief := by rw [ha]
  front := .inl ⟨by rw [ha], hwin⟩

theorem NoRung.mono {l l' : List ℕ} (h : NoRung s l) (hrung : s'.rung = s.rung)
    (hl : ∀ job ∈ l', job ∈ l ∨ job ∉ s.rung) : NoRung s' l' := fun job hj => by
  rw [hrung]
  exact (hl job hj).elim (h job) id

namespace Seen

variable (h : Seen s s' w) (hinj : ∀ p, NoRung s (s.injector p))
include h

theorem takenByThird (hv : v ≠ w) {t : ℤ} (ht : TakenByThird s w v p t) :
    TakenByThird s' w v p t := by
  obtain ⟨h0, u, hu, hne⟩ := ht
  refine ⟨h0, u, ?_, hne⟩
  rcases (h.deque v p hv).front with ⟨-, hwin⟩ | ⟨-, u', hwin, -⟩
  · rw [hwin, hu]
  · rw [hwin, List.getElem?_append_left (List.getElem?_eq_some_iff.mp hu).1, hu]

include hinj

theorem noRung (hv : v ≠ w) (hn : NoRung s (s.adeque v p).items) :
    NoRung s' (s'.adeque v p).items :=
  hn.mono h.rung fun job hj => ((h.deque v p hv).items job hj).imp_right (hinj p job)

theorem excused (hv : v ≠ w) (he : Excused s w v p) : Excused s' w v p := by
  rcases he with hn | ⟨ho, job, hl⟩ | ⟨t, ht, htaken⟩
  · exact .inl (h.noRung hinj hv hn)
  · rcases (h.deque v p hv).last job ho hl with hl' | ⟨hl', ho'⟩
    · refine .inl fun job hj => ?_
      rw [hl'] at hj
      exact absurd hj List.not_mem_nil
    · exact .inr (.inl ⟨ho', job, hl'⟩)
  · exact .inr (.inr ⟨t, h.lost ▸ ht, h.takenByThird hv htaken⟩)

theorem stealOk (hl : Linked s) (hv : v ≠ w) (hs : StealOk s w v p) : StealOk s' w v p := by
  have hd := h.deque v p hv
  unfold StealOk at hs ⊢
  rw [hd.thief]
  split at hs
  · rename_i t _
    obtain ⟨h0, hle, hlt⟩ := hs
    refine ⟨h0, ?_, fun hlt' => ?_⟩
    · rcases hd.front with ⟨hf, -⟩ | ⟨hf, -⟩ <;> omega
    · by_cases hold : t < (s.adeque v p).front
      · exact (hlt hold).imp (h.noRung hinj hv) (h.takenByThird hv)
      · -- the step took the item this `steal` is after
        rcases hd.front with ⟨hf, -⟩ | ⟨hf, u, hwin, hu, hor⟩
        · omega
        · rcases hor with hor | hnil
          · refine .inr ⟨h0, u, ?_, hor, hu⟩
            have hlen := hl.winners v p
            have ht : t.toNat = (s.winners v p).length := by omega
            rw [hwin, ht, List.getElem?_concat_length]
          · refine .inl fun job hj => ?_
            rw [hnil] at hj
            exact absurd hj List.not_mem_nil
  · exact h.excused hinj hv hs
  · exact h.excused hinj hv hs
  · trivial

omit hinj

theorem cleared (hc : Cleared s w) : Cleared s' w :=
  ⟨fun p => h.own p (hc.1 p), fun p => (hc.2 p).mono h.rung (h.injector p)⟩

/-- **What a search knows stays true while the others move**, as long as none notifies. -/
theorem searched (hl : Linked s) {pc : WorkerPc N} (hs : Searched s w pc) :
    Searched s' w pc := by
  cases pc with
  | own gen ps =>
    intro p hp
    rw [h.owner p] at hp
    exact h.own p (hs p hp)
  | inject gen ps =>
    exact ⟨fun p => h.own p (hs.1 p), fun p hp => (hs.2 p hp).mono h.rung (h.injector p)⟩
  | steal gen ts =>
    obtain ⟨hc, hv⟩ := hs
    exact ⟨h.cleared hc, fun p v hne => ⟨fun ht => h.excused hc.2 hne ((hv p v hne).1 ht),
      h.stealOk hc.2 hl hne (hv p v hne).2⟩⟩
  | loadFlag gen | loadPending gen | wait gen =>
    obtain ⟨hc, hv⟩ := hs
    exact ⟨h.cleared hc, fun p v hne => h.excused hc.2 hne (hv p v hne)⟩
  | _ => trivial

end Seen

/-- A step that leaves the deques alone. -/
theorem Seen.of_eq (hlost : s'.lost w = s.lost w) (hrung : s'.rung = s.rung)
    (hinj : ∀ p, ∀ job ∈ s'.injector p, job ∈ s.injector p ∨ job ∉ s.rung)
    (hd : s'.deque = s.deque) (hwin : s'.winners = s.winners) : Seen s s' w := by
  have ha : s'.adeque = s.adeque := by
    funext v p
    simp only [State.adeque, hd]
  exact
    { lost := hlost
      rung := hrung
      injector := hinj
      owner := fun p => by rw [ha]
      own := fun p h => by rw [ha, h]
      deque := fun v p _ => .refl w v p (by rw [ha]) (by rw [hwin]) }

theorem Seen.congr {t : State N ω} (h : Seen s t w) (hlost : s'.lost = t.lost)
    (hrung : s'.rung = t.rung) (hinj : s'.injector = t.injector) (hd : s'.deque = t.deque)
    (hwin : s'.winners = t.winners) : Seen s s' w := by
  have ha : s'.adeque = t.adeque := by
    funext v p
    simp only [State.adeque, hd]
  exact
    { lost := by rw [hlost, h.lost]
      rung := by rw [hrung, h.rung]
      injector := by rw [hinj]; exact h.injector
      owner := by rw [ha]; exact h.owner
      own := by rw [ha]; exact h.own
      deque := fun v p hv =>
        { items := by rw [ha]; exact (h.deque v p hv).items
          last := by rw [ha]; exact (h.deque v p hv).last
          thief := by rw [ha, (h.deque v p hv).thief]
          front := by rw [ha, hwin]; exact (h.deque v p hv).front } }

theorem winners_setDeque (s : State N ω) (u : Fin N) {d : ChaseLev.State (Fin N) ℕ}
    (hf : (toAtomic d).front = (s.adeque v p).front ∨
      (toAtomic d).front = (s.adeque v p).front + 1) :
    (toAtomic d).front = (s.adeque v p).front ∧
        (s.setDeque u v p d).winners v p = s.winners v p ∨
      (toAtomic d).front = (s.adeque v p).front + 1 ∧
        (s.setDeque u v p d).winners v p = s.winners v p ++ [u] := by
  have hd : (toAtomic d).front = d.top := rfl
  have hs : (s.adeque v p).front = (s.deque v p).top := rfl
  rcases hf with hf | hf
  · refine .inl ⟨hf, ?_⟩
    simp only [State.setDeque, if_pos (hd ▸ hs ▸ hf)]
  · refine .inr ⟨hf, ?_⟩
    have hne : d.top ≠ (s.deque v p).top := by omega
    simp only [State.setDeque, if_neg hne, Function.update_self]

/-- A step of worker `u` on deque `(v, p)`. -/
theorem Seen.of_setDeque {u : Fin N} {d : ChaseLev.State (Fin N) ℕ} (hu : u ≠ w)
    (hlost : s'.lost w = s.lost w) (hrung : s'.rung = s.rung)
    (hinj : ∀ p, ∀ job ∈ s'.injector p, job ∈ s.injector p ∨ job ∉ s.rung)
    (hd : s'.deque = (s.setDeque u v p d).deque) (hwin : s'.winners = (s.setDeque u v p d).winners)
    (hitems : ∀ job ∈ (toAtomic d).items,
      job ∈ (s.adeque v p).items ∨ job ∈ s.injector p ∧ u = v)
    (howner : u ≠ v → (toAtomic d).owner = (s.adeque v p).owner)
    (hlast : ∀ job, (s.adeque v p).owner = .popping → (s.adeque v p).items = [job] →
      (toAtomic d).items = [] ∨ (toAtomic d).items = [job] ∧ (toAtomic d).owner = .popping)
    (hthief : (toAtomic d).thief w = (s.adeque v p).thief w)
    (hfront : (toAtomic d).front = (s.adeque v p).front ∨
      (toAtomic d).front = (s.adeque v p).front + 1 ∧ (u ≠ v ∨ (toAtomic d).items = [])) :
    Seen s s' w := by
  have ha : s'.adeque = (s.setDeque u v p d).adeque := by
    funext v p
    simp only [State.adeque, hd]
  have hself : s'.adeque v p = toAtomic d := by rw [ha, adeque_setDeque]
  have hother : ∀ {v' p'}, ¬ (v' = v ∧ p' = p) → s'.adeque v' p' = s.adeque v' p' := fun h => by
    rw [ha, adeque_setDeque_of_ne s u d h]
  refine ⟨hlost, hrung, hinj, fun p' => ?_, fun p' hnil => ?_, fun v' p' hv' => ?_⟩
  · by_cases h : w = v ∧ p' = p
    · obtain ⟨rfl, rfl⟩ := h
      rw [hself, howner hu]
    · rw [hother h]
  · by_cases h : w = v ∧ p' = p
    · obtain ⟨rfl, rfl⟩ := h
      rw [hself]
      refine List.eq_nil_iff_forall_not_mem.mpr fun job hj => ?_
      rcases hitems job hj with h | ⟨-, h⟩
      · rw [hnil] at h
        exact List.not_mem_nil h
      · exact hu h
    · rw [hother h, hnil]
  · by_cases h : v' = v ∧ p' = p
    · obtain ⟨rfl, rfl⟩ := h
      refine ⟨fun job hj => ?_, ?_, ?_, ?_⟩
      · rw [hself] at hj
        exact (hitems job hj).imp_right And.left
      · rw [hself]
        exact hlast
      · rw [hself, hthief]
      · rw [hself, hwin]
        rcases winners_setDeque s u (hfront.imp_right And.left) with ⟨hf, hw⟩ | ⟨hf, hw⟩
        · exact .inl ⟨hf, hw⟩
        · refine .inr ⟨hf, u, hw, hu, ?_⟩
          rcases hfront with hf' | ⟨-, hor⟩
          · omega
          · exact hor
    · exact .refl w v' p' (hother h) (by rw [hwin, (setDeque_of_ne s u d h).2])

/-- A step of another worker with its own deque, in `pop`. -/
theorem Seen.of_owner {u : Fin N} {d : ChaseLev.State (Fin N) ℕ} {r : Option ℕ} (hl : Linked s)
    (hu : u ≠ w) (hlost : s'.lost w = s.lost w) (hrung : s'.rung = s.rung)
    (hinj : s'.injector = s.injector) (hd : s'.deque = (s.setDeque u u p d).deque)
    (hwin : s'.winners = (s.setDeque u u p d).winners)
    (hst : (Step (s.adeque u p) .pop (toAtomic d) ∨ Step (s.adeque u p) .owner (toAtomic d)) ∨
      Step (s.adeque u p) (.popped r) (toAtomic d)) : Seen s s' w := by
  have hpush := hl.not_pushing u p
  refine .of_setDeque hu hlost hrung (fun _ _ h => .inl (hinj ▸ h)) hd hwin (fun job hj => .inl ?_)
    (fun h => absurd rfl h) (fun job ho hitems => ?_) ?_ ?_
  · rcases hst with (h | h) | h <;> exact h.shrinks hpush hj
  · rcases hst with (h | h) | h <;> exact h.last ho hitems
  · rcases hst with h | h
    · rw [Step.owner_frame h]
    · rw [h.popped_frame.2]
  · rcases hst with h | h
    · exact (Step.front_owner h).imp_right fun h => ⟨h.1, .inr h.2⟩
    · exact .inl (by rw [h.popped_frame.2])

/-- A step of another worker in `steal`, maybe on a deque of worker `w`. -/
theorem Seen.of_thief {u : Fin N} {d : ChaseLev.State (Fin N) ℕ} {r : Option ℕ} (hl : Linked s)
    (hu : u ≠ w) (hv : v ≠ u) (hlost : s'.lost w = s.lost w) (hrung : s'.rung = s.rung)
    (hinj : s'.injector = s.injector) (hd : s'.deque = (s.setDeque u v p d).deque)
    (hwin : s'.winners = (s.setDeque u v p d).winners)
    (hst : (Step (s.adeque v p) (.steal u) (toAtomic d) ∨
      Step (s.adeque v p) (.thief u) (toAtomic d)) ∨
      Step (s.adeque v p) (.stolen u r) (toAtomic d)) : Seen s s' w := by
  have hpush := hl.not_pushing v p
  refine .of_setDeque hu hlost hrung (fun _ _ h => .inl (hinj ▸ h)) hd hwin (fun job hj => .inl ?_)
    (fun _ => ?_) (fun job ho hitems => ?_) ?_ ?_
  · rcases hst with (h | h) | h <;> exact h.shrinks hpush hj
  · rcases hst with h | h
    · exact (Step.thief_frame h).1
    · rw [h.stolen_frame]
      rfl
  · rcases hst with (h | h) | h <;> exact h.last ho hitems
  · rcases hst with h | h
    · exact (Step.thief_frame h).2 w hu.symm
    · rw [h.stolen_frame, Atomic.setThief_of_ne _ _ hu.symm]
  · have hf : (toAtomic d).front = (s.adeque v p).front ∨
        (toAtomic d).front = (s.adeque v p).front + 1 := by
      rcases hst with (h | h) | h <;> exact h.front
    exact hf.imp_right fun h => ⟨h, .inl hv.symm⟩

/-- A step of `submit` that does not notify. -/
theorem stepSubmit_seen [Fintype ω] (hr : Rung s) {call : SubmitPc}
    (hc : (∃ c, s.client c = some call) ∨ ∃ w, (s.worker w).call = some call) :
    (stepSubmit s call).1.gen = s.gen + 1 ∨
      (stepSubmit s call).1.gen = s.gen ∧ ∀ w, Seen s (stepSubmit s call).1 w := by
  cases call with
  | count job p | done job =>
    exact .inr ⟨rfl, fun w => .of_eq rfl rfl (fun _ _ h => .inl h) rfl rfl⟩
  | push job p =>
    refine .inr ⟨rfl, fun w => .of_eq rfl rfl (fun p' j hj => ?_) rfl rfl⟩
    by_cases hp : p' = p
    · subst hp
      simp only [stepSubmit, State.setInjector, Function.update_self, List.mem_append,
        List.mem_singleton] at hj
      rcases hj with h | rfl
      · exact .inl h
      · exact .inr (hr.not_mem hc)
    · simp only [stepSubmit, State.setInjector, Function.update_of_ne hp] at hj
      exact .inl hj
  | ring job => exact .inl rfl

/-! ### The worker's own steps -/

/-- While no notification has come since a worker took its generation, it knows what its search
has passed by. -/
def Watchful (s : State N ω) : Prop := s.gen < 2 ^ 64 → ∀ w gen,
  (s.worker w).snapshot = some gen → gen ≤ s.gen ∧ (s.gen = gen → Searched s w (s.worker w))

/-- A step of worker `w` that does not notify. -/
theorem Watchful.step (hs : Watchful s) (hl : Linked s) (hgen : s'.gen = s.gen)
    (hw : s'.worker = Function.update s.worker w pc) (hseen : ∀ u, w ≠ u → Seen s s' u)
    (hself : s.gen < 2 ^ 64 → ∀ gen, pc.snapshot = some gen →
      (s.worker w).snapshot = some gen ∧ (Searched s w (s.worker w) → Searched s' w pc) ∨
        gen = s.gen ∧ Searched s' w pc) : Watchful s' := fun hlt u gen hu => by
  rw [hgen] at hlt ⊢
  by_cases huw : u = w
  · rw [huw, hw, Function.update_self] at hu ⊢
    rcases hself hlt gen hu with ⟨hold, hstep⟩ | ⟨rfl, hstep⟩
    · obtain ⟨hle, h⟩ := hs hlt w gen hold
      exact ⟨hle, fun he => hstep (h he)⟩
    · exact ⟨le_rfl, fun _ => hstep⟩
  · rw [hw, Function.update_of_ne huw] at hu ⊢
    obtain ⟨hle, h⟩ := hs hlt u gen hu
    exact ⟨hle, fun he => (hseen u (Ne.symm huw)).searched hl (h he)⟩

/-- A step that changes no program counter and does not notify. -/
theorem Watchful.outside (hs : Watchful s) (hl : Linked s) (hgen : s'.gen = s.gen)
    (hw : s'.worker = s.worker) (hseen : ∀ u, Seen s s' u) : Watchful s' := fun hlt u gen hu => by
  rw [hgen] at hlt ⊢
  rw [hw] at hu ⊢
  obtain ⟨hle, h⟩ := hs hlt u gen hu
  exact ⟨hle, fun he => (hseen u).searched hl (h he)⟩

/-- A step that notifies. -/
theorem Watchful.ring (hs : Watchful s) (hgen : s'.gen = s.gen + 1)
    (hw : ∀ u gen, (s'.worker u).snapshot = some gen → (s.worker u).snapshot = some gen) :
    Watchful s' := fun hlt u gen hu => by
  obtain ⟨hle, -⟩ := hs (by omega) u gen (hw u gen hu)
  exact ⟨by omega, fun he => by omega⟩

/-- A step of worker `w` with nothing but its program counter. -/
theorem Watchful.goto (hs : Watchful s) (hl : Linked s) (hgen : s'.gen = s.gen)
    (hw : s'.worker = Function.update s.worker w pc) (hlost : ∀ u, w ≠ u → s'.lost u = s.lost u)
    (hrung : s'.rung = s.rung) (hinj : s'.injector = s.injector) (hd : s'.deque = s.deque)
    (hwin : s'.winners = s.winners)
    (hself : s.gen < 2 ^ 64 → ∀ gen, pc.snapshot = some gen →
      (s.worker w).snapshot = some gen ∧ (Searched s w (s.worker w) → Searched s' w pc) ∨
        gen = s.gen ∧ Searched s' w pc) : Watchful s' :=
  hs.step hl hgen hw
    (fun u hu => .of_eq (hlost u hu) hrung (fun _ _ h => .inl (hinj ▸ h)) hd hwin) hself

theorem StealOk.of_idle (h : (s.adeque v p).thief w = .idle) : StealOk s w v p := by
  unfold StealOk
  rw [h]
  trivial

/-- What worker `w` knows of a deque that its own step does not touch. -/
theorem Excused.congr (h : Excused s w v p) (ha : s'.adeque v p = s.adeque v p)
    (hrung : s'.rung = s.rung) (hlost : ∀ x ∈ s.lost w, x ∈ s'.lost w)
    (hwin : s'.winners v p = s.winners v p) : Excused s' w v p := by
  unfold Excused NoRung TakenByThird at h ⊢
  rw [ha, hrung, hwin]
  exact h.imp_right fun h => h.imp_right fun ⟨t, ht, h⟩ => ⟨t, hlost _ ht, h⟩

theorem StealOk.congr (h : StealOk s w v p) (ha : s'.adeque v p = s.adeque v p)
    (hrung : s'.rung = s.rung) (hlost : ∀ x ∈ s.lost w, x ∈ s'.lost w)
    (hwin : s'.winners v p = s.winners v p) : StealOk s' w v p := by
  unfold StealOk NoRung TakenByThird at h ⊢
  rw [ha, hrung, hwin]
  split at h
  · exact h
  · exact Excused.congr h ha hrung hlost hwin
  · exact Excused.congr h ha hrung hlost hwin
  · trivial

/-- A step of worker `w` in its own `steal` on deque `(v, p)`. -/
theorem StealOk.own {a : Deque (Fin N) ℕ} (hok : StealOk s w v p) (hl : Linked s)
    (hst : Step (s.adeque v p) (.steal w) a ∨ Step (s.adeque v p) (.thief w) a)
    (ha : s'.adeque v p = a) (hrung : s'.rung = s.rung)
    (hwin : a.front = (s.adeque v p).front → s'.winners v p = s.winners v p)
    (hlost : ∀ x ∈ s.lost w, x ∈ s'.lost w)
    (hnew : ∀ t, (s.adeque v p).thief w = .stealing t → a.thief w = .lost →
      (p, v, t) ∈ s'.lost w) : StealOk s' w v p := by
  have hdone : ∀ {st}, a.thief w = st → (∀ t, st ≠ .stealing t) → st ≠ .empty → st ≠ .lost →
      StealOk s' w v p := by
    intro st hst h1 h2 h3
    unfold StealOk
    rw [ha, hst]
    split
    · exact absurd rfl (h1 _)
    · exact absurd rfl h2
    · exact absurd rfl h3
    · trivial
  have hexcused : a.thief w = .empty ∨ a.thief w = .lost → Excused s' w v p →
      StealOk s' w v p := by
    rintro (h | h) he <;> · unfold StealOk; rw [ha, h]; exact he
  rcases hst with hst | hst
  · cases hst
    exact hdone (Atomic.setThief_self _ _ _) (by simp) (by simp) (by simp)
  · cases hst with
    | thiefStutter => exact hok.congr ha hrung hlost (hwin rfl)
    | observe =>
      have h0 : 0 ≤ (s.adeque v p).front := by
        have := hl.winners v p
        omega
      unfold StealOk
      rw [ha, Atomic.setThief_self]
      exact ⟨h0, le_rfl, fun h => absurd h (lt_irrefl _)⟩
    | linSteal => exact hdone (Atomic.setThief_self _ _ _) (by simp) (by simp) (by simp)
    | linEmpty hpc hlen howner =>
      refine hexcused (.inl (Atomic.setThief_self _ _ _)) ?_
      unfold Excused
      rw [ha]
      cases hitems : (s.adeque v p).items with
      | nil => exact .inl fun job hj => absurd (hitems ▸ hj) List.not_mem_nil
      | cons job l =>
        have hnil : l = [] := List.eq_nil_of_length_eq_zero (by simp_all)
        exact .inr (.inl ⟨howner (by simp [hitems]), job, by rw [← hnil, ← hitems]; rfl⟩)
    | @linLost _ t hpc hlt =>
      refine hexcused (.inr (Atomic.setThief_self _ _ _)) ?_
      have hmem := hnew t hpc (Atomic.setThief_self _ _ _)
      unfold StealOk at hok
      rw [hpc] at hok
      rcases hok.2.2 hlt with h | ⟨h0, u, hu, hne⟩
      · refine .inl ?_
        rw [ha]
        exact h.mono hrung fun _ => .inl
      · exact .inr (.inr ⟨t, hmem, h0, u, by rw [hwin rfl, hu], hne⟩)

/-- A step of worker `w` with its own deque `(w, p)`, in its search of its own deques. -/
theorem Searched.ownStep {gen : ℕ} {ps ps' : List Priority} {d : ChaseLev.State (Fin N) ℕ}
    (h : Searched s w (.own gen ps)) (hd : s'.deque = (s.setDeque w w p d).deque)
    (hps : ∀ p', p' ≠ p → p' ∉ ps' → p' ∉ ps)
    (hthis : p ∉ ps' ∨ (toAtomic d).owner = .popped none → (toAtomic d).items = []) :
    Searched s' w (.own gen ps') := by
  have ha : s'.adeque = (s.setDeque w w p d).adeque := by
    funext v p
    simp only [State.adeque, hd]
  intro p' hp'
  rw [ha] at hp' ⊢
  by_cases hp : p' = p
  · subst hp
    rw [adeque_setDeque] at hp' ⊢
    exact hthis hp'
  · have hne : ¬ (w = w ∧ p' = p) := by simp [hp]
    rw [adeque_setDeque_of_ne s w d hne] at hp' ⊢
    exact h p' (hp'.imp_left (hps p' hp))

/-- A step of worker `w` with deque `(v, p)`, in its search of the deques of others. -/
theorem Searched.stealStep {gen : ℕ} {ts ts' : List (Priority × Fin N)}
    {d : ChaseLev.State (Fin N) ℕ} (h : Searched s w (.steal gen ts)) (hne : v ≠ w)
    (hd : s'.deque = (s.setDeque w v p d).deque) (hwin : s'.winners = (s.setDeque w v p d).winners)
    (hrung : s'.rung = s.rung) (hinj : s'.injector = s.injector)
    (hlost : ∀ x ∈ s.lost w, x ∈ s'.lost w) (hts : ∀ x, x ≠ (p, v) → x ∉ ts' → x ∉ ts)
    (hthis : ((p, v) ∉ ts' → Excused s' w v p) ∧ StealOk s' w v p) :
    Searched s' w (.steal gen ts') := by
  obtain ⟨⟨hown, hin⟩, hv⟩ := h
  have hother : ∀ {v' p'}, ¬ (v' = v ∧ p' = p) → s'.adeque v' p' = s.adeque v' p' := fun h => by
    have ha : s'.adeque = (s.setDeque w v p d).adeque := by
      funext v p
      simp only [State.adeque, hd]
    rw [ha, adeque_setDeque_of_ne s w d h]
  refine ⟨⟨fun p' => ?_, fun p' => ?_⟩, fun p' v' hv' => ?_⟩
  · rw [hother fun h => hne h.1.symm]
    exact hown p'
  · exact (hin p').mono hrung fun _ hj => .inl (hinj ▸ hj)
  · by_cases hvp : v' = v ∧ p' = p
    · obtain ⟨rfl, rfl⟩ := hvp
      exact hthis
    · have hx : (p', v') ≠ (p, v) := fun h => hvp ⟨(Prod.mk.inj h).2, (Prod.mk.inj h).1⟩
      have hw : s'.winners v' p' = s.winners v' p' := by
        rw [hwin]
        exact (setDeque_of_ne s w d hvp).2
      obtain ⟨he, hok⟩ := hv p' v' hv'
      exact ⟨fun hmem => (he (hts _ hx hmem)).congr (hother hvp) hrung hlost hw,
        hok.congr (hother hvp) hrung hlost hw⟩

/-- A `steal` that has returned nothing leaves an excuse. -/
theorem StealOk.stolen {d : ChaseLev.State (Fin N) ℕ} (hok : StealOk s w v p)
    (hst : Step (s.adeque v p) (.stolen w none) (toAtomic d))
    (ha : s'.adeque v p = toAtomic d) (hrung : s'.rung = s.rung) (hlost : s'.lost w = s.lost w)
    (hwin : s'.winners v p = s.winners v p) : Excused s' w v p := by
  have he : Excused s w v p := by
    unfold StealOk at hok
    rcases hst.stolen_none with h | h <;> · rw [h] at hok; exact hok
  unfold Excused NoRung TakenByThird at he ⊢
  rw [ha, hst.stolen_frame, hrung, hlost, hwin]
  exact he

/-! ### Every step -/

section Moves

variable [Fintype ω] [DecidableEq ω] {l : Label N ω}

omit [Fintype ω] [DecidableEq ω] in
/-- A step of worker `w` in which its search passes on without touching anything. -/
theorem Watchful.passOn (hs : Watchful s) (hl : Linked s)
    (hsnap : ∀ gen, pc.snapshot = some gen → (s.worker w).snapshot = some gen)
    (hsearch : Searched s w (s.worker w) → Searched s w pc) : Watchful (s.setWorker w pc) := by
  refine hs.goto hl rfl rfl (fun _ _ => rfl) rfl rfl rfl rfl fun _ gen hg => .inl ⟨hsnap gen hg, ?_⟩
  intro h
  -- nothing that `Searched` looks at has changed
  have hc := hsearch h
  cases pc <;> exact hc

theorem Move.watchful (hl : Linked s) (hr : Rung s) (hs : Watchful s) (h : Move s l s') :
    Watchful s' := by
  cases h with
  | client | shutdown | store | join =>
    exact hs.outside hl rfl rfl fun _ => .of_eq rfl rfl (fun _ _ h => .inl h) rfl rfl
  | controlRing => exact hs.ring rfl fun _ _ h => h
  | @clientStep c call hc =>
    have hframe := (stepSubmit_frame s call).2.2
    rcases stepSubmit_seen hr (.inl ⟨c, hc⟩) with hgen | ⟨hgen, hseen⟩
    · exact hs.ring hgen fun u gen h => hframe ▸ h
    · exact hs.outside hl hgen hframe fun u => (hseen u).congr rfl rfl rfl rfl rfl
  | @nestedStep w job call hw =>
    have hframe := congrArg (Function.update · w (.body job (stepSubmit s call).2))
      (stepSubmit_frame s call).2.2
    rcases stepSubmit_seen hr (.inr ⟨w, by rw [hw]; rfl⟩) with hgen | ⟨hgen, hseen⟩
    · refine hs.ring hgen fun u gen h => ?_
      by_cases hu : u = w
      · rw [hu, setWorker_self] at h
        exact absurd h (by simp [WorkerPc.snapshot])
      · rw [setWorker_of_ne _ _ hu, (stepSubmit_frame s call).2.2] at h
        exact h
    · exact hs.step hl hgen hframe (fun u _ => (hseen u).congr rfl rfl rfl rfl rfl)
        fun _ _ h => absurd h (by simp [WorkerPc.snapshot])
  | @ring w hw =>
    refine hs.ring rfl fun u gen h => ?_
    by_cases hu : u = w
    · rw [hu, setWorker_self] at h
      exact absurd h (by simp [WorkerPc.snapshot])
    · rw [setWorker_of_ne _ _ hu] at h
      exact h
  | nested hw | finish hw | uncount hw =>
    exact hs.goto hl rfl rfl (fun _ _ => rfl) rfl rfl rfl rfl
      fun _ _ h => absurd h (by simp [WorkerPc.snapshot])
  | wake hw | noPending hw =>
    exact hs.passOn hl (fun _ h => absurd h (by simp [WorkerPc.snapshot])) fun _ => trivial
  | flag hw | noFlag hw | pending hw =>
    exact hs.passOn hl (fun _ h => by rw [hw]; exact h) fun h => by rw [hw] at h; exact h
  | @current w hw =>
    have ho := (hl.calm (w := w) (by simp [hw]) (by simp [hw])).1
    refine hs.goto hl rfl rfl (fun u hu => Function.update_of_ne (Ne.symm hu) _ _) rfl rfl rfl rfl
      fun hlt gen hg => .inr ?_
    obtain rfl := Option.some.inj hg
    refine ⟨Nat.mod_eq_of_lt hlt, fun p hp => ?_⟩
    rcases hp with hp | hp
    · exact absurd (mem_kPriorityOrder p) hp
    · exact absurd ((ho p).symm.trans hp) (by simp)
  | @ownDone w gen hw =>
    refine hs.passOn hl (fun _ h => by rw [hw]; exact h) fun h => ?_
    rw [hw] at h
    exact ⟨fun p => h p (.inl List.not_mem_nil), fun p hp => absurd (mem_kPriorityOrder p) hp⟩
  | @injectNone w gen p ps hw hq =>
    refine hs.passOn hl (fun _ h => by rw [hw]; exact h) fun h => ?_
    rw [hw] at h
    refine ⟨h.1, fun p' hp' job hj => ?_⟩
    by_cases hp : p' = p
    · rw [hp, hq] at hj
      exact absurd hj List.not_mem_nil
    · exact h.2 p' (fun hmem => (List.mem_cons.mp hmem).elim hp hp') job hj
  | @injectDone w gen hw =>
    have ht := (hl.calm (w := w) (by simp [hw]) (by simp [hw])).2
    refine hs.passOn hl (fun _ h => by rw [hw]; exact h) fun h => ?_
    rw [hw] at h
    exact ⟨⟨h.1, fun p => h.2 p List.not_mem_nil⟩, fun p v hv =>
      ⟨fun hmem => absurd (mem_targets.mpr hv) hmem, .of_idle (ht v p)⟩⟩
  | @stealDone w gen hw =>
    refine hs.passOn hl (fun _ h => by rw [hw]; exact h) fun h => ?_
    rw [hw] at h
    exact ⟨h.1, fun p v hv => (h.2 p v hv).1 List.not_mem_nil⟩
  | @pop w gen p ps d hw hi hst =>
    refine hs.step hl rfl (Function.update_eq_self w s.worker).symm
      (fun u hu => .of_owner (r := none) hl hu rfl rfl rfl rfl rfl (.inl hst)) fun _ gen' hg =>
        .inl ⟨hg, fun h => ?_⟩
    rw [hw] at h ⊢
    refine h.ownStep rfl (fun _ _ hp => hp) fun hp => ?_
    rcases hp with hp | hp
    · exact absurd List.mem_cons_self hp
    · exact Step.popped_none hst (fun hpopped => h p (.inr hpopped)) hp
  | @popNone w gen p ps d hw hi hst =>
    obtain ⟨hpopped, ha⟩ := hst.popped_frame
    refine hs.step hl rfl rfl (fun u hu => .of_owner hl hu rfl rfl rfl rfl rfl (.inr hst))
      fun _ gen' hg => .inl ⟨by rw [hw]; exact hg, fun h => ?_⟩
    rw [hw] at h
    refine h.ownStep rfl (fun p' hp hmem hcons => (List.mem_cons.mp hcons).elim hp hmem) fun _ => ?_
    rw [ha]
    exact h p (.inr hpopped)
  | @popJob w gen p ps d job hw hi hst =>
    exact hs.step hl rfl rfl (fun u hu => .of_owner hl hu rfl rfl rfl rfl rfl (.inr hst))
      fun _ _ h => absurd h (by simp [WorkerPc.snapshot])
  | @injectJob w gen p ps d job moved queue hw hi hq hlen ha =>
    have hidle := (hl.calm (w := w) (by simp [hw]) (by simp [hw])).1 p
    have hsub : ∀ x, x ∈ moved ∨ x ∈ queue → x ∈ s.injector p := fun x hx => by
      rw [hq]
      exact List.mem_cons_of_mem _ (List.mem_append.mpr hx)
    refine hs.step hl rfl rfl (fun u hu => ?_) fun _ _ h => absurd h (by simp [WorkerPc.snapshot])
    refine .of_setDeque (d := d) hu rfl rfl (fun p' x hx => .inl ?_) rfl rfl (fun x hx => ?_)
      (fun h => absurd rfl h) (fun x ho => absurd (hidle.symm.trans ho) (by simp)) (by rw [ha])
      (.inl (by rw [ha]))
    · by_cases hp : p' = p
      · subst hp
        simp only [State.start, State.setWorker, State.setDeque, State.setInjector,
          Function.update_self] at hx
        exact hsub x (.inr hx)
      · simp only [State.start, State.setWorker, State.setDeque, State.setInjector,
          Function.update_of_ne hp] at hx
        exact hx
    · rw [ha] at hx
      exact (List.mem_append.mp hx).imp_right fun h => ⟨hsub x (.inl h), rfl⟩
  | @steal w gen p v ts d hw hi hst hnew =>
    have hne : v ≠ w := hl.targets w gen _ hw _ List.mem_cons_self
    refine hs.step hl rfl (Function.update_eq_self w s.worker).symm (fun u hu =>
      .of_thief (r := none) hl hu hne (Function.update_of_ne (Ne.symm hu) _ _) rfl rfl rfl rfl
        (.inl hst)) fun _ gen' hg => .inl ⟨hg, fun h => ?_⟩
    rw [hw] at h ⊢
    have hmono : ∀ x ∈ s.lost w, x ∈ Function.update s.lost w
        (s.lost w ++ (lostAt w (s.deque v p) d).toList.map fun t => (p, v, t)) w := fun x hx => by
      rw [Function.update_self]
      exact List.mem_append_left _ hx
    refine h.stealStep hne rfl rfl rfl rfl hmono (fun _ _ hx => hx)
      ⟨fun hmem => absurd List.mem_cons_self hmem, ?_⟩
    refine StealOk.own (h.2 p v hne).2 hl hst (adeque_setDeque s w v p d) rfl (fun hf => ?_) hmono
      fun t ht hlost => ?_
    · rcases winners_setDeque s w (.inl hf) with ⟨-, h⟩ | ⟨h, -⟩
      · exact h
      · omega
    · simp only [Function.update_self, hnew t ht hlost, Option.toList_some, List.map_cons,
        List.map_nil, List.mem_append, List.mem_singleton, or_true]
  | @stealNone w gen p v ts d hw hi hst =>
    have hne : v ≠ w := hl.targets w gen _ hw _ List.mem_cons_self
    refine hs.step hl rfl rfl (fun u hu => .of_thief hl hu hne rfl rfl rfl rfl rfl (.inr hst))
      fun _ gen' hg => .inl ⟨by rw [hw]; exact hg, fun h => ?_⟩
    rw [hw] at h
    have hidle : (toAtomic d).thief w = .idle := by rw [hst.stolen_frame, Atomic.setThief_self]
    have hfront : (toAtomic d).front = (s.adeque v p).front := by
      rw [hst.stolen_frame]
      rfl
    have hwin : (s.setDeque w v p d).winners v p = s.winners v p := by
      rcases winners_setDeque s w (.inl hfront) with ⟨-, h⟩ | ⟨h, -⟩
      · exact h
      · omega
    have ha : ((s.setDeque w v p d).setWorker w (.steal gen ts)).adeque v p = toAtomic d :=
      adeque_setDeque s w v p d
    exact h.stealStep hne rfl rfl rfl rfl (fun _ hx => hx)
      (fun x hx hmem hcons => (List.mem_cons.mp hcons).elim hx hmem)
      ⟨fun _ => (h.2 p v hne).2.stolen hst ha rfl rfl hwin, .of_idle (by rw [ha, hidle])⟩
  | @stealJob w gen p v ts d job hw hi hst =>
    have hne : v ≠ w := hl.targets w gen _ hw _ List.mem_cons_self
    exact hs.step hl rfl rfl (fun u hu => .of_thief hl hu hne rfl rfl rfl rfl rfl (.inr hst))
      fun _ _ h => absurd h (by simp [WorkerPc.snapshot])

omit [Fintype ω] [DecidableEq ω] in
theorem construct_watchful (h : construct N ω = some s) : Watchful s := by
  unfold construct at h
  split at h
  · exact absurd h (by simp)
  · obtain ⟨d, -, rfl⟩ := Option.map_eq_some_iff.mp h
    exact fun _ w gen hg => absurd hg (by simp [WorkerPc.snapshot])

theorem reachable_watchful (h : (machine N ω).Reachable s) : Watchful s :=
  h.invariant (fun _ => construct_watchful) fun _ _ _ hreach _ hst hs =>
    have hl := reachable_linked hreach.reachable
    (step_move hl hst).watchful hl (reachable_rung hreach.reachable) hs

/-- **What a sleeping worker of `WorkStealingScheduler` can overlook.** While fewer than `2 ^ 64`
notifications have been made, a worker blocked in `IdleSignal::wait` sleeps over no job in an
injector whose `submit` has returned. If such a job is in a deque, then that deque is another
worker's, and either its owner is inside a `pop` that has still to decide over this last item, or
the sleeper lost its compare-and-swap for an item of that deque to a third worker. -/
theorem sleeping_worker (h : (machine N ω).Reachable s) (hgen : s.gen < 2 ^ 64)
    (hw : s.worker w = .wait (s.gen % 2 ^ 64)) (hjob : job ∈ s.returned) :
    (∀ p, job ∉ s.injector p) ∧ ∀ v p, job ∈ contents (s.deque v p) → v ≠ w ∧
      ((s.adeque v p).owner = .popping ∧ (s.adeque v p).items = [job] ∨
        ∃ t u, (p, v, t) ∈ s.lost w ∧ (s.winners v p)[t.toNat]? = some u ∧ u ≠ v ∧ u ≠ w) := by
  have hrung := (reachable_rung h).returned job hjob
  rw [Nat.mod_eq_of_lt hgen] at hw
  obtain ⟨-, hs⟩ := reachable_watchful h hgen w s.gen (by rw [hw]; rfl)
  have hs := hs rfl
  rw [hw] at hs
  obtain ⟨⟨hown, hinj⟩, hdeq⟩ := hs
  refine ⟨fun p hmem => hinj p job hmem hrung, fun v p hmem => ?_⟩
  have hitems : job ∈ (s.adeque v p).items := mem_items ((reachable_linked h).sound v p) hmem
  have hne : v ≠ w := by
    rintro rfl
    rw [hown p] at hitems
    exact List.not_mem_nil hitems
  refine ⟨hne, ?_⟩
  rcases hdeq p v hne with hno | ⟨ho, j, hj⟩ | ⟨t, ht, -, u, hu, huv, huw⟩
  · exact absurd hrung (hno job hitems)
  · rw [hj] at hitems
    obtain rfl := List.mem_singleton.mp hitems
    exact .inl ⟨ho, hj⟩
  · exact .inr ⟨t, u, ht, hu, huv, huw⟩

end Moves

/-- No worker blocked in `IdleSignal::wait` sleeps over a job whose `submit` has returned. -/
def SleepsOverNoWork (s : State N ω) : Prop :=
  ∀ w, s.worker w = .wait (s.gen % 2 ^ 64) → ∀ job ∈ s.returned,
    (∀ p, job ∉ s.injector p) ∧ ∀ v p, job ∉ contents (s.deque v p)

instance (s : State N ω) : Decidable (SleepsOverNoWork s) :=
  inferInstanceAs (Decidable (∀ _, _ → ∀ job ∈ s.returned, (∀ _, _) ∧ ∀ _ _, _))

/-- `k` jobs are submitted from outside the pool, then worker `w` takes the first of them from the
injector and the others into its deque. -/
def fillDeque (w : Fin N) (k : ℕ) : List (Label N Unit) :=
  (List.replicate k (.client () .normal :: List.replicate 4 (.clientStep ()))).flatten ++
    List.replicate (1 + (3 * 7 + 1) + 2) (.worker w)

/-- Worker `0` is in a `pop` of its last job and has lowered `bottom_` while worker `1` searches and
goes to sleep; then it has raised `bottom_` again. -/
def sleepOverPop : List (Label 2 Unit) :=
  let owner : Fin 2 := ⟨0, Nat.two_pos⟩
  let searcher : Fin 2 := ⟨1, Nat.one_lt_two⟩
  List.flatten [fillDeque owner 2, [.finish owner],
    List.replicate (2 + 1 + 7 + 5) (.worker owner),
    List.replicate (1 + (3 * 7 + 1) + (3 + 1) + (3 * 4 + 1) + 1) (.worker searcher),
    List.replicate 2 (.worker owner)]

/-- Workers `1` and `2` are after the same item of worker `0`; worker `2` loses, ends its search and
goes to sleep, though worker `0` has another job in its deque. -/
def sleepOverLost : List (Label 3 Unit) :=
  let search := 1 + (3 * 7 + 1) + (3 + 1) + 2 * 4 + 5
  List.flatten [fillDeque 0 3, List.replicate search (.worker 1), List.replicate search (.worker 2),
    [.worker 1], List.replicate (2 + 3 * 4 + 1 + 1) (.worker 2)]

theorem sleeps_over_work :
    (¬ ∀ s : State 2 Unit, (machine 2 Unit).Reachable s → SleepsOverNoWork s) ∧
      ¬ ∀ s : State 3 Unit, (machine 3 Unit).Reachable s → SleepsOverNoWork s := by
  constructor
  · intro h
    let s₀ : State 2 Unit := (construct 2 Unit).get (by decide)
    let s := ((machine 2 Unit).exec s₀ sleepOverPop).get (by decide +kernel)
    have hs := h s (Machine.reachable_of_exec (s := s₀) (Option.some_get _).symm
      (Option.some_get _).symm)
    exact absurd hs (by decide +kernel)
  · intro h
    let s₀ : State 3 Unit := (construct 3 Unit).get (by decide)
    let s := ((machine 3 Unit).exec s₀ sleepOverLost).get (by decide +kernel)
    have hs := h s (Machine.reachable_of_exec (s := s₀) (Option.some_get _).symm
      (Option.some_get _).symm)
    exact absurd hs (by decide +kernel)

theorem sleeping_worker_lost : ∃ s : State 3 Unit, (machine 3 Unit).Reachable s ∧
    s.worker 2 = .wait (s.gen % 2 ^ 64) ∧ 2 ∈ s.returned ∧ 2 ∈ contents (s.deque 0 .normal) ∧
      ((s.adeque 0 .normal).owner = .popping ∧ (s.adeque 0 .normal).items = [2] ∨
        ∃ t u, (.normal, 0, t) ∈ s.lost 2 ∧ (s.winners 0 .normal)[t.toNat]? = some u ∧
          u ≠ 0 ∧ u ≠ 2) := by
  let s₀ : State 3 Unit := (construct 3 Unit).get (by decide)
  let s := ((machine 3 Unit).exec s₀ sleepOverLost).get (by decide +kernel)
  have hreach : (machine 3 Unit).Reachable s :=
    Machine.reachable_of_exec (s := s₀) (Option.some_get _).symm (Option.some_get _).symm
  have hw : s.worker 2 = .wait (s.gen % 2 ^ 64) := by decide +kernel
  have hret : 2 ∈ s.returned := by decide +kernel
  have hmem : 2 ∈ contents (s.deque 0 .normal) := by decide +kernel
  obtain ⟨-, hdeq⟩ := sleeping_worker hreach (by decide +kernel) hw hret
  exact ⟨s, hreach, hw, hret, hmem, (hdeq 0 .normal hmem).2⟩

end Wss.WorkStealing
