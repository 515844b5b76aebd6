import Wss.Lib.Mass
import Wss.Lib.Multimap
import Wss.Monitor.Shutdown

/-!
# Where the jobs of a backend on condition variables are

The log of the queues says it all. `Replay`: the queues of every core are what its own events make
of them, one after another, and a job that was pushed is in the queues or was taken by a worker of
its core. `Account`: every job is pushed once, by its own call of `submit`, and what a worker has
taken it has started, in this order, but for the job in its hands; the same for what it has
finished.

Results:
* `reachable_replay`, `reachable_account`: both hold in every reachable state.
* `Account.started_nodup`: no job is started twice.
-/

namespace Wss.Monitor

open Wss.Lib

variable {N K : ℕ} {Q ω : Type}

/-- What a theorem needs to know of the queues of a core: `items` are the jobs in them. -/
structure Layout.Lawful (L : Layout N K Q) (items : Q → List ℕ) : Prop where
  empty : items L.empty = []
  push : ∀ p job q, (items (L.push p job q)).Perm (items q ++ [job])
  pop : ∀ q job q', L.pop q = some (job, q') → (items q).Perm (job :: items q')
  pop_none : ∀ q, L.pop q = none → items q = []

/-! ## The log -/

/-- The job that is pushed. -/
def Event.enqueued : Event N → Option ℕ
  | .enqueue _ job => some job
  | .dequeue _ _ => none

/-- The job that is taken. -/
def Event.dequeued : Event N → Option ℕ
  | .enqueue _ _ => none
  | .dequeue _ job => some job

/-- The job that worker `w` takes. -/
def Event.dequeuedBy (w : Fin N) : Event N → Option ℕ
  | .enqueue _ _ => none
  | .dequeue u job => if u = w then some job else none

/-- The jobs that were pushed. -/
def enqueued (log : List (Fin K × Event N)) : List ℕ := log.filterMap fun x => x.2.enqueued

/-- The jobs that were taken. -/
def dequeued (log : List (Fin K × Event N)) : List ℕ := log.filterMap fun x => x.2.dequeued

/-- The jobs that worker `w` took. -/
def dequeuedBy (w : Fin N) (log : List (Fin K × Event N)) : List ℕ :=
  log.filterMap fun x => x.2.dequeuedBy w

/-- The queues of a core after its events, `none` where a job is taken that `pop` does not give. -/
def feed (L : Layout N K Q) (q : Q) : List (Event N) → Option Q
  | [] => some q
  | .enqueue p job :: es => feed L (L.push p job q) es
  | .dequeue _ job :: es =>
    match L.pop q with
    | some (j, q') => if j = job then feed L q' es else none
    | none => none

variable {L : Layout N K Q} {items : Q → List ℕ} {log ev : List (Fin K × Event N)} {w : Fin N}

@[simp] theorem enqueued_append : enqueued (log ++ ev) = enqueued log ++ enqueued ev :=
  List.filterMap_append

@[simp] theorem dequeued_append : dequeued (log ++ ev) = dequeued log ++ dequeued ev :=
  List.filterMap_append

@[simp] theorem dequeuedBy_append :
    dequeuedBy w (log ++ ev) = dequeuedBy w log ++ dequeuedBy w ev :=
  List.filterMap_append

theorem feed_append (es es' : List (Event N)) (q : Q) :
    feed L q (es ++ es') = (feed L q es).bind fun q => feed L q es' := by
  induction es generalizing q with
  | nil => rfl
  | cons e es ih =>
    cases e with
    | enqueue p job => exact ih _
    | dequeue w job =>
      simp only [List.cons_append, feed]
      cases L.pop q with
      | none => rfl
      | some x =>
        dsimp only
        split_ifs
        · exact ih _
        · rfl

/-- What was in the queues or was pushed was taken or is there still. -/
theorem Layout.Lawful.mass_feed (hL : L.Lawful items) (μ : ℕ → ℕ) (es : List (Event N)) {q q' : Q}
    (h : feed L q es = some q') : mass μ (items q) + mass μ (es.filterMap Event.enqueued) =
      mass μ (es.filterMap Event.dequeued) + mass μ (items q') := by
  induction es generalizing q with
  | nil =>
    obtain rfl := Option.some.inj h
    exact Nat.add_comm _ _
  | cons e es ih =>
    cases e with
    | enqueue p job =>
      have h := ih h
      have hp := mass_perm (μ := μ) (hL.push p job q)
      simp only [mass_append, mass_cons, mass_nil] at hp
      simp only [List.filterMap_cons, Event.enqueued, Event.dequeued, mass_cons]
      omega
    | dequeue w job =>
      simp only [feed] at h
      split at h
      · rename_i j q₁ hq
        split_ifs at h with hj
        subst hj
        have h := ih h
        have hp := mass_perm (μ := μ) (hL.pop _ _ _ hq)
        simp only [mass_cons] at hp
        simp only [List.filterMap_cons, Event.enqueued, Event.dequeued, mass_cons]
        omega
      · exact absurd h (by simp)

/-- The queues are what the log makes of them. -/
structure Replay (L : Layout N K Q) (items : Q → List ℕ) (s : State N K Q ω) : Prop where
  feed : ∀ k, feed L L.empty (valuesAt k s.log) = some (s.queues k)
  queued : ∀ μ, mass μ (enqueued s.log) = mass μ (dequeued s.log) + ∑ k, mass μ (items (s.queues k))
  cores : ∀ k w job, (k, .dequeue w job) ∈ s.log → L.core w = k

variable {s s' : State N K Q ω}

theorem Replay.congr (hr : Replay L items s) (hlog : s'.log = s.log) (hq : s'.queues = s.queues) :
    Replay L items s' := by
  refine ⟨?_, ?_, ?_⟩
  · rw [hlog, hq]
    exact hr.feed
  · rw [hlog, hq]
    exact hr.queued
  · rw [hlog]
    exact hr.cores

/-- A thread pushes to a core or takes from it. -/
theorem Replay.set (hr : Replay L items s) {k : Fin K} {q : Q} {e : Event N}
    (hfeed : Monitor.feed L (s.queues k) [e] = some q)
    (hmass : ∀ μ, mass μ (items (s.queues k)) + mass μ e.enqueued.toList =
      mass μ (items q) + mass μ e.dequeued.toList)
    (hcore : ∀ w job, e = .dequeue w job → L.core w = k) : Replay L items (s.setQueues k q e) where
  feed j := by
    simp only [State.setQueues]
    rw [valuesAt_append, feed_append, hr.feed j]
    by_cases hj : j = k
    · subst hj
      rw [valuesAt_self, Function.update_self]
      exact hfeed
    · rw [valuesAt_of_ne (Ne.symm hj), Function.update_of_ne hj]
      rfl
  queued μ := by
    have h1 := hr.queued μ
    have h2 := hmass μ
    have h3 := sum_update (fun q => mass μ (items q)) s.queues k q
    have h4 : enqueued [(k, e)] = e.enqueued.toList := by cases e <;> rfl
    have h5 : dequeued [(k, e)] = e.dequeued.toList := by cases e <;> rfl
    simp only [State.setQueues, enqueued_append, dequeued_append, mass_append, h4, h5]
    omega
  cores j w job hx := by
    rcases List.mem_append.mp hx with hx | hx
    · exact hr.cores j w job hx
    · obtain ⟨rfl, he⟩ := Prod.mk.inj (List.mem_singleton.mp hx)
      exact hcore w job he.symm

section Moves

variable {call : SubmitPc K} {call' : Option (SubmitPc K)} {t : Thread N ω}

theorem Submitting.replay (hL : L.Lawful items) (h : Submitting L s t call s' call')
    (hr : Replay L items s) : Replay L items s' := by
  cases h with
  | @push job k p =>
    refine hr.set rfl (fun μ => ?_) fun _ _ h => absurd h (by simp)
    have := mass_perm (μ := μ) (hL.push p job (s.queues k))
    simp only [mass_append, mass_cons, mass_nil] at this
    simp only [Event.enqueued, Event.dequeued, Option.toList_some, Option.toList_none, mass_cons,
      mass_nil]
    omega
  | ticket | lock | unlock | notifyNone | notify | done => exact hr.congr rfl rfl

variable [DecidableEq ω] {l : Label N ω}

/-- **Every step keeps the queues what the log makes of them.** -/
theorem Move.replay (hL : L.Lawful items) (hr : Replay L items s) (h : Move L s l s') :
    Replay L items s' := by
  cases h with
  | clientStep _ hsub | nestedStep _ hsub => exact (hsub.replay hL hr).congr rfl rfl
  | @take w wakes job q hpc hq =>
    refine (hr.set (e := .dequeue w job) ?_ (fun μ => ?_) fun u j he => ?_).congr
      (s := s.setQueues (L.core w) q (.dequeue w job)) rfl rfl
    · simp only [Monitor.feed, hq, if_true]
    · have := mass_perm (μ := μ) (hL.pop _ _ _ hq)
      simp only [mass_cons] at this
      simp only [Event.enqueued, Event.dequeued, Option.toList_some, Option.toList_none, mass_cons,
        mass_nil]
      omega
    · rw [(Event.dequeue.inj he).1]
  | _ => exact hr.congr rfl rfl

theorem reachable_replay (hL : L.Lawful items) (h : (machine L ω).Reachable s) :
    Replay L items s := by
  refine h.invariant (fun s hs => ?_) fun _ _ _ _ _ hst hr => (step_move hst).replay hL hr
  simp only [machine, construct] at hs
  split_ifs at hs
  obtain rfl := Option.some.inj hs
  exact ⟨fun _ => rfl, fun μ => by simp [enqueued, dequeued, hL.empty], by simp⟩

end Moves

/-! ## The threads -/

/-- The call of `submit` that a worker's job is in. -/
def WorkerPc.call : WorkerPc K → Option (SubmitPc K)
  | .body _ call => call
  | _ => none

/-- The job that a worker has taken and not started yet. -/
def WorkerPc.taken : WorkerPc K → Option ℕ
  | .unlock job => some job
  | _ => none

/-- The job whose body a worker runs. -/
def WorkerPc.running : WorkerPc K → Option ℕ
  | .body job _ => some job
  | _ => none

/-- The weight of the job that is not pushed yet in a call of `submit`. -/
def unpushed (μ : ℕ → ℕ) : Option (SubmitPc K) → ℕ
  | some (.ticket job _) | some (.lock job _ _) | some (.push job _ _) => μ job
  | _ => 0

@[simp] theorem unpushed_none (μ : ℕ → ℕ) : unpushed μ (none : Option (SubmitPc K)) = 0 := rfl

/-- The same, in a call of any thread. -/
def State.unpushed [Fintype ω] (s : State N K Q ω) (μ : ℕ → ℕ) : ℕ :=
  ∑ c, Monitor.unpushed μ (s.client c) + ∑ w, Monitor.unpushed μ (s.worker w).call

/-- The accounts of the threads. -/
structure Account [Fintype ω] (s : State N K Q ω) : Prop where
  jobs : ∀ μ, s.unpushed μ + mass μ (enqueued s.log) = mass μ (List.range s.submitted.length)
  taken : ∀ w, dequeuedBy w s.log = valuesAt w s.started ++ (s.worker w).taken.toList
  running : ∀ w, valuesAt w s.started = valuesAt w s.finished ++ (s.worker w).running.toList

variable [Fintype ω] {pc : WorkerPc K}

/-- A step of worker `w`, in which the events `ev` are logged. -/
theorem Account.worker (ha : Account s) (ev : List (Fin K × Event N)) (st fin : List ℕ)
    (hw : s'.worker = Function.update s.worker w pc) (hc : s'.client = s.client)
    (hlog : s'.log = s.log ++ ev) (hst : s'.started = s.started ++ st.map fun job => (w, job))
    (hfin : s'.finished = s.finished ++ fin.map fun job => (w, job))
    (hjobs : ∀ μ, unpushed μ pc.call + mass μ (enqueued ev) +
      mass μ (List.range s.submitted.length) =
      unpushed μ (s.worker w).call + mass μ (List.range s'.submitted.length))
    (hother : ∀ u, u ≠ w → dequeuedBy u ev = [])
    (htaken : (s.worker w).taken.toList ++ dequeuedBy w ev = st ++ pc.taken.toList)
    (hrunning : (s.worker w).running.toList ++ st = fin ++ pc.running.toList) : Account s' := by
  have hself : ∀ l : List ℕ, valuesAt w (l.map fun job => (w, job)) = l := fun l => by
    simp [valuesAt]
  have hne : ∀ {u} (l : List ℕ), u ≠ w → valuesAt u (l.map fun job => (w, job)) = [] :=
    fun l hu => by simp [valuesAt, Ne.symm hu]
  refine ⟨fun μ => ?_, fun u => ?_, fun u => ?_⟩
  · have h1 := sum_update (fun pc : WorkerPc K => Monitor.unpushed μ pc.call) s.worker w pc
    have h2 := ha.jobs μ
    have h3 := hjobs μ
    simp only [State.unpushed] at h2
    simp only [State.unpushed, hw, hc, hlog, enqueued_append, mass_append]
    omega
  · rw [hlog, hst, hw, dequeuedBy_append, valuesAt_append, ha.taken u]
    by_cases hu : u = w
    · subst hu
      rw [hself, Function.update_self, List.append_assoc, htaken, List.append_assoc]
    · rw [hne st hu, hother u hu, Function.update_of_ne hu, List.append_nil, List.append_nil]
  · rw [hst, hfin, hw, valuesAt_append, valuesAt_append, ha.running u]
    by_cases hu : u = w
    · subst hu
      rw [hself, hself, Function.update_self, List.append_assoc, hrunning, List.append_assoc]
    · rw [hne st hu, hne fin hu, Function.update_of_ne hu, List.append_nil, List.append_nil]

/-- A step of worker `w` with nothing but its program counter. -/
theorem Account.goto (ha : Account s) (hw : s'.worker = Function.update s.worker w pc)
    (hc : s'.client = s.client) (hlog : s'.log = s.log) (hsub : s'.submitted = s.submitted)
    (hst : s'.started = s.started) (hfin : s'.finished = s.finished)
    (hcall : pc.call = (s.worker w).call) (htaken : pc.taken = (s.worker w).taken)
    (hrunning : pc.running = (s.worker w).running) : Account s' := by
  refine ha.worker [] [] [] hw hc (hlog.trans (List.append_nil _).symm)
    (hst.trans (List.append_nil _).symm) (hfin.trans (List.append_nil _).symm) (fun μ => ?_)
    (fun _ _ => rfl) ?_ ?_
  · rw [hcall, hsub]
    rfl
  · rw [htaken]
    exact List.append_nil _
  · rw [hrunning]
    exact List.append_nil _

/-- A step outside the pool that may wake workers. -/
theorem Account.client [DecidableEq ω] (ha : Account s) (ev : List (Fin K × Event N)) {c : ω}
    {call : Option (SubmitPc K)}
    (hw : ∀ u, s'.worker u = s.worker u ∨ s.worker u = .waiting ∧ s'.worker u = .lock)
    (hc : s'.client = Function.update s.client c call) (hlog : s'.log = s.log ++ ev)
    (hst : s'.started = s.started) (hfin : s'.finished = s.finished)
    (hjobs : ∀ μ, unpushed μ call + mass μ (enqueued ev) + mass μ (List.range s.submitted.length) =
      unpushed μ (s.client c) + mass μ (List.range s'.submitted.length))
    (hdeq : ∀ u, dequeuedBy u ev = []) : Account s' := by
  have hcall : ∀ u, (s'.worker u).call = (s.worker u).call ∧
      (s'.worker u).taken = (s.worker u).taken ∧ (s'.worker u).running = (s.worker u).running :=
    fun u => by
      rcases hw u with h | ⟨h, h'⟩
      · rw [h]
        exact ⟨rfl, rfl, rfl⟩
      · rw [h, h']
        exact ⟨rfl, rfl, rfl⟩
  refine ⟨fun μ => ?_, fun u => ?_, fun u => ?_⟩
  · have h1 := sum_update (Monitor.unpushed μ) s.client c call
    have h2 := ha.jobs μ
    have h3 := hjobs μ
    simp only [State.unpushed] at h2
    simp only [State.unpushed, hc, hcall, hlog, enqueued_append, mass_append]
    omega
  · rw [hlog, hst, (hcall u).2.1, dequeuedBy_append, hdeq u, List.append_nil, ha.taken u]
  · rw [hst, hfin, (hcall u).2.2, ha.running u]

/-- A step that does nothing but wake workers. -/
theorem Account.wake (ha : Account s)
    (hw : ∀ u, s'.worker u = s.worker u ∨ s.worker u = .waiting ∧ s'.worker u = .lock)
    (hc : s'.client = s.client) (hlog : s'.log = s.log) (hsub : s'.submitted = s.submitted)
    (hst : s'.started = s.started) (hfin : s'.finished = s.finished) : Account s' := by
  have hcall : ∀ u, (s'.worker u).call = (s.worker u).call ∧
      (s'.worker u).taken = (s.worker u).taken ∧ (s'.worker u).running = (s.worker u).running :=
    fun u => by
      rcases hw u with h | ⟨h, h'⟩
      · rw [h]
        exact ⟨rfl, rfl, rfl⟩
      · rw [h, h']
        exact ⟨rfl, rfl, rfl⟩
  refine ⟨fun μ => ?_, fun u => ?_, fun u => ?_⟩
  · have h2 := ha.jobs μ
    simp only [State.unpushed] at h2
    simp only [State.unpushed, hc, hcall, hlog, hsub]
    exact h2
  · rw [hlog, hst, (hcall u).2.1, ha.taken u]
  · rw [hst, hfin, (hcall u).2.2, ha.running u]

section Moves

variable {call : SubmitPc K} {call' : Option (SubmitPc K)} {t : Thread N ω}

omit [Fintype ω] in
/-- What a step of `submit` does to the log, and to its own call. -/
theorem Submitting.books (h : Submitting L s t call s' call') :
    ∃ ev, s'.log = s.log ++ ev ∧ (∀ u, dequeuedBy u ev = []) ∧
      ∀ μ, unpushed μ call' + mass μ (enqueued ev) = unpushed μ (some call) := by
  cases h with
  | @push job k p => exact ⟨[(k, .enqueue p job)], rfl, fun _ => rfl, fun μ => by
      simp [unpushed, enqueued, Event.enqueued]⟩
  | ticket | lock | unlock | notifyNone | notify | done =>
    exact ⟨[], (List.append_nil _).symm, fun _ => rfl, fun _ => rfl⟩

omit [Fintype ω] in
theorem unpushed_enter (μ : ℕ → ℕ) (job : ℕ) (opts : SubmitOptions) :
    unpushed μ (some (enter L job opts)) = μ job := by
  unfold enter
  split <;> rfl

variable [DecidableEq ω] {l : Label N ω}

/-- **Every step keeps the accounts.** -/
theorem Move.account (ha : Account s) (h : Move L s l s') : Account s' := by
  cases h with
  | shutdown | store | join => exact ha.wake (fun _ => .inl rfl) rfl rfl rfl rfl rfl
  | notifyAll => exact ha.wake (notifyAll_worker s _) rfl rfl rfl rfl rfl
  | @client c opts hc =>
    refine ha.client [] (fun _ => .inl rfl) rfl (List.append_nil _).symm rfl rfl
      (fun μ => ?_) fun _ => rfl
    rw [hc, unpushed_enter]
    simp only [List.length_append, List.length_singleton, List.range_succ, mass_append, mass_cons,
      mass_nil, unpushed_none, enqueued, List.filterMap_nil]
    omega
  | @clientStep c wakes call call' s₁ hc hsub =>
    obtain ⟨hwk, hcl, -, -, hsubm, hst, hfin⟩ := hsub.frame
    obtain ⟨ev, hlog, hdeq, hun⟩ := hsub.books
    refine ha.client ev hwk (congrArg (Function.update · c call') hcl) hlog hst hfin (fun μ => ?_)
      hdeq
    rw [hc, hsubm, hun μ]
  | @nestedStep w wakes job call call' s₁ hpc hsub =>
    obtain ⟨hwk, hcl, -, -, hsubm, hst, hfin⟩ := hsub.frame
    obtain ⟨ev, hlog, hdeq, hun⟩ := hsub.books
    -- first the workers that it wakes
    have hmid : Account { s with worker := s₁.worker } := ha.wake hwk rfl rfl rfl rfl rfl
    have hpc₁ : s₁.worker w = .body job (some call) := by
      rcases hwk w with h | ⟨h, -⟩
      · exact h.trans hpc
      · exact absurd (hpc.symm.trans h) (by simp)
    refine hmid.worker ev [] [] rfl hcl hlog (hst.trans (List.append_nil _).symm)
      (hfin.trans (List.append_nil _).symm) (fun μ => ?_) (fun u _ => hdeq u) ?_ ?_
    · simp only [hpc₁, WorkerPc.call, State.setWorker, hsubm, hun μ]
    · simp [hpc₁, WorkerPc.taken, hdeq]
    · simp [hpc₁, WorkerPc.running]
  | @nested w opts job hpc =>
    refine ha.worker [] [] [] rfl rfl (List.append_nil _).symm
      (List.append_nil _).symm (List.append_nil _).symm (fun μ => ?_) (fun _ _ => rfl) ?_ ?_
    · rw [hpc, WorkerPc.call, WorkerPc.call, unpushed_enter]
      simp only [List.length_append, List.length_singleton, List.range_succ, mass_append, mass_cons,
        mass_nil, unpushed_none, enqueued, List.filterMap_nil]
      omega
    · rw [hpc]
      rfl
    · rw [hpc]
      rfl
  | @finish w job hpc =>
    refine ha.worker [] [] [job] rfl rfl (List.append_nil _).symm
      (List.append_nil _).symm rfl (fun μ => ?_) (fun _ _ => rfl) ?_ ?_ <;> rw [hpc] <;> rfl
  | @take w wakes job q hpc hq =>
    refine ha.worker [(L.core w, .dequeue w job)] [] [] rfl rfl rfl
      (List.append_nil _).symm (List.append_nil _).symm (fun μ => ?_) (fun u hu => ?_) ?_ ?_
    · rw [hpc]
      rfl
    · simp [dequeuedBy, Event.dequeuedBy, Ne.symm hu]
    · simp [hpc, WorkerPc.taken, dequeuedBy, Event.dequeuedBy]
    · rw [hpc]
      rfl
  | @unlock w wakes job hpc =>
    refine ha.worker [] [job] [] rfl rfl (List.append_nil _).symm rfl
      (List.append_nil _).symm (fun μ => ?_) (fun _ _ => rfl) ?_ ?_ <;> rw [hpc] <;> rfl
  | lock hpc | noJob hpc | flag hpc | noFlag hpc | wait hpc | leave hpc | spurious hpc =>
    exact ha.goto rfl rfl rfl rfl rfl rfl (by rw [hpc]; rfl) (by rw [hpc]; rfl) (by rw [hpc]; rfl)

theorem reachable_account (h : (machine L ω).Reachable s) : Account s := by
  refine h.invariant (fun s hs => ?_) fun _ _ _ _ _ hst ha => (step_move hst).account ha
  simp only [machine, construct] at hs
  split_ifs at hs
  obtain rfl := Option.some.inj hs
  exact
    { jobs := fun μ => by simp [State.unpushed, unpushed, WorkerPc.call, enqueued]
      taken := fun _ => rfl
      running := fun _ => rfl }

end Moves

/-! ## Every job once -/

section Once

omit [Fintype ω] in
theorem mass_dequeued (μ : ℕ → ℕ) (log : List (Fin K × Event N)) :
    ∑ w, mass μ (dequeuedBy w log) = mass μ (dequeued log) := by
  induction log with
  | nil => simp [dequeued, dequeuedBy]
  | cons x log ih =>
    obtain ⟨k, e⟩ := x
    cases e with
    | enqueue p job => exact ih
    | dequeue u job =>
      have hcons : ∀ w, mass μ (dequeuedBy w ((k, .dequeue u job) :: log)) =
          (if u = w then μ job else 0) + mass μ (dequeuedBy w log) := fun w => by
        by_cases hw : u = w <;> simp [dequeuedBy, Event.dequeuedBy, hw]
      have hdeq : mass μ (dequeued ((k, .dequeue u job) :: log)) =
          μ job + mass μ (dequeued log) := rfl
      simp only [hcons, Finset.sum_add_distrib, Finset.sum_ite_eq, Finset.mem_univ, if_true, ih,
        hdeq]

/-- What was taken was started or is in the hands of a worker. -/
theorem Account.started (ha : Account s) (μ : ℕ → ℕ) :
    mass μ (dequeued s.log) =
      mass μ (s.started.map Prod.snd) + ∑ w, mass μ (s.worker w).taken.toList := by
  rw [← mass_dequeued, ← mass_valuesAt, ← Finset.sum_add_distrib]
  exact Finset.sum_congr rfl fun w _ => by rw [ha.taken w, mass_append]

/-- What was started has finished or is being run. -/
theorem Account.finished (ha : Account s) (μ : ℕ → ℕ) :
    mass μ (s.started.map Prod.snd) =
      mass μ (s.finished.map Prod.snd) + ∑ w, mass μ (s.worker w).running.toList := by
  rw [← mass_valuesAt, ← mass_valuesAt, ← Finset.sum_add_distrib]
  exact Finset.sum_congr rfl fun w _ => by rw [ha.running w, mass_append]

theorem Account.enqueued_nodup (ha : Account s) : (enqueued s.log).Nodup :=
  nodup_of_mass (n := s.submitted.length) fun μ => by
    have := ha.jobs μ
    omega

theorem Account.started_nodup (ha : Account s) (hr : Replay L items s) :
    (s.started.map Prod.snd).Nodup :=
  nodup_of_mass (n := s.submitted.length) fun μ => by
    have h1 := ha.jobs μ
    have h2 := ha.started μ
    have h3 := hr.queued μ
    omega

/-- Where all workers have left empty queues, and no call of `submit` is on its way, every job has
run once. -/
theorem Account.all_run (ha : Account s) (hL : L.Lawful items) (hr : Replay L items s)
    (hclient : ∀ c, s.client c = none) (hexit : ∀ w, s.worker w = .exited)
    (hempty : ∀ k, L.pop (s.queues k) = none) {job : ℕ} (hjob : job < s.submitted.length) :
    (s.started.map Prod.snd).count job = 1 ∧ (s.finished.map Prod.snd).count job = 1 := by
  have h1 := ha.jobs (only job)
  have h2 := hr.queued (only job)
  have h3 := ha.started (only job)
  have h4 := ha.finished (only job)
  have hun : s.unpushed (only job) = 0 := by
    simp [State.unpushed, hclient, hexit, WorkerPc.call]
  have hq : ∑ k, mass (only job) (items (s.queues k)) = 0 := by
    simp [hL.pop_none _ (hempty _)]
  have htaken : ∑ w, mass (only job) (s.worker w).taken.toList = 0 := by
    simp [hexit, WorkerPc.taken]
  have hrun : ∑ w, mass (only job) (s.worker w).running.toList = 0 := by
    simp [hexit, WorkerPc.running]
  rw [hun, mass_only_range, if_pos hjob] at h1
  rw [hq] at h2
  rw [htaken] at h3
  rw [hrun] at h4
  simp only [mass_only] at h1 h2 h3 h4
  omega

end Once

end Wss.Monitor
