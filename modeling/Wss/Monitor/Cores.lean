import Wss.Monitor.Target
import Wss.Monitor.ThreadPerCore

/-!
# `ThreadPerCoreScheduler` is a product of independent priority queues

`reference` is a priority queue as one list, sorted by priority and then by age. What the worker of
a core takes is what `reference` gives out for the events of this core (`reference_feed`).

The events of one core, without all others, are those of a run of the scheduler too, in which the
worker of the core starts the same jobs (`exists_alone`). Only their numbers are others: they count
the jobs of this core.

Results:
* `reference_feed`: what is taken from the queues of a core is what the reference queue gives out.
* `target_eq_some_iff`: the target of a job, in terms of its hint and of its ticket.
* `independent_cores`: the scheduler is the product of its cores.
-/

namespace Wss.Monitor

open Wss.Lib

variable {N : ℕ} {ω : Type}

/-! ## The reference queue -/

/-- What a priority queue is asked for. -/
inductive Request
  | enqueue (p : Priority) (job : ℕ)
  | dequeue

/-- What a priority queue gives out: the highest priority first, and the oldest job of it. -/
def reference : List (ℕ × ℕ) → List Request → List ℕ
  | _, [] => []
  | m, .enqueue p job :: rs => reference (insertEntry p.index job m) rs
  | [], .dequeue :: rs => reference [] rs
  | (_, job) :: m, .dequeue :: rs => job :: reference m rs

/-- What an event asks of the queue. -/
def Event.request : Event N → Request
  | .enqueue p job => .enqueue p job
  | .dequeue _ _ => .dequeue

/-- The queues of a core as one list. -/
def flatten (q : CoreQueues) : List (ℕ × ℕ) :=
  (q .high).map (Priority.high.index, ·) ++ ((q .normal).map (Priority.normal.index, ·) ++
    (q .background).map (Priority.background.index, ·))

theorem mem_flatten {q : CoreQueues} {x : ℕ × ℕ} :
    x ∈ flatten q ↔ ∃ p, x.1 = Priority.index p ∧ x.2 ∈ q p := by
  obtain ⟨i, job⟩ := x
  simp only [flatten, List.mem_append, List.mem_map, Prod.mk.injEq]
  constructor
  · rintro (⟨j, hj, rfl, rfl⟩ | ⟨j, hj, rfl, rfl⟩ | ⟨j, hj, rfl, rfl⟩)
    exacts [⟨.high, rfl, hj⟩, ⟨.normal, rfl, hj⟩, ⟨.background, rfl, hj⟩]
  · rintro ⟨p, rfl, hj⟩
    cases p with
    | high => exact .inl ⟨job, hj, rfl, rfl⟩
    | normal => exact .inr (.inl ⟨job, hj, rfl, rfl⟩)
    | background => exact .inr (.inr ⟨job, hj, rfl, rfl⟩)

/-- A push puts the job behind those of its priority and of the higher ones. -/
theorem flatten_push (q : CoreQueues) (p : Priority) (job : ℕ) :
    flatten (Function.update q p (q p ++ [job])) = insertEntry p.index job (flatten q) := by
  have key : ∀ {m m' : List (ℕ × ℕ)}, flatten q = m ++ m' → (∀ x ∈ m, ¬ p.index < x.1) →
      (∀ x ∈ m', p.index < x.1) →
      flatten (Function.update q p (q p ++ [job])) = m ++ (p.index, job) :: m' →
      flatten (Function.update q p (q p ++ [job])) = insertEntry p.index job (flatten q) :=
    fun h hle hlt h' => by rw [h, h', insertEntry_append hle hlt]
  cases p with
  | high =>
    refine key rfl (by simp) (fun x hx => ?_) (by simp [flatten])
    simp only [List.mem_append, List.mem_map] at hx
    rcases hx with ⟨j, -, rfl⟩ | ⟨j, -, rfl⟩ <;> simp [Priority.index]
  | normal =>
    refine key (List.append_assoc _ _ _).symm (fun x hx => ?_) (fun x hx => ?_) (by simp [flatten])
    · simp only [List.mem_append, List.mem_map] at hx
      rcases hx with ⟨j, -, rfl⟩ | ⟨j, -, rfl⟩ <;> simp [Priority.index]
    · obtain ⟨j, -, rfl⟩ := List.mem_map.mp hx
      simp [Priority.index]
  | background =>
    refine key (List.append_nil _).symm (fun x hx => ?_) (by simp) (by simp [flatten])
    obtain ⟨p, hp, -⟩ := mem_flatten.mp hx
    cases p <;> simp [hp, Priority.index]

/-- A `pop` takes the head. -/
theorem flatten_pop {q q' : CoreQueues} {job : ℕ} (h : popFirst q kPriorityOrder = some (job, q')) :
    ∃ i, flatten q = (i, job) :: flatten q' := by
  rcases popFirst_cases q with ⟨-, -, -, hnone⟩ | ⟨p, j, queue, hq, hsome, hhigh, hnormal⟩
  · exact absurd (hnone.symm.trans h) (by simp)
  · obtain ⟨rfl, rfl⟩ := Prod.mk.inj (Option.some.inj (hsome.symm.trans h))
    refine ⟨p.index, ?_⟩
    cases p with
    | high => simp [flatten, hq]
    | normal => simp [flatten, hq, hhigh]
    | background => simp [flatten, hq, hhigh, hnormal]

/-- **What is taken from the queues of a core is what the reference queue gives out.** -/
theorem reference_feed [NeZero N] (es : List (Event N)) {q q' : CoreQueues}
    (h : feed (threadPerCore N) q es = some q') :
    reference (flatten q) (es.map Event.request) = es.filterMap Event.dequeued := by
  induction es generalizing q with
  | nil => rfl
  | cons e es ih =>
    cases e with
    | enqueue p job =>
      have h := ih h
      simp only [threadPerCore, flatten_push] at h
      exact h
    | dequeue w job =>
      simp only [feed, threadPerCore] at h
      split at h
      · rename_i j q₁ hpop
        split_ifs at h with hj
        subst hj
        obtain ⟨i, hi⟩ := flatten_pop hpop
        rw [hi]
        exact congrArg (j :: ·) (ih h)
      · exact absurd h (by simp)

/-! ## The jobs of a core -/

/-- The worker of a core takes the jobs that are taken there, and no others. -/
theorem dequeuedBy_eq {log : List (Fin N × Event N)}
    (h : ∀ k w job, (k, .dequeue w job) ∈ log → w = k) (k : Fin N) :
    dequeuedBy k log = (valuesAt k log).filterMap Event.dequeued := by
  induction log with
  | nil => rfl
  | cons x log ih =>
    obtain ⟨j, e⟩ := x
    have ih := ih fun k w job hm => h k w job (List.mem_cons_of_mem _ hm)
    have hcons : valuesAt k ((j, e) :: log) = valuesAt k [(j, e)] ++ valuesAt k log :=
      valuesAt_append (m := [(j, e)])
    have hcons' : dequeuedBy k ((j, e) :: log) = dequeuedBy k [(j, e)] ++ dequeuedBy k log := by
      rw [← dequeuedBy_append, List.singleton_append]
    rw [hcons, hcons', List.filterMap_append, ih]
    congr 1
    cases e with
    | enqueue p job =>
      by_cases hj : j = k <;>
        simp [dequeuedBy, Event.dequeuedBy, valuesAt, Event.dequeued, hj]
    | dequeue w job =>
      have hw : w = j := h j w job List.mem_cons_self
      by_cases hj : j = k <;>
        simp [dequeuedBy, Event.dequeuedBy, valuesAt, Event.dequeued, hj, hw]

/-! ## A core alone -/

/-- An event with other numbers for the jobs. -/
def Event.renumber (f : ℕ → ℕ) : Event N → Event N
  | .enqueue p job => .enqueue p (f job)
  | .dequeue w job => .dequeue w (f job)

/-- The queues of a core with other numbers for the jobs. -/
def CoreQueues.renumber (f : ℕ → ℕ) (q : CoreQueues) : CoreQueues := fun p => (q p).map f

theorem renumber_update (f : ℕ → ℕ) (q : CoreQueues) (p : Priority) (queue : List ℕ) :
    CoreQueues.renumber f (Function.update q p queue) =
      Function.update (CoreQueues.renumber f q) p (queue.map f) := by
  funext p'
  by_cases hp : p' = p
  · subst hp
    simp [CoreQueues.renumber]
  · simp [CoreQueues.renumber, hp]

theorem popFirst_renumber (f : ℕ → ℕ) (q : CoreQueues) (ps : List Priority) :
    popFirst (CoreQueues.renumber f q) ps =
      (popFirst q ps).map fun x => (f x.1, CoreQueues.renumber f x.2) := by
  induction ps with
  | nil => rfl
  | cons p ps ih =>
    cases hq : q p with
    | nil =>
      have hq' : CoreQueues.renumber f q p = [] := by simp [CoreQueues.renumber, hq]
      simpa only [popFirst, hq, hq'] using ih
    | cons job queue =>
      have hq' : CoreQueues.renumber f q p = f job :: queue.map f := by
        simp [CoreQueues.renumber, hq]
      simp only [popFirst, hq, hq', renumber_update, Option.map_some]

variable [NeZero N]

/-- No thread is inside anything. -/
structure Quiet (s : State N N CoreQueues Unit) : Prop where
  worker : ∀ u, s.worker u = .lock
  client : ∀ c, s.client c = none
  holder : ∀ k, s.holder k = none

/-- A job is submitted to core `k`. -/
def pushAlone (k : Fin N) (p : Priority) : List (Label N Unit) :=
  .client () ⟨p, some k.1⟩ :: List.replicate 5 (.clientStep () none)

/-- The worker of core `k` runs a job. -/
def runAlone (k : Fin N) : List (Label N Unit) := List.replicate 3 (.worker k none) ++ [.finish k]

theorem hinted_self (k : Fin N) (p : Priority) :
    (threadPerCore N).hinted ⟨p, some k.1⟩ = some k := by
  simp [threadPerCore]

theorem exec_pushAlone {s : State N N CoreQueues Unit} (hs : Quiet s) (k : Fin N) (p : Priority) :
    (machine (threadPerCore N) Unit).exec s (pushAlone k p) = some
      { s.setQueues k ((threadPerCore N).push p s.submitted.length (s.queues k))
          (.enqueue p s.submitted.length) with
        submitted := s.submitted ++ [⟨p, some k.1⟩]
        returned := s.returned ++ [s.submitted.length] } := by
  have hc := hs.client ()
  have hh := hs.holder k
  have hclient : Function.update s.client () none = s.client := by
    rw [← hc, Function.update_eq_self]
  have hholder : Function.update s.holder k none = s.holder := by
    rw [← hh, Function.update_eq_self]
  simp [pushAlone, Machine.exec, machine, step, stepSubmit, enter, List.replicate, State.acquire,
    State.setHolder, State.release, State.setQueues, notifyOne, hs.worker, hinted_self, hc, hh,
    hclient, hholder]

theorem exec_runAlone {s : State N N CoreQueues Unit} (hs : Quiet s) {k : Fin N} {job : ℕ}
    {q : CoreQueues} (hq : (threadPerCore N).pop (s.queues k) = some (job, q)) :
    (machine (threadPerCore N) Unit).exec s (runAlone k) = some
      { s.setQueues k q (.dequeue k job) with
        started := s.started ++ [(k, job)]
        finished := s.finished ++ [(k, job)] } := by
  have hw := hs.worker k
  have hh := hs.holder k
  have hk : (threadPerCore N).core k = k := rfl
  have hworker : Function.update s.worker k .lock = s.worker := by
    rw [← hw, Function.update_eq_self]
  have hholder : Function.update s.holder k none = s.holder := by
    rw [← hh, Function.update_eq_self]
  simp [runAlone, Machine.exec, machine, step, stepWorker, List.replicate, State.acquire,
    State.setHolder, State.release, State.setQueues, State.setWorker, hw, hh, hk, hq, hworker,
    hholder]

/-- What is left of a run when the events of all cores but `k` are deleted: a run of the scheduler,
with the numbers `f` for the jobs, in which the worker of core `k` starts the same jobs. -/
theorem exists_alone (k : Fin N) (f : ℕ → ℕ) (es : List (Event N)) {q : CoreQueues}
    (hfeed : feed (threadPerCore N) (threadPerCore N).empty es = some q)
    (hw : ∀ w job, .dequeue w job ∈ es → w = k)
    (hf : (es.filterMap Event.enqueued).map f =
      List.range (es.filterMap Event.enqueued).length) :
    ∃ s, (machine (threadPerCore N) Unit).Reachable s ∧ Quiet s ∧
      s.log = es.map (fun e => (k, e.renumber f)) ∧
      s.submitted.length = (es.filterMap Event.enqueued).length ∧
      s.queues k = CoreQueues.renumber f q ∧
      valuesAt k s.started = (es.filterMap Event.dequeued).map f := by
  induction es using List.reverseRecOn generalizing q with
  | nil =>
    obtain rfl := Option.some.inj hfeed
    have hinit : construct (threadPerCore N) Unit = some _ := if_neg (NeZero.ne N)
    exact ⟨_, ⟨[], _, hinit, .nil⟩, ⟨fun _ => rfl, fun _ => rfl, fun _ => rfl⟩, rfl, rfl, rfl, rfl⟩
  | append_singleton es e ih =>
    rw [feed_append] at hfeed
    obtain ⟨q₁, hfeed₁, hfeed₂⟩ := Option.bind_eq_some_iff.mp hfeed
    have hw₁ : ∀ w job, .dequeue w job ∈ es → w = k := fun w job h =>
      hw w job (List.mem_append_left _ h)
    cases e with
    | enqueue p job =>
      simp only [List.filterMap_append, List.filterMap_cons, Event.enqueued, List.filterMap_nil,
        List.map_append, List.map_cons, List.map_nil, List.length_append, List.length_singleton,
        List.range_succ] at hf
      obtain ⟨hf₁, hf₂⟩ := List.append_inj' hf rfl
      obtain ⟨s, hs, hquiet, hlog, hlen, hq, hst⟩ := ih hfeed₁ hw₁ hf₁
      have hjob : f job = s.submitted.length := by rw [hlen]; exact List.singleton_inj.mp hf₂
      obtain rfl := Option.some.inj hfeed₂
      refine ⟨_, hs.path (Machine.exec_path (exec_pushAlone hquiet k p)),
        ⟨hquiet.1, hquiet.2, hquiet.3⟩, ?_, ?_, ?_, ?_⟩
      · simp [State.setQueues, hlog, Event.renumber, hjob]
      · simp [hlen, Event.enqueued]
      · simp [State.setQueues, threadPerCore, hq, renumber_update, ← hjob]
        rfl
      · simp [State.setQueues, hst, Event.dequeued]
    | dequeue w job =>
      obtain rfl : w = k := hw w job (by simp)
      have hf₁ : (es.filterMap Event.enqueued).map f =
          List.range (es.filterMap Event.enqueued).length := by
        simpa only [List.filterMap_append, List.filterMap_cons, Event.enqueued, List.filterMap_nil,
          List.append_nil] using hf
      obtain ⟨s, hs, hquiet, hlog, hlen, hq, hst⟩ := ih hfeed₁ hw₁ hf₁
      have hpop : popFirst q₁ kPriorityOrder = some (job, q) := by
        simp only [feed, threadPerCore] at hfeed₂
        split at hfeed₂
        · rename_i j q₂ hq₂
          split_ifs at hfeed₂ with hj
          obtain rfl := Option.some.inj hfeed₂
          exact hj ▸ hq₂
        · exact absurd hfeed₂ (by simp)
      have hpop' : (threadPerCore N).pop (s.queues w) = some (f job, CoreQueues.renumber f q) := by
        rw [hq]
        exact (popFirst_renumber f q₁ _).trans (by rw [hpop]; rfl)
      refine ⟨_, hs.path (Machine.exec_path (exec_runAlone hquiet hpop')),
        ⟨hquiet.1, hquiet.2, hquiet.3⟩, ?_, ?_, ?_, ?_⟩
      · simp [State.setQueues, hlog, Event.renumber]
      · simp [State.setQueues, hlen, Event.enqueued]
      · simp [State.setQueues]
      · simp [hst, Event.dequeued]

/-! ## The product -/

/-- The jobs that are started at core `k`, with the one its worker is about to start. -/
def State.starts {ω : Type} (s : State N N CoreQueues ω) (k : Fin N) : List ℕ :=
  valuesAt k s.started ++ (s.worker k).taken.toList

/-- The events of core `k`. -/
def State.events {ω : Type} (s : State N N CoreQueues ω) (k : Fin N) : List (Event N) :=
  valuesAt k s.log

/-- The number of a job among those that are pushed to core `k`. -/
def State.numberAt {ω : Type} (s : State N N CoreQueues ω) (k : Fin N) (job : ℕ) : ℕ :=
  ((s.events k).filterMap Event.enqueued).idxOf job

omit [NeZero N] in
theorem enqueued_sublist (k : Fin N) (log : List (Fin N × Event N)) :
    ((valuesAt k log).filterMap Event.enqueued).Sublist (enqueued log) := by
  induction log with
  | nil => exact .slnil
  | cons x log ih =>
    obtain ⟨j, e⟩ := x
    have hcons : valuesAt k ((j, e) :: log) = valuesAt k [(j, e)] ++ valuesAt k log :=
      valuesAt_append (m := [(j, e)])
    have hcons' : enqueued ((j, e) :: log) = e.enqueued.toList ++ enqueued log := by
      cases e <;> rfl
    rw [hcons, hcons', List.filterMap_append]
    refine .append ?_ ih
    by_cases hj : j = k
    · subst hj
      rw [valuesAt_self]
      cases e <;> exact List.Sublist.refl _
    · rw [valuesAt_of_ne hj]
      exact List.nil_sublist _

/-- The things of a list, numbered in its order. -/
theorem map_idxOf {l : List ℕ} (h : l.Nodup) : l.map (l.idxOf ·) = List.range l.length := by
  refine List.ext_getElem (by simp) fun i h₁ h₂ => ?_
  rw [List.getElem_map, List.getElem_range]
  exact h.idxOf_getElem i _

/-- The target of a job of `ThreadPerCoreScheduler` is its hint modulo the number of cores; without
one it is the ticket, with the 64 bits of `next_`, modulo the number of cores. -/
theorem target_eq_some_iff {s : State N N CoreQueues ω} {job : ℕ} {k : Fin N} :
    s.target (threadPerCore N) job = some k ↔ ∃ opts, s.submitted[job]? = some opts ∧
      (∀ c, opts.coreHint = some c → k.1 = c % N) ∧
      (opts.coreHint = none → job ∈ s.tickets ∧ k.1 = s.tickets.idxOf job % 2 ^ 64 % N) := by
  rw [State.target, Option.bind_eq_some_iff]
  refine exists_congr fun opts => and_congr_right fun _ => ?_
  cases hint : opts.coreHint with
  | none => simp [threadPerCore, hint, Fin.ext_iff, eq_comm]
  | some c => simp [threadPerCore, hint, Fin.ext_iff, eq_comm]

/-- **`ThreadPerCoreScheduler` is a product of independent priority queues.** In every reachable
state each job was started by the worker of its target core, its hint or its ticket modulo the
number of cores, and none twice; what the worker of a core has started is what the reference queue
gives out for the events of this core; and the events of this core alone, with the jobs numbered
anew, are those of a run in which its worker starts the same jobs. -/
theorem independent_cores [Fintype ω] [DecidableEq ω] {s : State N N CoreQueues ω}
    (h : (machine (threadPerCore N) ω).Reachable s) :
    (∀ w job, (w, job) ∈ s.started → ∃ opts, s.submitted[job]? = some opts ∧
        (∀ c, opts.coreHint = some c → w.1 = c % N) ∧
        (opts.coreHint = none → job ∈ s.tickets ∧ w.1 = s.tickets.idxOf job % 2 ^ 64 % N)) ∧
      (s.started.map Prod.snd).Nodup ∧
      (∀ k, s.starts k = reference [] ((s.events k).map Event.request)) ∧
      ∀ k, ∃ s' : State N N CoreQueues Unit, (machine (threadPerCore N) Unit).Reachable s' ∧
        s'.log = (s.events k).map (fun e => (k, e.renumber (s.numberAt k))) ∧
        s'.starts k = (s.starts k).map (s.numberAt k) := by
  have hL := threadPerCore_lawful N
  have hr := reachable_replay hL h
  have ha := reachable_account h
  have ht := reachable_targets h
  have hw : ∀ k w job, (k, .dequeue w job) ∈ s.log → w = k := hr.cores
  have hstarts : ∀ k, s.starts k = (s.events k).filterMap Event.dequeued := fun k => by
    rw [State.starts, ← ha.taken k, dequeuedBy_eq hw]
    rfl
  refine ⟨fun w job hmem => ?_, ha.started_nodup hr, fun k => ?_, fun k => ?_⟩
  · have hdeq : job ∈ s.starts w := List.mem_append_left _ (mem_valuesAt.mpr hmem)
    rw [hstarts] at hdeq
    have hmass := hL.mass_feed (only job) _ (hr.feed w)
    have hpos := mass_only_pos hdeq
    have henq : job ∈ (s.events w).filterMap Event.enqueued := by
      rw [← List.count_pos_iff, ← mass_only]
      simp only [hL.empty, mass_nil] at hmass
      unfold State.events at hpos ⊢
      omega
    obtain ⟨e, he, hjob⟩ := List.mem_filterMap.mp henq
    cases e with
    | enqueue p j =>
      obtain rfl := Option.some.inj hjob
      exact target_eq_some_iff.mp (ht.log w p j (mem_valuesAt.mp he)).1
    | dequeue => exact absurd hjob (by simp [Event.enqueued])
  · have hflat : flatten (threadPerCore N).empty = [] := rfl
    have href := reference_feed _ (hr.feed k)
    rw [hflat] at href
    rw [hstarts]
    exact href.symm
  · have hnodup : ((s.events k).filterMap Event.enqueued).Nodup :=
      ha.enqueued_nodup.sublist (enqueued_sublist k s.log)
    obtain ⟨s', hs', hquiet, hlog, -, -, hst⟩ := exists_alone k (s.numberAt k) (s.events k)
      (hr.feed k) (fun w job hmem => hw k w job (mem_valuesAt.mp hmem)) (map_idxOf hnodup)
    refine ⟨s', hs', hlog, ?_⟩
    rw [hstarts, ← hst, State.starts, hquiet.worker k]
    exact List.append_nil _

/-- On two cores: two jobs with a ticket, and two with a hint of the second core, wrapped around in
the first case. The worker of the second core runs its three jobs, that of the first core the other
one. -/
def twoPriorities : List (Label 2 Unit) :=
  .client () ⟨.normal, none⟩ :: List.replicate 6 (.clientStep () none) ++
    .client () ⟨.background, some 3⟩ :: List.replicate 5 (.clientStep () none) ++
    .client () ⟨.high, some 1⟩ :: List.replicate 5 (.clientStep () none) ++
    .client () ⟨.normal, none⟩ :: List.replicate 6 (.clientStep () none) ++
    (List.replicate 3 (.worker ⟨1, Nat.one_lt_two⟩ none) ++ [.finish ⟨1, Nat.one_lt_two⟩]) ++
    (List.replicate 3 (.worker ⟨1, Nat.one_lt_two⟩ none) ++ [.finish ⟨1, Nat.one_lt_two⟩]) ++
    List.replicate 3 (.worker ⟨0, Nat.two_pos⟩ none) ++
    List.replicate 3 (.worker ⟨1, Nat.one_lt_two⟩ none)

theorem independent_cores_two : ∃ s : State 2 2 CoreQueues Unit,
    (machine (threadPerCore 2) Unit).Reachable s ∧
      s.started.map (fun x => (x.1.1, x.2)) = [(1, 2), (1, 3), (0, 0), (1, 1)] ∧
      (∀ w job, (w, job) ∈ s.started → ∃ opts, s.submitted[job]? = some opts ∧
        (∀ c, opts.coreHint = some c → w.1 = c % 2) ∧
        (opts.coreHint = none → job ∈ s.tickets ∧ w.1 = s.tickets.idxOf job % 2 ^ 64 % 2)) ∧
      (s.started.map Prod.snd).Nodup ∧
      s.starts ⟨1, Nat.one_lt_two⟩ = [2, 3, 1] ∧
      s.starts ⟨1, Nat.one_lt_two⟩ =
        reference [] ((s.events ⟨1, Nat.one_lt_two⟩).map Event.request) := by
  let L := threadPerCore 2
  let s₀ : State 2 2 CoreQueues Unit := (construct L Unit).get (by decide)
  let s := ((machine L Unit).exec s₀ twoPriorities).get (by decide +kernel)
  have hreach : (machine L Unit).Reachable s :=
    Machine.reachable_of_exec (s := s₀) (Option.some_get _).symm (Option.some_get _).symm
  have hproduct := independent_cores hreach
  exact ⟨s, hreach, by decide +kernel, hproduct.1, hproduct.2.1, by decide +kernel,
    hproduct.2.2.1 _⟩

end Wss.Monitor
