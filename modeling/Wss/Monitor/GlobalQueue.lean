import Wss.Monitor.Drain

/-!
# `GlobalQueueScheduler` is a FIFO that runs every job once

With one core for all workers no job can be pushed to an abandoned one: the worker that runs the
pusher has not left.

Results:
* `enqueued_eq`: jobs are taken in the order in which they are pushed.
* `exactly_once_fifo`: and each is run once by the worker that took it, and a clean run in which
  `shutdown` returns has run them all.
-/

namespace Wss.Monitor

open Wss.Lib

variable {N : ℕ} {ω : Type}

theorem pop_eq_some {queue rest : List ℕ} {job : ℕ}
    (h : (globalQueue N).pop queue = some (job, rest)) : queue = job :: rest := by
  cases queue with
  | nil => exact absurd h (by simp [globalQueue])
  | cons _ _ =>
    obtain ⟨rfl, rfl⟩ := Prod.mk.inj (Option.some.inj h)
    rfl

theorem pop_eq_none {queue : List ℕ} (h : (globalQueue N).pop queue = none) : queue = [] := by
  cases queue with
  | nil => rfl
  | cons _ _ => exact absurd h (by simp [globalQueue])

theorem globalQueue_lawful (N : ℕ) : (globalQueue N).Lawful id where
  empty := rfl
  push _ _ _ := .refl _
  pop queue job queue' h := by
    rw [pop_eq_some h]
    exact .refl _
  pop_none _ h := pop_eq_none h

/-- What goes in comes out in the same order. -/
theorem feed_globalQueue (es : List (Event N)) {queue queue' : List ℕ}
    (h : feed (globalQueue N) queue es = some queue') :
    queue ++ es.filterMap Event.enqueued = es.filterMap Event.dequeued ++ queue' := by
  induction es generalizing queue with
  | nil =>
    obtain rfl := Option.some.inj h
    simp
  | cons e es ih =>
    cases e with
    | enqueue p job =>
      have h := ih h
      simp only [globalQueue, List.append_assoc] at h
      exact h
    | dequeue w job =>
      cases queue with
      | nil => exact absurd h (by simp [feed, globalQueue])
      | cons j queue =>
        simp only [feed, globalQueue] at h
        split_ifs at h with hj
        subst hj
        exact congrArg (j :: ·) (ih h)

/-- All events are those of the one core. -/
theorem valuesAt_log (log : List (Fin 1 × Event N)) (k : Fin 1) :
    valuesAt k log = log.map Prod.snd := by
  induction log with
  | nil => rfl
  | cons x log ih =>
    have hx : x.1 = k := Subsingleton.elim _ _
    have hcons : valuesAt k (x :: log) = x.2 :: valuesAt k log := by simp [valuesAt, hx]
    rw [hcons, ih, List.map_cons]

variable {s : State N 1 (List ℕ) ω}

/-- **Jobs are taken in the order in which they are pushed.** -/
theorem enqueued_eq (h : Replay (globalQueue N) id s) :
    enqueued s.log = dequeued s.log ++ s.queues ⟨0, Nat.one_pos⟩ := by
  have hf := feed_globalQueue _ (h.feed ⟨0, Nat.one_pos⟩)
  rw [valuesAt_log, List.filterMap_map, List.filterMap_map] at hf
  exact hf

/-- The worker that runs a job has not left. -/
theorem served_globalQueue (s : State N 1 (List ℕ) ω) (l : Label N ω) :
    Served (globalQueue N) s l := by
  cases l with
  | worker w wakes =>
    intro k hk
    refine ⟨w, Subsingleton.elim _ _, fun hw => ?_⟩
    rw [hw] at hk
    exact absurd hk (by simp [WorkerPc.pushesTo])
  | _ => trivial

/-- **`GlobalQueueScheduler` is an exactly-once FIFO.** In every reachable state the jobs taken so
far are the first of the jobs pushed so far, in this order; no job is pushed or started twice; what
a worker has taken it has started, in the same order, but for a job in its hands, and what it has
started it has finished but for the job it runs. In a clean run, when `shutdown` has returned, every
job `submit` was called with has been started and finished once, and the queue is empty. -/
theorem exactly_once_fifo [Fintype ω] [DecidableEq ω]
    (h : (machine (globalQueue N) ω).Reachable s) :
    dequeued s.log <+: enqueued s.log ∧ (enqueued s.log).Nodup ∧
      (s.started.map Prod.snd).Nodup ∧
      (∀ w, dequeuedBy w s.log = valuesAt w s.started ++ (s.worker w).taken.toList ∧
        valuesAt w s.started = valuesAt w s.finished ++ (s.worker w).running.toList) ∧
      ((machine (globalQueue N) ω).ReachableUnder Clean s → s.control = .returned →
        (∀ job < s.submitted.length, (s.started.map Prod.snd).count job = 1 ∧
          (s.finished.map Prod.snd).count job = 1) ∧ ∀ k, s.queues k = []) := by
  have hL := globalQueue_lawful N
  have ha := reachable_account h
  have hr := reachable_replay hL h
  refine ⟨⟨_, (enqueued_eq hr).symm⟩, ha.enqueued_nodup, ha.started_nodup hr,
    fun w => ⟨ha.taken w, ha.running w⟩, fun hclean hret => ?_⟩
  obtain ⟨tr, s₀, h₀, hp⟩ := hclean
  have hN : N ≠ 0 := by
    simp only [machine, construct] at h₀
    split_ifs at h₀ with hN
    exact hN
  have hserved : (machine (globalQueue N) ω).ReachableUnder
      (fun s l => Clean s l ∧ Served (globalQueue N) s l) s :=
    ⟨tr, s₀, h₀, hp.mono fun s l hc => ⟨hc, served_globalQueue s l⟩⟩
  have hcore : Function.Surjective (globalQueue N).core := fun k =>
    ⟨⟨0, Nat.pos_of_ne_zero hN⟩, Subsingleton.elim _ _⟩
  exact drained_run hL hcore hserved hret

/-- Two jobs are submitted. The first one submits another while the second worker runs the second
one; then `shutdown` is called, and both workers leave. -/
def runNested : List (Label 2 Unit) :=
  let one : Fin 2 := ⟨0, Nat.two_pos⟩
  let other : Fin 2 := ⟨1, Nat.one_lt_two⟩
  let submit : List (Label 2 Unit) :=
    .client () ⟨.normal, none⟩ :: List.replicate 5 (.clientStep () none)
  List.flatten
    [submit, submit, List.replicate 3 (.worker one none),
      .nested one ⟨.normal, none⟩ :: List.replicate 5 (.worker one none),
      List.replicate 3 (.worker other none), .finish one :: List.replicate 3 (.worker one none),
      [.finish other, .finish one, .shutdown, .control, .control],
      List.replicate 4 (.worker one none), List.replicate 4 (.worker other none),
      [.control, .control]]

theorem exactly_once_fifo_nested : ∃ s : State 2 1 (List ℕ) Unit,
    (machine (globalQueue 2) Unit).ReachableUnder Clean s ∧ s.control = .returned ∧
      s.started.map (fun x => (x.1.1, x.2)) = [(0, 0), (1, 1), (0, 2)] ∧
      dequeued s.log <+: enqueued s.log ∧ (s.started.map Prod.snd).Nodup ∧
      ∀ job < 3, (s.finished.map Prod.snd).count job = 1 := by
  let s₀ : State 2 1 (List ℕ) Unit := (construct (globalQueue 2) Unit).get (by decide)
  let s := ((machine (globalQueue 2) Unit).execUnder Clean s₀ runNested).get (by decide +kernel)
  have hclean : (machine (globalQueue 2) Unit).ReachableUnder Clean s :=
    ⟨runNested, s₀, (Option.some_get _).symm, Machine.execUnder_path (Option.some_get _).symm⟩
  have hret : s.control = .returned := by decide +kernel
  have hsub : s.submitted.length = 3 := by decide +kernel
  obtain ⟨hfirst, -, hstarted, -, hdrain⟩ := exactly_once_fifo hclean.reachable
  obtain ⟨hjobs, -⟩ := hdrain hclean hret
  exact ⟨s, hclean, hret, by decide +kernel, hfirst, hstarted,
    fun job hjob => (hjobs job (hsub ▸ hjob)).2⟩

end Wss.Monitor
