import Wss.Lib.JobPool
import Wss.Lib.Simulate
import Wss.Spawn.Metrics

/-!
# Every backend is a pool of workers

`Wss.Lib.JobPool` is what the four schedulers have in common: a job that was handed in waits, runs
on one worker and is done, and a pool that is closed has nothing left to do. `PoolLaws` is what a
backend needs beyond `Laws` to be one: the jobs it was given, and where its workers have left.

`view` is the pool that a state of a backend shows.

Results:
* `PoolLaws.simulates_open`: every step of every run is one step of the pool or none.
* `PoolLaws.simulates`: in the runs that are orderly, the last worker that leaves closes the pool.
-/

namespace Wss.Spawn

open Wss.Lib

variable {N : ℕ} {B : Backend N} {P : Laws B} {b b' : B.State} {l : B.Label}

/-- What a step does to the jobs a backend was given: a new one comes from `Outside`, or from a job
that runs. -/
inductive Handed {N : ℕ} {B : Backend N} (P : Laws B) (next : B.State → ℕ)
    (Outside : B.Label → Prop) (b : B.State) (l : B.Label) (b' : B.State) : Prop
  | same : next b' = next b → Handed P next Outside b l b'
  | new : next b' = next b + 1 → B.running b' = B.running b → P.started b' = P.started b →
      Outside l ∨ (∃ w, B.running b w ≠ none) → Handed P next Outside b l b'

/-- What a step does to the exits of the workers. -/
inductive Leaving {N : ℕ} {B : Backend N} (P : Laws B) (next : B.State → ℕ)
    (exited : B.State → Prop) (b b' : B.State) : Prop
  | same : (exited b' ↔ exited b) → Leaving P next exited b b'
  | leaves : ¬ exited b → next b' = next b → B.running b' = B.running b →
      P.started b' = P.started b → Leaving P next exited b b'

/-- The laws of a backend that is a pool. -/
structure PoolLaws {N : ℕ} {B : Backend N} (P : Laws B) where
  /-- The number of calls of `submit`, which is the number of the next job. -/
  next : B.State → ℕ
  /-- A thread outside the pool calls `submit`. -/
  Outside : B.Label → Prop
  /-- Every worker has left its loop. -/
  exited : B.State → Prop
  /-- `shutdown` has returned. -/
  returned : B.State → Prop
  /-- What `shutdown` needs of the steps of a run. -/
  Orderly : B.State → B.Label → Prop
  init : ∀ {b}, B.machine.init b → next b = 0 ∧ P.started b = [] ∧ ¬ exited b
  handed : ∀ {b l b'}, B.machine.Reachable b → B.machine.step b l = some b' →
    Handed P next Outside b l b'
  leaving : ∀ {b l b'}, B.machine.Reachable b → B.machine.step b l = some b' →
    Leaving P next exited b b'
  started_lt : ∀ {b}, B.machine.Reachable b → ∀ job ∈ P.started b, job < next b
  entry_lt : ∀ {b l job}, B.machine.Reachable b → B.entry b l = some job → job < next b
  drained : ∀ {b}, B.machine.ReachableUnder Orderly b → exited b →
    (∀ job < next b, job ∈ P.started b) ∧ ∀ w, B.running b w = none
  shut : ∀ {b l}, B.machine.ReachableUnder Orderly b → exited b → Orderly b l → ¬ Outside l
  returned_exited : ∀ {b}, B.machine.ReachableUnder Orderly b → returned b → exited b

namespace PoolLaws

variable (Q : PoolLaws P)

/-- The pool that a backend shows. -/
def view (closed : Prop) (b : B.State) : JobPool (Fin N) ℕ where
  waiting := {job | job < Q.next b ∧ job ∉ P.started b}
  running := B.running b
  done := {job | job ∈ P.started b ∧ ∀ w, B.running b w ≠ some job}
  closed := closed

variable {Q}

theorem view_congr {closed closed' : Prop} (hc : closed' ↔ closed) (hn : Q.next b' = Q.next b)
    (hr : B.running b' = B.running b) (hs : P.started b' = P.started b) :
    Q.view closed' b' = Q.view closed b := by
  unfold view
  rw [hn, hr, hs, propext hc]

theorem view_init (h : B.machine.init b) : Q.view False b = JobPool.empty := by
  obtain ⟨hn, hs, -⟩ := Q.init h
  have hr : B.running b = fun _ => none := funext (P.init h).2
  unfold view
  rw [hn, hs, hr]
  simp only [JobPool.empty, Nat.not_lt_zero, false_and, List.not_mem_nil, Set.ofPred_false]

/-- A job the pool shows was handed in. -/
theorem lt_of_has {closed : Prop} (hb : B.machine.Reachable b) {job : ℕ}
    (h : (Q.view closed b).Has job) : job < Q.next b := by
  rcases h with h | ⟨w, hw⟩ | h
  · exact h.1
  · exact Q.started_lt hb job (P.running_started hb hw)
  · exact Q.started_lt hb job h.1

/-- A new job waits. -/
theorem view_new {closed : Prop} (hb : B.machine.Reachable b) (hn : Q.next b' = Q.next b + 1)
    (hr : B.running b' = B.running b) (hs : P.started b' = P.started b) :
    Q.view closed b' =
      { Q.view closed b with waiting := insert (Q.next b) (Q.view closed b).waiting } := by
  have hnew : Q.next b ∉ P.started b := fun h => lt_irrefl _ (Q.started_lt hb _ h)
  unfold view
  rw [hn, hr, hs]
  congr 1
  ext job
  simp only [Set.mem_ofPred_eq, Set.mem_insert_iff]
  constructor
  · rintro ⟨hlt, hjob⟩
    rcases Nat.lt_succ_iff_lt_or_eq.mp hlt with hlt | rfl
    · exact .inr ⟨hlt, hjob⟩
    · exact .inl rfl
  · rintro (rfl | ⟨hlt, hjob⟩)
    · exact ⟨Nat.lt_succ_self _, hnew⟩
    · exact ⟨Nat.lt_succ_of_lt hlt, hjob⟩

/-- A job that starts no longer waits. -/
theorem view_start (closed : Prop) {w : Fin N} {job : ℕ} (hb' : B.machine.Reachable b')
    (hw : B.running b w = none) (hn : Q.next b' = Q.next b)
    (hr : B.running b' = Function.update (B.running b) w (some job))
    (hs : P.started b' = P.started b ++ [job]) :
    job ∈ (Q.view closed b).waiting ∧
      Q.view closed b' = { Q.view closed b with
        waiting := (Q.view closed b).waiting \ {job}
        running := Function.update (Q.view closed b).running w (some job) } := by
  have hnodup := P.started_nodup hb'
  rw [hs] at hnodup
  have hnew : job ∉ P.started b := fun h =>
    (List.nodup_append.mp hnodup).2.2 job h job (List.mem_singleton_self _) rfl
  have hlt : job < Q.next b := by
    rw [← hn]
    exact Q.started_lt hb' job (by rw [hs]; simp)
  refine ⟨⟨hlt, hnew⟩, ?_⟩
  unfold view
  rw [hn, hr, hs]
  congr 1
  · ext j
    simp only [Set.mem_ofPred_eq, Set.mem_sdiff, Set.mem_singleton_iff, List.mem_append,
      List.mem_singleton, not_or, and_assoc]
  · ext j
    simp only [Set.mem_ofPred_eq, List.mem_append, List.mem_singleton]
    constructor
    · rintro ⟨hj, hrun⟩
      have hjob : j ≠ job := fun e => hrun w (by rw [Function.update_self, e])
      refine ⟨hj.resolve_right hjob, fun v hv => hrun v ?_⟩
      rcases eq_or_ne v w with rfl | hne
      · exact absurd (hw.symm.trans hv) (by simp)
      · rw [Function.update_of_ne hne, hv]
    · rintro ⟨hj, hrun⟩
      refine ⟨.inl hj, fun v hv => ?_⟩
      rcases eq_or_ne v w with rfl | hne
      · rw [Function.update_self] at hv
        exact hnew (Option.some.inj hv ▸ hj)
      · rw [Function.update_of_ne hne] at hv
        exact hrun v hv

/-- A job that returns is done. -/
theorem view_finish {closed : Prop} {w : Fin N} {job : ℕ} (hb : B.machine.Reachable b)
    (hw : B.running b w = some job) (hn : Q.next b' = Q.next b)
    (hr : B.running b' = Function.update (B.running b) w none) (hs : P.started b' = P.started b) :
    Q.view closed b' = { Q.view closed b with
      running := Function.update (Q.view closed b).running w none
      done := insert job (Q.view closed b).done } := by
  unfold view
  rw [hn, hr, hs]
  congr 1
  ext j
  simp only [Set.mem_ofPred_eq, Set.mem_insert_iff]
  constructor
  · rintro ⟨hj, hrun⟩
    refine or_iff_not_imp_left.mpr fun hne => ⟨hj, fun v hv => ?_⟩
    rcases eq_or_ne v w with rfl | hvw
    · exact hne (Option.some.inj (hv.symm.trans hw))
    · exact hrun v (by rw [Function.update_of_ne hvw, hv])
  · rintro (rfl | ⟨hj, hrun⟩)
    · refine ⟨P.running_started hb hw, fun v hv => ?_⟩
      rcases eq_or_ne v w with rfl | hvw
      · rw [Function.update_self] at hv
        exact absurd hv (by simp)
      · rw [Function.update_of_ne hvw] at hv
        exact hvw (P.running_inj hb hv hw)
    · refine ⟨hj, fun v hv => ?_⟩
      rcases eq_or_ne v w with rfl | hvw
      · rw [Function.update_self] at hv
        exact absurd hv (by simp)
      · rw [Function.update_of_ne hvw] at hv
        exact hrun v hv

/-- **A step that leaves `closed` is a step of the pool, or none.** A new job needs an open pool. -/
theorem view_step (closed : Prop) (hb : B.machine.Reachable b)
    (hst : B.machine.step b l = some b') (hopen : closed → Q.next b' = Q.next b) :
    Q.view closed b' = Q.view closed b ∨
      ∃ x, JobPool.step (Q.view closed b) x = some (Q.view closed b') := by
  have hb' : B.machine.Reachable b' := hb.next hst
  cases Q.handed hb hst with
  | new hn hr hs _ =>
    refine .inr ⟨.accept (Q.next b), ?_⟩
    rw [view_new hb hn hr hs]
    refine JobPool.step_accept (fun hc => ?_) fun h => lt_irrefl _ (lt_of_has hb h)
    have := hopen hc
    omega
  | same hn =>
    cases P.turn hb hst with
    | keep hr hs _ _ => exact .inl (view_congr Iff.rfl hn hr hs)
    | @start w job hw hr hs _ _ =>
      obtain ⟨hwait, hview⟩ := view_start closed hb' hw hn hr hs
      exact .inr ⟨.start w job, by rw [hview]; exact JobPool.step_start hwait hw⟩
    | @returns w _ hw hr hs _ =>
      obtain ⟨job, hw⟩ := Option.ne_none_iff_exists'.mp hw
      exact .inr ⟨.finish w, by rw [view_finish hb hw hn hr hs]; exact JobPool.step_finish hw⟩

/-- **Every step of a backend is one of a pool, or none.** -/
theorem simulates_open (Q : PoolLaws P) : Simulates B.machine Machine.Free
    (JobPool.machine (Fin N) ℕ) Machine.Free fun b p => p = Q.view False b where
  init b hb := ⟨_, view_init hb, rfl⟩
  step b l b' p hb _ hp _ hst := by
    subst hp
    rcases view_step False hb hst (fun h => absurd h id) with h | ⟨x, h⟩
    · exact .inl h.symm
    · exact .inr ⟨x, _, trivial, h, rfl⟩

/-- **In an orderly run, the last worker that leaves closes the pool.** -/
theorem simulates (Q : PoolLaws P) : Simulates B.machine Q.Orderly
    (JobPool.machine (Fin N) ℕ) Machine.Free fun b p => p = Q.view (Q.exited b) b where
  init b hb := by
    refine ⟨Q.view False b, view_init hb, ?_⟩
    rw [eq_false (Q.init hb).2.2]
  step b l b' p hb _ hp hok hst := by
    subst hp
    cases Q.leaving hb.reachable hst with
    | same hexit =>
      have hopen : Q.exited b → Q.next b' = Q.next b := by
        intro hc
        cases Q.handed hb.reachable hst with
        | same hn => exact hn
        | new _ _ _ hfrom =>
          rcases hfrom with h | ⟨w, h⟩
          · exact absurd h (Q.shut hb hc hok)
          · exact absurd ((Q.drained hb hc).2 w) h
      rw [propext hexit]
      rcases view_step (Q.exited b) hb.reachable hst hopen with h | ⟨x, h⟩
      · exact .inl h.symm
      · exact .inr ⟨x, _, trivial, h, rfl⟩
    | leaves hexit hn hr hs =>
      by_cases hc : Q.exited b'
      · obtain ⟨hall, hidle⟩ := Q.drained (hb.next hok hst) hc
        have hpool : (Q.view (Q.exited b) b).Idle := by
          refine ⟨Set.eq_empty_iff_forall_notMem.mpr fun job hjob => ?_, fun w => ?_⟩
          · exact hjob.2 (hs ▸ hall job (hn ▸ hjob.1))
          · exact (congrFun hr w).symm.trans (hidle w)
        refine .inr ⟨.close, _, trivial, JobPool.step_close hpool, ?_⟩
        rw [view_congr Iff.rfl hn hr hs, eq_true hc]
        rfl
      · exact .inl (view_congr (iff_of_false hc hexit) hn hr hs).symm

end PoolLaws

end Wss.Spawn
