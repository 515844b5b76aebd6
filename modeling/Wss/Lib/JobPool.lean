import Wss.Lib.Machine
import Mathlib.Data.Set.Insert
import Mathlib.Logic.Function.Basic

/-!
# A pool of workers

What a pool of workers is for, with nothing said of queues: a job that was handed in waits, runs on
one worker, and is done. A pool is closed when nothing waits and nothing runs, and takes no job
after that.

* `JobPool.machine`: every order in which jobs are handed in, started and finished.
* `JobPool.Sound`: a job is in one place at a time, and a closed pool has done all its jobs.

Results:
* `JobPool.Sound.step`: every step keeps a pool sound.
* `JobPool.reachable_sound`: it is sound in every state of the machine.
-/

namespace Wss.Lib

universe u v

/-- Where the jobs `J` of a pool with the workers `W` are. -/
structure JobPool (W : Type u) (J : Type v) where
  waiting : Set J
  running : W → Option J
  done : Set J
  closed : Prop

namespace JobPool

variable {W : Type u} {J : Type v}

/-- What happens to the pool. -/
inductive Label (W : Type u) (J : Type v)
  /-- A job is handed in. -/
  | accept (job : J)
  /-- A worker starts a job. -/
  | start (w : W) (job : J)
  /-- The job of a worker is done. -/
  | finish (w : W)
  | close

/-- The pool has been given a job. -/
def Has (p : JobPool W J) (job : J) : Prop :=
  job ∈ p.waiting ∨ (∃ w, p.running w = some job) ∨ job ∈ p.done

/-- Nothing waits and nothing runs. -/
def Idle (p : JobPool W J) : Prop := p.waiting = ∅ ∧ ∀ w, p.running w = none

/-- The pool before it was given any job. -/
def empty : JobPool W J := ⟨∅, fun _ => none, ∅, False⟩

variable [DecidableEq W]

open Classical in
/-- What the pool allows, and what it does. -/
noncomputable def step (p : JobPool W J) : Label W J → Option (JobPool W J)
  | .accept job =>
    if ¬ p.closed ∧ ¬ p.Has job then some { p with waiting := insert job p.waiting } else none
  | .start w job =>
    if job ∈ p.waiting ∧ p.running w = none then
      some { p with
        waiting := p.waiting \ {job}, running := Function.update p.running w (some job) }
    else none
  | .finish w =>
    (p.running w).map fun job =>
      { p with running := Function.update p.running w none, done := insert job p.done }
  | .close => if p.Idle then some { p with closed := True } else none

/-- Every order of the steps of a pool. -/
noncomputable def machine (W : Type u) (J : Type v) [DecidableEq W] :
    Machine (JobPool W J) (Label W J) where
  init p := p = empty
  step := step

variable {p p' : JobPool W J} {w v : W} {job : J} {l : Label W J}

theorem step_accept (hopen : ¬ p.closed) (hnew : ¬ p.Has job) :
    step p (.accept job) = some { p with waiting := insert job p.waiting } :=
  if_pos ⟨hopen, hnew⟩

theorem step_start (hjob : job ∈ p.waiting) (hw : p.running w = none) :
    step p (.start w job) = some { p with
      waiting := p.waiting \ {job}, running := Function.update p.running w (some job) } :=
  if_pos ⟨hjob, hw⟩

theorem step_finish (hw : p.running w = some job) :
    step p (.finish w) = some { p with
      running := Function.update p.running w none, done := insert job p.done } :=
  Option.map_eq_some_iff.mpr ⟨job, hw, rfl⟩

theorem step_close (hidle : p.Idle) : step p .close = some { p with closed := True } :=
  if_pos hidle

/-- Each job is in one place, and a closed pool is idle. -/
structure Sound (p : JobPool W J) : Prop where
  waiting : ∀ job ∈ p.waiting, (∀ w, p.running w ≠ some job) ∧ job ∉ p.done
  running : ∀ w job, p.running w = some job → job ∉ p.done
  one : ∀ v w job, p.running v = some job → p.running w = some job → v = w
  closed : p.closed → p.Idle

/-- **Every step keeps a pool sound.** -/
theorem Sound.step (hs : p.Sound) (h : step p l = some p') : p'.Sound := by
  cases l with
  | accept job =>
    obtain ⟨⟨hopen, hnew⟩, h⟩ := Option.ite_none_right_eq_some.mp h
    obtain rfl := Option.some.inj h
    refine ⟨fun j hj => ?_, hs.running, hs.one, fun hc => absurd hc hopen⟩
    rcases Set.mem_insert_iff.mp hj with rfl | hj
    · exact ⟨fun w hw => hnew (.inr (.inl ⟨w, hw⟩)), fun hd => hnew (.inr (.inr hd))⟩
    · exact hs.waiting j hj
  | start w job =>
    obtain ⟨⟨hjob, hw⟩, h⟩ := Option.ite_none_right_eq_some.mp h
    obtain rfl := Option.some.inj h
    obtain ⟨hnot, hdone⟩ := hs.waiting job hjob
    have hcases : ∀ v j, Function.update p.running w (some job) v = some j →
        v = w ∧ j = job ∨ v ≠ w ∧ p.running v = some j := by
      intro v j hv
      by_cases hvw : v = w
      · subst hvw
        rw [Function.update_self] at hv
        exact .inl ⟨rfl, (Option.some.inj hv).symm⟩
      · rw [Function.update_of_ne hvw] at hv
        exact .inr ⟨hvw, hv⟩
    refine ⟨fun j hj => ⟨fun v hv => ?_, (hs.waiting j hj.1).2⟩, fun v j hv => ?_,
      fun u v j hu hv => ?_, fun hc => ?_⟩
    · rcases hcases v j hv with ⟨-, rfl⟩ | ⟨-, hv⟩
      · exact hj.2 rfl
      · exact (hs.waiting j hj.1).1 v hv
    · rcases hcases v j hv with ⟨-, rfl⟩ | ⟨-, hv⟩
      · exact hdone
      · exact hs.running v j hv
    · rcases hcases u j hu with ⟨hu, hj⟩ | ⟨-, hu⟩ <;>
        rcases hcases v j hv with ⟨hv, hj'⟩ | ⟨-, hv⟩
      · exact hu.trans hv.symm
      · exact absurd (hj ▸ hv) (hnot v)
      · exact absurd (hj' ▸ hu) (hnot u)
      · exact hs.one u v j hu hv
    · rw [(hs.closed hc).1] at hjob
      exact absurd hjob (Set.notMem_empty job)
  | finish w =>
    obtain ⟨job, hw, rfl⟩ := Option.map_eq_some_iff.mp h
    have hcases : ∀ v j, Function.update p.running w none v = some j →
        v ≠ w ∧ p.running v = some j := by
      intro v j hv
      by_cases hvw : v = w
      · subst hvw
        rw [Function.update_self] at hv
        exact absurd hv (by simp)
      · rw [Function.update_of_ne hvw] at hv
        exact ⟨hvw, hv⟩
    refine ⟨fun j hj => ⟨fun v hv => (hs.waiting j hj).1 v (hcases v j hv).2, fun hd => ?_⟩,
      fun v j hv hd => ?_, fun u v j hu hv => hs.one u v j (hcases u j hu).2 (hcases v j hv).2,
      fun hc => ?_⟩
    · rcases Set.mem_insert_iff.mp hd with rfl | hd
      · exact (hs.waiting j hj).1 w hw
      · exact (hs.waiting j hj).2 hd
    · obtain ⟨hne, hrun⟩ := hcases v j hv
      rcases Set.mem_insert_iff.mp hd with rfl | hd
      · exact hne (hs.one v w j hrun hw)
      · exact hs.running v j hrun hd
    · exact absurd (((hs.closed hc).2 w).symm.trans hw) (by simp)
  | close =>
    obtain ⟨hidle, h⟩ := Option.ite_none_right_eq_some.mp h
    obtain rfl := Option.some.inj h
    exact ⟨hs.waiting, hs.running, hs.one, fun _ => hidle⟩

/-- **A pool is sound in every state it reaches.** -/
theorem reachable_sound (h : (machine W J).Reachable p) : p.Sound := by
  refine h.invariant (fun p hp => ?_) fun _ _ _ _ _ hst hs => hs.step hst
  obtain rfl : p = empty := hp
  exact ⟨fun _ hj => absurd hj (Set.notMem_empty _), fun _ _ hw => absurd hw (by simp [empty]),
    fun _ _ _ hv => absurd hv (by simp [empty]), fun hc => absurd hc id⟩

end JobPool

end Wss.Lib
