import Wss.Spawn.Account
import Wss.Spawn.Backends.Fair
import Wss.Spawn.Backends.Monitor
import Wss.Spawn.Backends.WorkStealing
import Wss.Monitor.GlobalQueue
import Wss.Monitor.ThreadPerCore

/-!
# What `metrics` returns

`Metrics::snapshot` loads the four counters one after another. `ReaderPc.view` is what a call of
`metrics` would return if its loads that are left were all made now: loading does not change it, and
counting can only let it grow.

Results:
* `joined_visible`: on each of the four backends, what was joined before a call of `metrics` began
  is in the counters it returns.
* `reachable_seen`: if no task is both submitted and completed between the loads of `submitted_` and
  `completed_` of a call (`Ordered`), the tasks completed before the second load are among those
  that were submitted before the first.
* `snapshot_ordered`: then a call returns no more completed tasks than submitted ones.
* `snapshot_torn`: tasks submitted in between may be among those that complete.
-/

namespace Wss.Spawn

open Wss.Lib

section

variable {E V : Type}

instance (task : Task E V) : Decidable (Behaves task) :=
  match task with
  | .void _ | .value (.error _) _ => isTrue trivial
  | .value (.ok _) move => inferInstanceAs (Decidable (∀ k < 4, move k = none))

end

/-- The four backends keep the laws. -/
def laws (N : ℕ) [NeZero N] (ω : Type) [Fintype ω] [DecidableEq ω] :
    (k : Kind) → Laws (backend N ω k)
  | .workStealing => WorkStealing.laws N ω
  | .fair => Fair.laws N ω
  | .globalQueue => Monitor.laws _ (Monitor.globalQueue_lawful N) ω
  | .threadPerCore => Monitor.laws _ (Monitor.threadPerCore_lawful N) ω

/-- Every counter of `m` is at most that of `m'`. -/
structure RuntimeMetrics.Le (m m' : RuntimeMetrics) : Prop where
  submitted : m.tasksSubmitted ≤ m'.tasksSubmitted
  completed : m.tasksCompleted ≤ m'.tasksCompleted
  panicked : m.tasksPanicked ≤ m'.tasksPanicked

theorem RuntimeMetrics.Le.refl (m : RuntimeMetrics) : m.Le m := ⟨le_rfl, le_rfl, le_rfl⟩

/-- What a call of `metrics` would return now. -/
def ReaderPc.view (m : RuntimeMetrics) : ReaderPc → RuntimeMetrics
  | .submitted => m
  | .completed x => { m with tasksSubmitted := x }
  | .panicked x y => { m with tasksSubmitted := x, tasksCompleted := y }
  | .stolen x y z => { m with tasksSubmitted := x, tasksCompleted := y, tasksPanicked := z }

theorem ReaderPc.view_mono {m m' : RuntimeMetrics} (h : m.Le m') (pc : ReaderPc) :
    (pc.view m).Le (pc.view m') := by
  cases pc with
  | submitted => exact h
  | completed => exact ⟨le_rfl, h.completed, h.panicked⟩
  | panicked => exact ⟨le_rfl, le_rfl, h.panicked⟩
  | stolen => exact ⟨le_rfl, le_rfl, le_rfl⟩

variable {N : ℕ} {B : Backend N} {E V ρ : Type} {what : E → Option String}
variable {s s' : State B E V ρ} {lab : Label B E V ρ}

theorem Covers.mono {joined : List (Joined E V)} {m m' : RuntimeMetrics} (hc : Covers joined m)
    (h : m.Le m') : Covers joined m' :=
  ⟨hc.submitted.trans h.submitted, hc.completed.trans h.completed, hc.panicked.trans h.panicked⟩

/-- Handles that were joined, and those of them that had an error, are in the counters. -/
theorem Covers.card_le {joined : List (Joined E V)} {m : RuntimeMetrics} (hc : Covers joined m)
    {handles failed : Finset ℕ} (hh : ∀ job ∈ handles, ∃ result, (job, result) ∈ joined)
    (hf : ∀ job ∈ failed, ∃ e, (job, .err e) ∈ joined) :
    handles.card ≤ m.tasksSubmitted ∧ handles.card ≤ m.tasksCompleted ∧
      failed.card ≤ m.tasksPanicked := by
  have hle : handles.card ≤ joined.length := by
    have hsub : handles ⊆ (joined.map Prod.fst).toFinset := fun job hjob => by
      obtain ⟨result, h⟩ := hh job hjob
      exact List.mem_toFinset.mpr (List.mem_map_of_mem h)
    refine (Finset.card_le_card hsub).trans ((List.toFinset_card_le _).trans ?_)
    rw [List.length_map]
  have hfle : failed.card ≤ (errors joined).length := by
    have hsub : failed ⊆ ((errors joined).map Prod.fst).toFinset := fun job hjob => by
      obtain ⟨e, h⟩ := hf job hjob
      exact List.mem_toFinset.mpr (List.mem_map_of_mem (List.mem_filter.mpr ⟨h, rfl⟩))
    refine (Finset.card_le_card hsub).trans ((List.toFinset_card_le _).trans ?_)
    rw [List.length_map]
  exact ⟨hle.trans hc.submitted, hle.trans hc.completed, hfle.trans hc.panicked⟩

variable [DecidableEq ρ]

/-- The job whose completion a step records. -/
def completing (s : State B E V ρ) : Label B E V ρ → Option ℕ
  | .closure w =>
    match s.task w with
    | .closure (.recordCompleted :: _) => B.running s.base w
    | _ => none
  | .base _ | .record _ | .stolen _ | .ended _ _ | .join _ | .load _ => none

/-- All steps but loads leave the calls of `metrics` alone and let the counters grow; the
completions are those that closures record. -/
theorem step_frame (h : step what s lab = some s') :
    (∃ r, lab = .load r ∧ s' = stepReader s r) ∨
      s'.reader = s.reader ∧ s'.before = s.before ∧ s'.snapshots = s.snapshots ∧
        s.metrics.Le s'.metrics ∧ s.recorded <+: s'.recorded ∧
        jobsOf Effect.isCompleted s'.log =
          jobsOf Effect.isCompleted s.log ++ (completing s lab).toList := by
  have hnone : ∀ {m : List ℕ}, m = m ++ (none : Option ℕ).toList := (List.append_nil _).symm
  cases lab with
  | load r => exact .inl ⟨r, rfl, (Option.some.inj h).symm⟩
  | base l =>
    simp only [step] at h
    split_ifs at h
    obtain ⟨b, -, rfl⟩ := Option.map_eq_some_iff.mp h
    exact .inr ⟨rfl, rfl, rfl, .refl _, List.prefix_rfl, hnone⟩
  | record l =>
    simp only [step] at h
    split at h
    · split_ifs at h
      obtain rfl := Option.some.inj h
      exact .inr ⟨rfl, rfl, rfl, ⟨Nat.le_succ _, le_rfl, le_rfl⟩, List.prefix_append _ _, hnone⟩
    · exact absurd h (by simp)
  | stolen w =>
    simp only [step] at h
    split at h
    · obtain rfl := Option.some.inj h
      exact .inr ⟨rfl, rfl, rfl, ⟨le_rfl, le_rfl, le_rfl⟩, List.prefix_rfl, hnone⟩
    · exact absurd h (by simp)
  | ended w task =>
    simp only [step] at h
    split_ifs at h
    obtain rfl := Option.some.inj h
    exact .inr ⟨rfl, rfl, rfl, .refl _, List.prefix_rfl, hnone⟩
  | closure w =>
    simp only [step] at h
    split at h
    · rename_i e rest job htask hrun
      obtain rfl := Option.some.inj h
      refine .inr ⟨rfl, rfl, rfl, ⟨(count_submitted _ e).ge, ?_, ?_⟩, List.prefix_rfl, ?_⟩
      · exact (Nat.le_add_right _ _).trans (count_completed _ e).ge
      · exact (Nat.le_add_right _ _).trans (count_panicked _ e).ge
      · show jobsOf _ (s.log ++ [(job, e)]) = _
        rw [jobsOf_append]
        cases e <;> simp [completing, htask, hrun, Effect.isCompleted]
    · exact absurd h (by simp)
  | join job =>
    simp only [step] at h
    split at h
    · split_ifs at h
      obtain rfl := Option.some.inj h
      exact .inr ⟨rfl, rfl, rfl, .refl _, List.prefix_rfl, hnone⟩
    · exact absurd h (by simp)

/-! ## Calls of `metrics` -/

/-- What the calls of `metrics` return, and would return now, is good for what was joined before. -/
structure Shown (Good : List (Joined E V) → RuntimeMetrics → Prop) (s : State B E V ρ) : Prop where
  readers : ∀ r, s.reader r ≠ .submitted → Good (s.before r) ((s.reader r).view s.metrics)
  snapshots : ∀ x ∈ s.snapshots, Good x.1 x.2

variable {Good : List (Joined E V) → RuntimeMetrics → Prop}

/-- A load does not change what its call would return. -/
theorem Shown.load (hs : Shown Good s) (hgood : Good s.joined s.metrics) (r : ρ) :
    Shown Good (stepReader s r) := by
  have hother : ∀ {pc : ReaderPc} {u}, u ≠ r → Function.update s.reader r pc u = s.reader u :=
    fun hu => Function.update_of_ne hu _ _
  unfold stepReader
  split
  · -- the call begins
    rename_i hpc
    refine ⟨fun u hu => ?_, hs.snapshots⟩
    rcases eq_or_ne u r with rfl | hne
    · simp only [Function.update_self]
      exact hgood
    · simp only [hother hne, Function.update_of_ne hne] at hu ⊢
      exact hs.readers u hu
  · rename_i x hpc
    refine ⟨fun u hu => ?_, hs.snapshots⟩
    rcases eq_or_ne u r with rfl | hne
    · have := hs.readers u (by rw [hpc]; exact nofun)
      rw [hpc] at this
      simp only [Function.update_self]
      exact this
    · simp only [hother hne] at hu ⊢
      exact hs.readers u hu
  · rename_i x y hpc
    refine ⟨fun u hu => ?_, hs.snapshots⟩
    rcases eq_or_ne u r with rfl | hne
    · have := hs.readers u (by rw [hpc]; exact nofun)
      rw [hpc] at this
      simp only [Function.update_self]
      exact this
    · simp only [hother hne] at hu ⊢
      exact hs.readers u hu
  · -- the call returns
    rename_i x y z hpc
    refine ⟨fun u hu => ?_, fun m hm => ?_⟩
    · rcases eq_or_ne u r with rfl | hne
      · simp only [Function.update_self, ne_eq, not_true] at hu
      · simp only [hother hne] at hu ⊢
        exact hs.readers u hu
    · rcases List.mem_append.mp hm with h | h
      · exact hs.snapshots m h
      · rw [List.mem_singleton.mp h]
        have := hs.readers r (by rw [hpc]; exact nofun)
        rwa [hpc] at this

omit [DecidableEq ρ] in
/-- A step of any other kind. -/
theorem Shown.count (hs : Shown Good s) (hreader : s'.reader = s.reader)
    (hbefore : s'.before = s.before) (hsnap : s'.snapshots = s.snapshots)
    (hgood : ∀ r, s.reader r ≠ .submitted → Good (s.before r) ((s.reader r).view s.metrics) →
      Good (s.before r) ((s.reader r).view s'.metrics)) : Shown Good s' where
  readers r hr := by
    rw [hreader] at hr ⊢
    rw [hbefore]
    exact hgood r hr (hs.readers r hr)
  snapshots := by
    rw [hsnap]
    exact hs.snapshots

omit [DecidableEq ρ] in
theorem initial_shown (b : B.State) : Shown Good (initial b : State B E V ρ) :=
  ⟨fun _ h => absurd rfl h, fun _ h => absurd h List.not_mem_nil⟩

/-- What was joined before a call of `metrics` began is in what it returns. -/
theorem reachable_covers (P : Laws B) (h : (machine B what V ρ).ReachableUnder Behaving s) :
    Shown Covers s := by
  refine h.invariant (fun s hs => ?_) fun s l s' hr hok hst hs => ?_
  · obtain ⟨b, -, rfl⟩ := hs
    exact initial_shown b
  · have hc := (reachable_account P hr fun _ _ h => h).covers
    rcases step_frame hst with ⟨r, rfl, rfl⟩ | ⟨h1, h2, h3, hle, -⟩
    · exact hs.load hc r
    · exact hs.count h1 h2 h3 fun r _ hgood => hgood.mono (ReaderPc.view_mono hle _)

/-! ## The order of the loads -/

/-- The jobs that were recorded when a call of `metrics` that has not loaded `completed_` yet loaded
`submitted_`: that counter is the length of the list, which only grows at its end. -/
def State.seen (s : State B E V ρ) (r : ρ) : Option (List ℕ) :=
  match s.reader r with
  | .completed x => some (s.recorded.take x)
  | .submitted | .panicked _ _ | .stolen _ _ _ => none

/-- No task is both submitted and completed between the loads of `submitted_` and `completed_` of a
call of `metrics`: a task that completes in between was submitted before. -/
def Ordered (s : State B E V ρ) (l : Label B E V ρ) : Prop :=
  ∀ job ∈ completing s l, ∀ r, ∀ jobs ∈ s.seen r, job ∈ jobs

/-- What has completed so far was submitted before the call of `metrics` began. -/
structure Seen (s : State B E V ρ) : Prop where
  loaded : ∀ r x, s.reader r = .completed x → x ≤ s.recorded.length
  completed : ∀ r, ∀ jobs ∈ s.seen r, jobsOf Effect.isCompleted s.log ⊆ jobs

omit [DecidableEq ρ] in
theorem seen_eq {s : State B E V ρ} {r : ρ} {x : ℕ} (h : s.reader r = .completed x) :
    s.seen r = some (s.recorded.take x) := by
  rw [State.seen, h]

omit [DecidableEq ρ] in
/-- A call that has begun is about to load `completed_`. -/
theorem exists_of_seen {s : State B E V ρ} {r : ρ} {jobs : List ℕ} (h : jobs ∈ s.seen r) :
    ∃ x, s.reader r = .completed x ∧ jobs = s.recorded.take x := by
  cases hr : s.reader r with
  | completed x => exact ⟨x, rfl, Option.some.inj (h.symm.trans (seen_eq hr))⟩
  | submitted | panicked | stolen =>
    have hnone : s.seen r = none := by rw [State.seen, hr]
    exact absurd (hnone.symm.trans h) (by simp)

/-- A load: only the first one of a call begins to see something. -/
theorem stepReader_completed {s : State B E V ρ} {r u : ρ} {x : ℕ}
    (h : (stepReader s r).reader u = .completed x) :
    s.reader u = .completed x ∨ x = s.metrics.tasksSubmitted := by
  have hother : u ≠ r → (stepReader s r).reader u = s.reader u := fun hu => by
    unfold stepReader
    split <;> exact Function.update_of_ne hu _ _
  rcases eq_or_ne u r with rfl | hne
  · unfold stepReader at h
    split at h <;> simp only [Function.update_self] at h
    · exact .inr (ReaderPc.completed.inj h).symm
    all_goals exact absurd h (by simp)
  · exact .inl ((hother hne).symm.trans h)

theorem Seen.load {P : Laws B} (hs : Seen s) (ha : Account P what s) (r : ρ) :
    Seen (stepReader s r) := by
  have hrec : (stepReader s r).recorded = s.recorded := by
    unfold stepReader
    split <;> rfl
  have hlog : (stepReader s r).log = s.log := by
    unfold stepReader
    split <;> rfl
  constructor
  · intro u x hx
    rw [hrec]
    rcases stepReader_completed hx with h | rfl
    · exact hs.loaded u x h
    · exact ha.submitted.le
  · intro u jobs hjobs
    obtain ⟨x, hx, rfl⟩ := exists_of_seen hjobs
    rw [hrec, hlog]
    rcases stepReader_completed hx with h | rfl
    · exact hs.completed u _ (seen_eq h)
    · -- the call begins: everything that was recorded is seen
      rw [ha.submitted, List.take_length]
      exact ha.jobsOf_subset _

omit [DecidableEq ρ] in
/-- A step of any other kind. -/
theorem Seen.count (hs : Seen s) (hok : Ordered s lab) (hreader : s'.reader = s.reader)
    (hrec : s.recorded <+: s'.recorded)
    (hlog : jobsOf Effect.isCompleted s'.log =
      jobsOf Effect.isCompleted s.log ++ (completing s lab).toList) : Seen s' := by
  have hloaded : ∀ r x, s'.reader r = .completed x → x ≤ s.recorded.length := fun r x hx =>
    hs.loaded r x (hreader ▸ hx)
  refine ⟨fun r x hx => (hloaded r x hx).trans hrec.length_le, fun r jobs hjobs => ?_⟩
  obtain ⟨x, hx, rfl⟩ := exists_of_seen hjobs
  have hseen : s.seen r = some (s'.recorded.take x) := by
    obtain ⟨rest, hrest⟩ := hrec
    rw [seen_eq (hreader ▸ hx), ← hrest, List.take_append_of_le_length (hloaded r x hx)]
  rw [hlog]
  refine List.append_subset.mpr ⟨hs.completed r _ hseen, fun job hjob => ?_⟩
  exact hok job (Option.mem_toList.mp hjob) r _ hseen

/-- **What completes before a call of `metrics` loads `completed_` was submitted before it loaded
`submitted_`.** -/
theorem reachable_seen (P : Laws B)
    (h : (machine B what V ρ).ReachableUnder (fun s l => Behaving s l ∧ Ordered s l) s) :
        Seen s := by
  refine h.invariant (fun s hs => ?_) fun s l s' hr hok hst hs => ?_
  · obtain ⟨b, -, rfl⟩ := hs
    exact ⟨fun _ _ h => absurd h (by simp [initial]),
      fun _ _ h => absurd h (by simp [initial, State.seen])⟩
  · rcases step_frame hst with ⟨r, rfl, rfl⟩ | ⟨hreader, -, -, -, hrec, hlog⟩
    · exact hs.load (reachable_account P hr fun _ _ h => h.1) r
    · exact hs.count hok.2 hreader hrec hlog

/-- No more tasks have completed than were submitted. -/
def Consistent (m : RuntimeMetrics) : Prop := m.tasksCompleted ≤ m.tasksSubmitted

omit [DecidableEq ρ] in
/-- What a call of `metrics` has still to load completed is no more than it has loaded submitted. -/
theorem Seen.completed_le {P : Laws B} (hs : Seen s) (ha : Account P what s) {r : ρ} {x : ℕ}
    (hx : s.reader r = .completed x) : s.metrics.tasksCompleted ≤ x := by
  have hsub := List.subperm_of_subset ha.completed_nodup (hs.completed r _ (seen_eq hx))
  rw [ha.completed]
  exact hsub.length_le.trans (List.length_take_le _ _)

theorem reachable_consistent (P : Laws B)
    (h : (machine B what V ρ).ReachableUnder (fun s l => Behaving s l ∧ Ordered s l) s) :
    Shown (fun _ => Consistent) s := by
  refine h.invariant (fun s hs => ?_) fun s l s' hr hok hst hs => ?_
  · obtain ⟨b, -, rfl⟩ := hs
    exact initial_shown b
  · have hr' := hr.next hok hst
    have ha' := reachable_account P hr' fun _ _ h => h.1
    rcases step_frame hst with ⟨r, rfl, rfl⟩ | ⟨h1, h2, h3, -⟩
    · exact hs.load (reachable_account P hr fun _ _ h => h.1).completed_le r
    · refine hs.count h1 h2 h3 fun r hpc hview => ?_
      cases hc : s.reader r with
      | submitted => exact absurd hc hpc
      | completed x => exact (reachable_seen P hr').completed_le ha' ((congrFun h1 r).trans hc)
      | panicked | stolen =>
        rw [hc] at hview
        exact hview

/-! ## Results -/

variable {k : Kind} {ω : Type}

/-- **A completed `join` is visible in the metrics.** On each backend, a call of `metrics` that
began after `handles` were joined, `failed` of them with an error, returns as many at least. -/
theorem joined_visible [NeZero N] [Fintype ω] [DecidableEq ω]
    {s : State (backend N ω k) E V ρ}
    (h : (machine (backend N ω k) what V ρ).ReachableUnder Behaving s) :
    ∀ x ∈ s.snapshots, ∀ handles failed : Finset ℕ,
      (∀ job ∈ handles, ∃ result, (job, result) ∈ x.1) →
      (∀ job ∈ failed, ∃ e, (job, .err e) ∈ x.1) →
      handles.card ≤ x.2.tasksSubmitted ∧ handles.card ≤ x.2.tasksCompleted ∧
        failed.card ≤ x.2.tasksPanicked := fun x hx _ _ hh hf =>
  ((reachable_covers (laws N ω k) h).snapshots x hx).card_le hh hf

/-- **A snapshot has no more completed tasks than submitted ones, if none is submitted and completed
while it is taken.** On each backend, in a run in which no task is both submitted and completed
between the first two loads of a call of `metrics`. -/
theorem snapshot_ordered [NeZero N] [Fintype ω] [DecidableEq ω] {s : State (backend N ω k) E V ρ}
    (h : (machine (backend N ω k) what V ρ).ReachableUnder
      (fun s l => Behaving s l ∧ Ordered s l) s) :
    ∀ x ∈ s.snapshots, x.2.tasksCompleted ≤ x.2.tasksSubmitted :=
  (reachable_consistent (laws N ω k) h).snapshots

instance (s : State B E V ρ) (l : Label B E V ρ) : Decidable (Behaving s l) :=
  match l with
  | .ended _ task => inferInstanceAs (Decidable (Behaves task))
  | .base _ | .record _ | .stolen _ | .closure _ | .join _ | .load _ => isTrue trivial

instance [Fintype ρ] (s : State B E V ρ) (l : Label B E V ρ) : Decidable (Ordered s l) :=
  inferInstanceAs (Decidable (∀ job ∈ completing s l, ∀ r, ∀ jobs ∈ s.seen r, job ∈ jobs))

/-- One worker, and a thread that submits a job to it. -/
abbrev OneWorker : Backend 1 := @backend 1 ⟨Nat.one_ne_zero⟩ Unit _ .globalQueue

/-- The job is submitted, and the worker begins to run it. -/
def submitOne : List (Label OneWorker Unit Unit Unit) :=
  let call : Monitor.Label 1 Unit := .client () ⟨.normal, none⟩
  let next : Monitor.Label 1 Unit := .clientStep () none
  let worker : Monitor.Label 1 Unit := .worker ⟨0, Nat.one_pos⟩ none
  [.base call, .record next, .base next, .base next, .base next, .base worker, .base worker,
    .base worker]

/-- The job throws, and the closure does all it does then. -/
def throwOne : List (Label OneWorker Unit Unit Unit) :=
  .ended ⟨0, Nat.one_pos⟩ (.void (.error ())) :: List.replicate 3 (.closure ⟨0, Nat.one_pos⟩)

/-- The body of the job returns, and the call of `submit`. -/
def finishOne : List (Label OneWorker Unit Unit Unit) :=
  let next : Monitor.Label 1 Unit := .clientStep () none
  let finish : Monitor.Label 1 Unit := .finish ⟨0, Nat.one_pos⟩
  [.base finish, .base next, .base next]

/-- The scheduler at first. -/
def initialOne : State OneWorker Unit Unit Unit :=
  initial ((Monitor.construct (Monitor.globalQueue 1) Unit).get (by decide))

theorem initialOne_init :
    (machine OneWorker (fun _ : Unit => none) Unit Unit).init initialOne :=
  ⟨_, (Option.some_get _).symm, rfl⟩

theorem joined_visible_one : ∃ s : State OneWorker Unit Unit Unit, ∃ x ∈ s.snapshots,
    (∃ e, (0, .err e) ∈ x.1) ∧ 1 ≤ x.2.tasksSubmitted ∧ 1 ≤ x.2.tasksCompleted ∧
      1 ≤ x.2.tasksPanicked := by
  let M := machine OneWorker (fun _ : Unit => none) Unit Unit
  let s := (M.execUnder Behaving initialOne
    (submitOne ++ throwOne ++ .join 0 :: List.replicate 4 (.load ()))).get (by decide +kernel)
  have hreach : M.ReachableUnder Behaving s :=
    ⟨_, _, initialOne_init, Machine.execUnder_path (Option.some_get _).symm⟩
  let x := s.snapshots.head (by decide +kernel)
  have hx : x ∈ s.snapshots := List.head_mem _
  have herr : (0, .err ⟨"non-standard exception", ()⟩) ∈ x.1 := by decide +kernel
  have hone : ∀ job ∈ ({0} : Finset ℕ), ∃ e, (job, .err e) ∈ x.1 := fun job hjob =>
    Finset.mem_singleton.mp hjob ▸ ⟨_, herr⟩
  exact ⟨s, x, hx, ⟨_, herr⟩,
    joined_visible hreach x hx {0} {0} (fun job hjob => (hone job hjob).imp' _ fun _ h => h) hone⟩

/-- Between the first two loads of a call, a job is submitted and completes. -/
theorem snapshot_torn : ¬ ∀ s : State OneWorker Unit Unit Unit,
    (machine OneWorker (fun _ => none) Unit Unit).ReachableUnder Behaving s →
      ∀ x ∈ s.snapshots, x.2.tasksCompleted ≤ x.2.tasksSubmitted := by
  intro h
  let M := machine OneWorker (fun _ : Unit => none) Unit Unit
  let s := (M.execUnder Behaving initialOne
    (.load () :: submitOne ++ throwOne ++ List.replicate 3 (.load ()))).get (by decide +kernel)
  have hs := h s ⟨_, _, initialOne_init, Machine.execUnder_path (Option.some_get _).symm⟩
  exact absurd hs (by decide +kernel)

/-- Between the first two loads of a call, one job completes and another one is submitted, which
completes after them. -/
theorem snapshot_ordered_one : ∃ s : State OneWorker Unit Unit Unit,
    (machine OneWorker (fun _ => none) Unit Unit).ReachableUnder
        (fun s l => Behaving s l ∧ Ordered s l) s ∧
      s.metrics = ⟨2, 2, 2, 0⟩ ∧ s.snapshots.map Prod.snd = [⟨1, 1, 2, 0⟩] ∧
      ∀ x ∈ s.snapshots, x.2.tasksCompleted ≤ x.2.tasksSubmitted := by
  let M := machine OneWorker (fun _ : Unit => none) Unit Unit
  let s := (M.execUnder (fun s l => Behaving s l ∧ Ordered s l) initialOne
    (submitOne ++ .load () :: throwOne ++ finishOne ++ submitOne ++ .load () :: throwOne ++
      List.replicate 2 (.load ()))).get (by decide +kernel)
  have hreach : M.ReachableUnder (fun s l => Behaving s l ∧ Ordered s l) s :=
    ⟨_, _, initialOne_init, Machine.execUnder_path (Option.some_get _).symm⟩
  exact ⟨s, hreach, by decide +kernel, by decide +kernel, snapshot_ordered hreach⟩

end Wss.Spawn
