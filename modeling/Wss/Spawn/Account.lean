import Wss.Lib.Mass
import Wss.Spawn.Laws
import Wss.Spawn.Model

/-!
# What the counters have counted

`Account P what s`: the effects of the closures that were run so far, job by job. A job that has not
started has none; one that is running has those its closure has left behind; each job's are the
first effects of a task that behaves. So `submitted_` counts the jobs that were submitted, and
`completed_` and `panicked_` count different ones of them, and a result is in a handle only when its
job was counted.

Results:
* `reachable_account`: the account is right in every state that tasks that behave can reach.
* `Account.completed_le`: no more tasks are completed than submitted.
* `Account.covers`: what was joined was counted.
-/

namespace Wss.Spawn

open Wss.Lib

variable {N : ℕ} {B : Backend N} {E V ρ : Type}

/-- The jobs of the effects in a log that `p` holds of. -/
def jobsOf (p : Effect E V → Bool) (log : List (ℕ × Effect E V)) : List ℕ :=
  (log.filter fun x => p x.2).map Prod.fst

theorem count_jobsOf (p : Effect E V → Bool) (log : List (ℕ × Effect E V)) (job : ℕ) :
    (jobsOf p log).count job = (valuesAt job log).countP p := by
  induction log with
  | nil => rfl
  | cons x log ih =>
    obtain ⟨j, e⟩ := x
    have hcons : valuesAt job ((j, e) :: log) = valuesAt job [(j, e)] ++ valuesAt job log :=
      valuesAt_append (m := [(j, e)])
    have hjobs : jobsOf p ((j, e) :: log) = (if p e then [j] else []) ++ jobsOf p log := by
      cases hp : p e <;> simp [jobsOf, hp]
    rw [hcons, hjobs, List.count_append, List.countP_append, ih]
    congr 1
    rcases eq_or_ne j job with rfl | hne
    · cases hp : p e <;> simp [hp]
    · rw [valuesAt_of_ne hne]
      cases hp : p e <;> simp [hne]

theorem jobsOf_append (p : Effect E V → Bool) (log : List (ℕ × Effect E V)) (job : ℕ)
    (e : Effect E V) : jobsOf p (log ++ [(job, e)]) =
      jobsOf p log ++ if p e then [job] else [] := by
  cases hp : p e <;> simp [jobsOf, hp]

/-! ## The effects of a task that behaves -/

variable {what : E → Option String} {task : Task E V}

/-- Such a task returns, or throws. -/
theorem Behaves.effects_eq (h : Behaves task) (what : E → Option String) :
    (∃ value, effects what task = [.recordCompleted, .deliver (.ok value)]) ∨
      ∃ e, effects what task = handled what e := by
  cases task with
  | void body =>
    cases body with
    | ok _ => exact .inl ⟨none, rfl⟩
    | error e => exact .inr ⟨e, rfl⟩
  | value body move =>
    cases body with
    | error e => exact .inr ⟨e, rfl⟩
    | ok value =>
      obtain ⟨moves, hrun⟩ := run_value_ok what move value
      exact .inl ⟨some value, by rw [effects, hrun, thrown_eq_none.mpr h]⟩

/-- The first effects of a task that behaves. -/
def Begun (what : E → Option String) (done : List (Effect E V)) : Prop :=
  ∃ task rest, Behaves task ∧ effects what task = done ++ rest

theorem Begun.completed_le {done : List (Effect E V)} (h : Begun what done) :
    done.countP Effect.isCompleted ≤ 1 := by
  obtain ⟨task, rest, hb, he⟩ := h
  have hle : done.countP Effect.isCompleted ≤ (effects what task).countP Effect.isCompleted := by
    rw [he, List.countP_append]
    exact Nat.le_add_right _ _
  rcases hb.effects_eq what with ⟨value, h⟩ | ⟨e, h⟩
  all_goals
    rw [h] at hle
    exact hle

/-- A result is delivered last, after the completion and, if it is an error, the panic. -/
theorem Begun.delivered {done : List (Effect E V)} (h : Begun what done) {result : Result E V}
    (hr : done.findSome? Effect.delivered = some result) :
    0 < done.countP Effect.isCompleted ∧
      (result.isOk = false → 0 < done.countP Effect.isPanic) := by
  obtain ⟨task, rest, hb, he⟩ := h
  have hpre : done <+: effects what task := ⟨rest, he.symm⟩
  rcases hb.effects_eq what with ⟨value, h⟩ | ⟨e, h⟩
  · simp only [h, List.prefix_cons_iff, List.prefix_nil] at hpre
    rcases hpre with rfl | ⟨_, rfl, rfl | ⟨_, rfl, rfl⟩⟩
    · simp at hr
    · simp [Effect.delivered] at hr
    · obtain rfl : Result.ok value = result := Option.some.inj hr
      exact ⟨Nat.one_pos, fun h => absurd h (by simp [Result.isOk])⟩
  · simp only [h, handled, List.prefix_cons_iff, List.prefix_nil] at hpre
    rcases hpre with rfl | ⟨_, rfl, rfl | ⟨_, rfl, rfl | ⟨_, rfl, rfl⟩⟩⟩
    · simp at hr
    · simp [Effect.delivered] at hr
    · simp [List.findSome?, Effect.delivered] at hr
    · exact ⟨Nat.one_pos, fun _ => Nat.one_pos⟩

/-! ## The account -/

/-- What is left of the closure of a job that has done `done`. -/
def Left (what : E → Option String) (done : List (Effect E V)) : TaskPc E V → Prop
  | .closure rest => ∃ task, Behaves task ∧ effects what task = done ++ rest
  | .stolen | .body => done = []

/-- What was counted, job by job. -/
structure Account (P : Laws B) (what : E → Option String) (s : State B E V ρ) : Prop where
  base : B.machine.Reachable s.base
  recorded : ∀ job, P.Entered s.base job → job ∈ s.recorded
  logged : ∀ x ∈ s.log, x.1 ∈ P.started s.base
  idle : ∀ w, B.running s.base w = none → s.task w = .body
  running : ∀ w job, B.running s.base w = some job → Left what (valuesAt job s.log) (s.task w)
  begun : ∀ job, Begun what (valuesAt job s.log)
  submitted : s.metrics.tasksSubmitted = s.recorded.length
  completed : s.metrics.tasksCompleted = (jobsOf Effect.isCompleted s.log).length
  panicked : s.metrics.tasksPanicked = (jobsOf Effect.isPanic s.log).length
  joined : ∀ x ∈ s.joined, s.delivered x.1 = some x.2
  joined_nodup : (s.joined.map Prod.fst).Nodup

variable {P : Laws B} {s s' : State B E V ρ} {w : Fin N} {l : B.Label} {b : B.State}

theorem begun_nil (what : E → Option String) : Begun what ([] : List (Effect E V)) :=
  ⟨.void (.ok ()), _, trivial, rfl⟩

theorem Account.fresh (ha : Account P what s) {job : ℕ} (h : job ∉ P.started s.base) :
    valuesAt job s.log = [] := by
  refine List.eq_nil_iff_forall_not_mem.mpr fun e he => ?_
  exact h (ha.logged (job, e) (mem_valuesAt.mp he))

/-! ### Steps of the backend -/

theorem taskAfter_eq (hbody : ∀ w, B.bodyStep l ≠ some (.returns w)) : s.taskAfter l b =
    match B.stolen s.base l b with
    | some w => Function.update s.task w .stolen
    | none => s.task := by
  unfold State.taskAfter
  cases hl : B.bodyStep l with
  | none => cases B.stolen s.base l b <;> rfl
  | some x =>
    cases x with
    | submits v => cases B.stolen s.base l b <;> rfl
    | returns v => exact absurd hl (hbody v)

theorem taskAfter_return (h : B.bodyStep l = some (.returns w)) :
    s.taskAfter l b = Function.update s.task w .body := by
  simp only [State.taskAfter, h]

/-- Where a worker starts a job, only its own program counter changes. -/
theorem taskAfter_start (hbody : ∀ w, B.bodyStep l ≠ some (.returns w))
    (hstolen : ∀ v, B.stolen s.base l b = some v → v = w) :
    (∀ v, v ≠ w → s.taskAfter l b v = s.task v) ∧
      (s.taskAfter l b w = s.task w ∨ s.taskAfter l b w = .stolen) := by
  rw [taskAfter_eq hbody]
  cases hs : B.stolen s.base l b with
  | none => exact ⟨fun _ _ => rfl, .inl rfl⟩
  | some v =>
    obtain rfl := hstolen v hs
    exact ⟨fun u hu => Function.update_of_ne hu _ _, .inr (Function.update_self _ _ _)⟩

/-- A step of the backend that keeps the jobs started before keeps the account, if it does so with
the closures. -/
theorem Account.congr (ha : Account P what s) (hready : s.ready l = true)
    (hst : B.machine.step s.base l = some b) (hmono : P.started s.base ⊆ P.started b)
    {task : Fin N → TaskPc E V} (hidle : ∀ w, B.running b w = none → task w = .body)
    (hrunning : ∀ w job, B.running b w = some job → Left what (valuesAt job s.log) (task w)) :
    Account P what { s with base := b, task := task } where
  base := ha.base.next hst
  recorded job hjob := by
    rcases P.entered ha.base hst job hjob with h | h
    · exact ha.recorded job h
    · have hentry := (Bool.and_eq_true_iff.mp hready).1
      rw [h] at hentry
      exact of_decide_eq_true hentry
  logged x hx := hmono (ha.logged x hx)
  idle := hidle
  running := hrunning
  begun := ha.begun
  submitted := ha.submitted
  completed := ha.completed
  panicked := ha.panicked
  joined := ha.joined
  joined_nodup := ha.joined_nodup

/-- A step of the backend. -/
theorem Account.base_step (ha : Account P what s) (hready : s.ready l = true)
    (hst : B.machine.step s.base l = some b) :
    Account P what { s with base := b, task := s.taskAfter l b } := by
  cases P.turn ha.base hst with
  | keep hrun hstart hbody hstolen =>
    have htask : s.taskAfter l b = s.task := by rw [taskAfter_eq hbody, hstolen]
    refine ha.congr hready hst (by rw [hstart]; exact List.Subset.refl _) ?_ ?_
    · rw [hrun, htask]
      exact ha.idle
    · rw [hrun, htask]
      exact ha.running
  | @start w job hpc hrun hstart hbody hstolen =>
    obtain ⟨hother, hself⟩ := taskAfter_start hbody hstolen
    have hnew : job ∉ P.started s.base := fun h => by
      have hnodup := P.started_nodup (ha.base.next hst)
      rw [hstart] at hnodup
      exact (List.nodup_append.mp hnodup).2.2 job h job (List.mem_singleton_self _) rfl
    refine ha.congr hready hst (by rw [hstart]; exact List.subset_append_left _ _)
      (fun v hv => ?_) fun v j hv => ?_
    · rcases eq_or_ne v w with rfl | hne
      · rw [hrun, Function.update_self] at hv
        exact absurd hv (by simp)
      · rw [hrun, Function.update_of_ne hne] at hv
        rw [hother v hne]
        exact ha.idle v hv
    · rcases eq_or_ne v w with rfl | hne
      · rw [hrun, Function.update_self] at hv
        obtain rfl := Option.some.inj hv
        rw [ha.fresh hnew]
        rcases hself with h | h
        · rw [h, ha.idle v hpc]
          rfl
        · rw [h]
          rfl
      · rw [hrun, Function.update_of_ne hne] at hv
        rw [hother v hne]
        exact ha.running v j hv
  | @returns w hbody _ hrun hstart hstolen =>
    rw [taskAfter_return hbody]
    refine ha.congr hready hst (by rw [hstart]; exact List.Subset.refl _)
      (fun v hv => ?_) fun v j hv => ?_
    · rcases eq_or_ne v w with rfl | hne
      · exact Function.update_self _ _ _
      · rw [hrun, Function.update_of_ne hne] at hv
        rw [Function.update_of_ne hne]
        exact ha.idle v hv
    · rcases eq_or_ne v w with rfl | hne
      · rw [hrun, Function.update_self] at hv
        exact absurd hv (by simp)
      · rw [hrun, Function.update_of_ne hne] at hv
        rw [Function.update_of_ne hne]
        exact ha.running v j hv

/-! ### Steps of the closures -/

/-- A step of worker `w` that leaves no effect. -/
theorem Account.setTask (ha : Account P what s) {pc : TaskPc E V}
    (hidle : B.running s.base w = none → pc = .body)
    (hrunning : ∀ job, B.running s.base w = some job → Left what (valuesAt job s.log) pc) :
    Account P what (s.setTask w pc) where
  base := ha.base
  recorded := ha.recorded
  logged := ha.logged
  idle v hv := by
    rcases eq_or_ne v w with rfl | hne
    · exact (Function.update_self _ _ _).trans (hidle hv)
    · exact (Function.update_of_ne hne _ _).trans (ha.idle v hv)
  running v job hv := by
    show Left what (valuesAt job s.log) (Function.update s.task w pc v)
    rcases eq_or_ne v w with rfl | hne
    · rw [Function.update_self]
      exact hrunning job hv
    · rw [Function.update_of_ne hne]
      exact ha.running v job hv
  begun := ha.begun
  submitted := ha.submitted
  completed := ha.completed
  panicked := ha.panicked
  joined := ha.joined
  joined_nodup := ha.joined_nodup

theorem count_completed (m : RuntimeMetrics) (e : Effect E V) : (m.count e).tasksCompleted =
    m.tasksCompleted + if e.isCompleted then 1 else 0 := by
  cases e <;> rfl

theorem count_panicked (m : RuntimeMetrics) (e : Effect E V) : (m.count e).tasksPanicked =
    m.tasksPanicked + if e.isPanic then 1 else 0 := by
  cases e <;> rfl

theorem count_submitted (m : RuntimeMetrics) (e : Effect E V) :
    (m.count e).tasksSubmitted = m.tasksSubmitted := by
  cases e <;> rfl

/-- The state after the next effect of the closure that worker `w` runs. -/
def State.performed (s : State B E V ρ) (w : Fin N) (job : ℕ) (e : Effect E V)
    (rest : List (Effect E V)) : State B E V ρ :=
  { s.setTask w (.closure rest) with
    metrics := s.metrics.count e, log := s.log ++ [(job, e)] }

/-- A closure leaves its next effect behind. -/
theorem Account.performed (ha : Account P what s) {job : ℕ} {e : Effect E V}
    {rest : List (Effect E V)} (htask : s.task w = .closure (e :: rest))
    (hrun : B.running s.base w = some job) : Account P what (s.performed w job e rest) := by
  have hself : valuesAt job (s.log ++ [(job, e)]) = valuesAt job s.log ++ [e] := by
    rw [valuesAt_append, valuesAt_self]
  have hother : ∀ j ≠ job, valuesAt j (s.log ++ [(job, e)]) = valuesAt j s.log := fun j hj => by
    rw [valuesAt_append, valuesAt_of_ne hj.symm, List.append_nil]
  have hleft := ha.running w job hrun
  rw [htask] at hleft
  obtain ⟨task, hb, he⟩ := hleft
  have he' : effects what task = (valuesAt job s.log ++ [e]) ++ rest := by
    rw [he, List.append_assoc]
    rfl
  exact
    { base := ha.base
      recorded := ha.recorded
      logged := fun x hx => by
        rcases List.mem_append.mp hx with h | h
        · exact ha.logged x h
        · rw [List.mem_singleton.mp h]
          exact P.running_started ha.base hrun
      idle := fun v hv => by
        have hne : v ≠ w := by
          rintro rfl
          exact absurd (hv.symm.trans hrun) (by simp)
        exact (Function.update_of_ne hne _ _).trans (ha.idle v hv)
      running := fun v j hv => by
        show Left what (valuesAt j (s.log ++ [(job, e)]))
          (Function.update s.task w (.closure rest) v)
        rcases eq_or_ne v w with rfl | hne
        · obtain rfl := Option.some.inj (hrun.symm.trans hv)
          rw [Function.update_self, hself]
          exact ⟨task, hb, he'⟩
        · have hj : j ≠ job := by
            rintro rfl
            exact hne (P.running_inj ha.base hv hrun)
          rw [Function.update_of_ne hne, hother j hj]
          exact ha.running v j hv
      begun := fun j => by
        show Begun what (valuesAt j (s.log ++ [(job, e)]))
        rcases eq_or_ne j job with rfl | hj
        · rw [hself]
          exact ⟨task, rest, hb, he'⟩
        · rw [hother j hj]
          exact ha.begun j
      submitted := (count_submitted _ _).trans ha.submitted
      completed := by
        show (s.metrics.count e).tasksCompleted = (jobsOf _ (s.log ++ [(job, e)])).length
        rw [count_completed, ha.completed, jobsOf_append, List.length_append]
        split <;> rfl
      panicked := by
        show (s.metrics.count e).tasksPanicked = (jobsOf _ (s.log ++ [(job, e)])).length
        rw [count_panicked, ha.panicked, jobsOf_append, List.length_append]
        split <;> rfl
      joined := fun x hx => by
        have hx := ha.joined x hx
        show (valuesAt x.1 (s.log ++ [(job, e)])).findSome? Effect.delivered = some x.2
        rw [valuesAt_append, List.findSome?_append]
        exact (congrArg (Option.or · _) hx).trans rfl
      joined_nodup := ha.joined_nodup }

/-! ### Every step -/

section Step

variable [DecidableEq ρ] {lab : Label B E V ρ}

/-- **Every step keeps the account.** -/
theorem Account.step (ha : Account P what s) (hok : Behaving s lab)
    (hst : step what s lab = some s') : Account P what s' := by
  cases lab with
  | base l =>
    simp only [Spawn.step] at hst
    split_ifs at hst with hready
    obtain ⟨b, hb, rfl⟩ := Option.map_eq_some_iff.mp hst
    exact ha.base_step hready hb
  | record l =>
    simp only [Spawn.step] at hst
    split at hst
    · rename_i job _
      split_ifs at hst
      obtain rfl := Option.some.inj hst
      exact
        { ha with
          recorded := fun j hj => List.mem_append_left _ (ha.recorded j hj)
          submitted := by
            show s.metrics.tasksSubmitted + 1 = (s.recorded ++ [job]).length
            rw [ha.submitted, List.length_append, List.length_singleton] }
    · exact absurd hst (by simp)
  | stolen w =>
    simp only [Spawn.step] at hst
    split at hst
    · rename_i htask
      obtain rfl := Option.some.inj hst
      have hset : Account P what (s.setTask w .body) := by
        refine ha.setTask (fun _ => rfl) fun job hrun => ?_
        have hleft := ha.running w job hrun
        rw [htask] at hleft
        exact hleft
      exact { hset with
        submitted := hset.submitted, completed := hset.completed, panicked := hset.panicked }
    · exact absurd hst (by simp)
  | ended w task =>
    simp only [Spawn.step] at hst
    split_ifs at hst with hbody
    obtain rfl := Option.some.inj hst
    refine ha.setTask (fun h => absurd h (P.running_of_finish ha.base hbody.2)) fun job hrun => ?_
    have hleft := ha.running w job hrun
    have htask : s.task w = .body := by
      cases h : s.task w with
      | body => rfl
      | stolen | closure => exact absurd (h ▸ hbody.1) (by simp [TaskPc.isBody])
    rw [htask] at hleft
    exact ⟨task, hok, by rw [hleft]; rfl⟩
  | closure w =>
    simp only [Spawn.step] at hst
    split at hst
    · rename_i e rest job htask hrun
      obtain rfl := Option.some.inj hst
      exact ha.performed htask hrun
    · exact absurd hst (by simp)
  | join job =>
    simp only [Spawn.step] at hst
    split at hst
    · rename_i result hres
      split_ifs at hst with hmem
      obtain rfl := Option.some.inj hst
      exact
        { ha with
          joined := fun x hx => by
            rcases List.mem_append.mp hx with h | h
            · exact ha.joined x h
            · rw [List.mem_singleton.mp h]
              exact hres
          joined_nodup := by
            show ((s.joined ++ [(job, result)]).map Prod.fst).Nodup
            have hconcat := ha.joined_nodup.concat hmem
            rw [List.concat_eq_append] at hconcat
            rwa [List.map_append] }
    · exact absurd hst (by simp)
  | load r =>
    obtain rfl := Option.some.inj hst
    unfold stepReader
    split <;> exact { ha with }

/-- **The account is right in every state that tasks that behave reach.** -/
theorem reachable_account (P : Laws B) {ok : State B E V ρ → Label B E V ρ → Prop}
    (h : (machine B what V ρ).ReachableUnder ok s) (hok : ∀ s l, ok s l → Behaving s l) :
    Account P what s := by
  refine h.invariant (fun s hs => ?_) fun _ _ _ _ hl hst ha => ha.step (hok _ _ hl) hst
  obtain ⟨b, hb, rfl⟩ := hs
  obtain ⟨hentered, hrunning⟩ := P.init hb
  exact
    { base := ⟨[], b, hb, .nil⟩
      recorded := fun job hjob => absurd hjob (hentered job)
      logged := fun _ hx => absurd hx List.not_mem_nil
      idle := fun _ _ => rfl
      running := fun w _ hw => absurd ((hrunning w).symm.trans hw) (by simp)
      begun := fun _ => begun_nil what
      submitted := rfl
      completed := rfl
      panicked := rfl
      joined := fun _ hx => absurd hx List.not_mem_nil
      joined_nodup := List.nodup_nil }

end Step

/-! ## The counters -/

theorem Account.completed_nodup (ha : Account P what s) :
    (jobsOf Effect.isCompleted s.log).Nodup :=
  List.nodup_iff_count_le_one.mpr fun job => by
    rw [count_jobsOf]
    exact (ha.begun job).completed_le

/-- What is in the log was submitted. -/
theorem Account.jobsOf_subset (ha : Account P what s) (p : Effect E V → Bool) :
    jobsOf p s.log ⊆ s.recorded := fun job hjob => by
  obtain ⟨x, hx, rfl⟩ := List.mem_map.mp hjob
  exact ha.recorded _ (P.started_entered ha.base _ (ha.logged x (List.mem_of_mem_filter hx)))

/-- No more tasks have completed than were submitted. -/
theorem Account.completed_le (ha : Account P what s) :
    s.metrics.tasksCompleted ≤ s.metrics.tasksSubmitted := by
  rw [ha.completed, ha.submitted]
  exact (List.subperm_of_subset ha.completed_nodup (ha.jobsOf_subset _)).length_le

/-- The jobs that were joined with an error. -/
def errors (joined : List (Joined E V)) : List (Joined E V) := joined.filter fun x => !x.2.isOk

/-- The counters have counted what was joined. -/
structure Covers (joined : List (Joined E V)) (m : RuntimeMetrics) : Prop where
  submitted : joined.length ≤ m.tasksSubmitted
  completed : joined.length ≤ m.tasksCompleted
  panicked : (errors joined).length ≤ m.tasksPanicked

theorem Account.covers (ha : Account P what s) : Covers s.joined s.metrics := by
  have hdone : ∀ x ∈ s.joined, 0 < (valuesAt x.1 s.log).countP Effect.isCompleted ∧
      (x.2.isOk = false → 0 < (valuesAt x.1 s.log).countP Effect.isPanic) := fun x hx =>
    (ha.begun x.1).delivered (ha.joined x hx)
  have hcompleted : s.joined.map Prod.fst ⊆ jobsOf Effect.isCompleted s.log := fun job hjob => by
    obtain ⟨x, hx, rfl⟩ := List.mem_map.mp hjob
    rw [← List.count_pos_iff, count_jobsOf]
    exact (hdone x hx).1
  have hpanicked : (errors s.joined).map Prod.fst ⊆ jobsOf Effect.isPanic s.log :=
      fun job hjob => by
    obtain ⟨x, hx, rfl⟩ := List.mem_map.mp hjob
    obtain ⟨hx, herr⟩ := List.mem_filter.mp hx
    rw [← List.count_pos_iff, count_jobsOf]
    exact (hdone x hx).2 (by simpa using herr)
  have hle : s.joined.length ≤ (jobsOf Effect.isCompleted s.log).length := by
    have := (List.subperm_of_subset ha.joined_nodup hcompleted).length_le
    rwa [List.length_map] at this
  refine ⟨?_, ?_, ?_⟩
  · have := ha.completed_le
    rw [ha.completed] at this
    omega
  · rw [ha.completed]
    exact hle
  · have hnodup : ((errors s.joined).map Prod.fst).Nodup :=
      (List.filter_sublist.map Prod.fst).nodup ha.joined_nodup
    have := (List.subperm_of_subset hnodup hpanicked).length_le
    rw [List.length_map] at this
    rw [ha.panicked]
    exact this

end Wss.Spawn
