import Wss.Spawn.Pools

/-!
# What comes out of a handle

`Outcomes P what told s`: the tasks `told` are those whose code has ended, each with its job. A job
has one task; where its closure still runs, what it has done and what is left are the effects of
that task, and where it has returned, all of them are done.

Results:
* `path_outcomes`: this is so along every run of tasks that behave.
* `joins_own_outcome`: so the result in a handle is that of its own task.
* `settled_of_exited`: when the last worker has left, nothing waits and nothing runs.
* `settled_metrics`: then the counters are exact.
-/

namespace Wss.Spawn

open Wss.Lib

variable {N : ℕ} {B : Backend N} {E V ρ : Type}

/-! ## The outcome of a task -/

/-- What a task puts into its handle, if no move of its value throws. -/
def Task.outcome (what : E → Option String) : Task E V → Result E V
  | .void (.ok _) => .ok none
  | .value (.ok v) _ => .ok (some v)
  | .void (.error e) | .value (.error e) _ => .err ⟨currentExceptionMessage what e, e⟩

/-- What a closure does that delivers `result`. -/
def settling (result : Result E V) : List (Effect E V) :=
  (if result.isOk then [] else [.recordPanic]) ++ [.recordCompleted, .deliver result]

variable {what : E → Option String} {task : Task E V}

theorem Behaves.effects_outcome (h : Behaves task) (what : E → Option String) :
    effects what task = settling (task.outcome what) := by
  cases task with
  | void body => cases body <;> rfl
  | value body move =>
    cases body with
    | error e => rfl
    | ok value =>
      obtain ⟨moves, hrun⟩ := run_value_ok what move value
      rw [effects, hrun, thrown_eq_none.mpr h]
      rfl

@[simp] theorem settling_delivered (result : Result E V) :
    (settling result).findSome? Effect.delivered = some result := by
  cases result <;> rfl

@[simp] theorem settling_completed (result : Result E V) :
    (settling result).countP Effect.isCompleted = 1 := by
  cases result <;> rfl

@[simp] theorem settling_panic (result : Result E V) :
    (settling result).countP Effect.isPanic = if result.isOk then 0 else 1 := by
  cases result <;> rfl

/-- The result comes last. -/
theorem delivered_of_settling {result result' : Result E V} {done rest : List (Effect E V)}
    (h : settling result = done ++ rest) (hd : done.findSome? Effect.delivered = some result') :
    result' = result := by
  have hall := settling_delivered result
  rw [h, List.findSome?_append, hd] at hall
  exact Option.some.inj hall

/-! ## The tasks that have ended -/

/-- The user's code of a job ends as `task`. -/
def ended (s : State B E V ρ) : Label B E V ρ → List (ℕ × Task E V)
  | .ended w task => (B.running s.base w).toList.map (·, task)
  | .base _ | .record _ | .stolen _ | .closure _ | .join _ | .load _ => []

/-- The code of a job has ended, and its closure has done `done` and has `rest` left. -/
def Told (what : E → Option String) (told : List (ℕ × Task E V)) (job : ℕ)
    (done rest : List (Effect E V)) : Prop :=
  ∃ task, (job, task) ∈ told ∧ Behaves task ∧ settling (task.outcome what) = done ++ rest

/-- What is known of the tasks that have ended. -/
structure Outcomes (P : Laws B) (what : E → Option String) (told : List (ℕ × Task E V))
    (s : State B E V ρ) : Prop where
  nodup : (told.map Prod.fst).Nodup
  started : ∀ job ∈ told.map Prod.fst, job ∈ P.started s.base
  body : ∀ w job, B.running s.base w = some job → (∀ rest, s.task w ≠ .closure rest) →
    job ∉ told.map Prod.fst
  closure : ∀ w job rest, B.running s.base w = some job → s.task w = .closure rest →
    Told what told job (valuesAt job s.log) rest
  done : ∀ job ∈ P.started s.base, (∀ w, B.running s.base w ≠ some job) →
    Told what told job (valuesAt job s.log) []

variable {P : Laws B} {told : List (ℕ × Task E V)} {s s' : State B E V ρ} {w : Fin N} {job : ℕ}
  {l : B.Label} {b : B.State} {done rest : List (Effect E V)}

theorem Told.mono (h : Told what told job done rest) (x : ℕ × Task E V) :
    Told what (told ++ [x]) job done rest := by
  obtain ⟨task, hmem, hb, he⟩ := h
  exact ⟨task, List.mem_append_left _ hmem, hb, he⟩

namespace Outcomes

/-- A step that no closure takes part in. -/
theorem congr (h : Outcomes P what told s) (hbase : s'.base = s.base)
    (hclosure : ∀ w rest, s'.task w = .closure rest ↔ s.task w = .closure rest)
    (hlog : s'.log = s.log) : Outcomes P what told s' where
  nodup := h.nodup
  started := by
    rw [hbase]
    exact h.started
  body w job hw hpc := by
    rw [hbase] at hw
    exact h.body w job hw fun rest hr => hpc rest ((hclosure w rest).mpr hr)
  closure w job rest hw hpc := by
    rw [hbase] at hw
    rw [hlog]
    exact h.closure w job rest hw ((hclosure w rest).mp hpc)
  done job hjob hrun := by
    rw [hbase] at hjob hrun
    rw [hlog]
    exact h.done job hjob hrun

/-- A step of the backend. -/
theorem base_step (h : Outcomes P what told s) (ha : Account P what s) (hready : s.ready l = true)
    (hst : B.machine.step s.base l = some b) :
    Outcomes P what told { s with base := b, task := s.taskAfter l b } := by
  cases P.turn ha.base hst with
  | keep hrun hstart hbody hstolen =>
    have htask : s.taskAfter l b = s.task := by rw [taskAfter_eq hbody, hstolen]
    refine ⟨h.nodup, ?_, ?_, ?_, ?_⟩
    · rw [hstart]
      exact h.started
    · rw [hrun, htask]
      exact h.body
    · rw [hrun, htask]
      exact h.closure
    · rw [hrun, hstart]
      exact h.done
  | @start w job hw hrun hstart hbody hstolen =>
    obtain ⟨hother, hself⟩ := taskAfter_start hbody hstolen
    have hnew : job ∉ P.started s.base := fun hmem => by
      have hnodup := P.started_nodup (ha.base.next hst)
      rw [hstart] at hnodup
      exact (List.nodup_append.mp hnodup).2.2 job hmem job (List.mem_singleton_self _) rfl
    -- the new body has not ended
    have hpc : ∀ rest, s.taskAfter l b w ≠ .closure rest := by
      intro rest
      rcases hself with he | he
      · rw [he, ha.idle w hw]
        exact nofun
      · rw [he]
        exact nofun
    refine ⟨h.nodup, fun j hj => ?_, fun v j hv hvpc => ?_, fun v j rest hv hvpc => ?_,
      fun j hj hnot => ?_⟩
    · show j ∈ P.started b
      rw [hstart]
      exact List.mem_append_left _ (h.started j hj)
    · rw [hrun] at hv
      rcases eq_or_ne v w with rfl | hne
      · rw [Function.update_self] at hv
        obtain rfl := Option.some.inj hv
        exact fun hmem => hnew (h.started job hmem)
      · rw [Function.update_of_ne hne] at hv
        exact h.body v j hv fun rest => by rw [← hother v hne]; exact hvpc rest
    · rw [hrun] at hv
      rcases eq_or_ne v w with rfl | hne
      · exact absurd hvpc (hpc rest)
      · rw [Function.update_of_ne hne] at hv
        exact h.closure v j rest hv ((hother v hne).symm.trans hvpc)
    · rw [hstart] at hj
      rw [hrun] at hnot
      have hne : j ≠ job := fun e => hnot w (by rw [Function.update_self, e])
      have hmem : j ∈ P.started s.base := by simpa [hne] using hj
      refine h.done j hmem fun v hv => hnot v ?_
      rcases eq_or_ne v w with rfl | hvw
      · exact absurd (hw.symm.trans hv) (by simp)
      · rw [Function.update_of_ne hvw, hv]
  | @returns w hbody hrunning hrun hstart _ =>
    rw [taskAfter_return hbody]
    -- its closure has nothing left to do
    have hclosed : s.task w = .closure [] := by
      simp only [State.ready, hbody, Bool.and_eq_true] at hready
      have hdone := hready.2
      unfold TaskPc.isDone at hdone
      split at hdone
      · assumption
      · exact absurd hdone Bool.false_ne_true
      · exact absurd hdone Bool.false_ne_true
      · exact absurd hdone Bool.false_ne_true
    have hcases : ∀ v j, B.running b v = some j → v ≠ w ∧ B.running s.base v = some j := by
      intro v j hv
      rw [hrun] at hv
      rcases eq_or_ne v w with rfl | hne
      · rw [Function.update_self] at hv
        exact absurd hv (by simp)
      · rw [Function.update_of_ne hne] at hv
        exact ⟨hne, hv⟩
    refine ⟨h.nodup, fun j hj => ?_, fun v j hv hvpc => ?_, fun v j rest hv hvpc => ?_,
      fun j hj hnot => ?_⟩
    · show j ∈ P.started b
      rw [hstart]
      exact h.started j hj
    · obtain ⟨hne, hv⟩ := hcases v j hv
      exact h.body v j hv fun rest hr => hvpc rest (by simpa [hne] using hr)
    · obtain ⟨hne, hv⟩ := hcases v j hv
      exact h.closure v j rest hv (by simpa [hne] using hvpc)
    · rw [hstart] at hj
      by_cases hj' : B.running s.base w = some j
      · exact h.closure w j [] hj' hclosed
      · refine h.done j hj fun v hv => ?_
        have hne : v ≠ w := by
          rintro rfl
          exact hj' hv
        exact hnot v (by rw [hrun, Function.update_of_ne hne, hv])

/-- The code of a job ends. -/
theorem ends (h : Outcomes P what told s) (ha : Account P what s)
    (hrun : B.running s.base w = some job) (hpc : s.task w = .body) (hb : Behaves task) :
    Outcomes P what (told ++ [(job, task)]) (s.setTask w (.closure (effects what task))) := by
  have hnew : job ∉ told.map Prod.fst := h.body w job hrun (by rw [hpc]; exact nofun)
  have hother : ∀ v ≠ w, (s.setTask w (.closure (effects what task))).task v = s.task v :=
    fun v hv => Function.update_of_ne hv _ _
  refine ⟨?_, fun j hj => ?_, fun v j hv hvpc => ?_, fun v j rest hv hvpc => ?_,
    fun j hj hnot => (h.done j hj hnot).mono _⟩
  · have hconcat := h.nodup.concat hnew
    rw [List.concat_eq_append] at hconcat
    rwa [List.map_append]
  · rw [List.map_append, List.mem_append] at hj
    rcases hj with hj | hj
    · exact h.started j hj
    · obtain rfl := List.mem_singleton.mp hj
      exact P.running_started ha.base hrun
  · have hne : v ≠ w := by
      rintro rfl
      exact hvpc _ (Function.update_self _ _ _)
    have hj : j ≠ job := by
      rintro rfl
      exact hne (P.running_inj ha.base hv hrun)
    rw [hother v hne] at hvpc
    rw [List.map_append, List.mem_append, not_or]
    exact ⟨h.body v j hv hvpc, fun hmem => hj (List.mem_singleton.mp hmem)⟩
  · rcases eq_or_ne v w with rfl | hne
    · obtain rfl := Option.some.inj (hv.symm.trans hrun)
      obtain rfl : effects what task = rest := by
        have hset : (s.setTask v (.closure (effects what task))).task v =
            .closure (effects what task) := Function.update_self _ _ _
        exact TaskPc.closure.inj (hset.symm.trans hvpc)
      have hfresh := ha.running v j hrun
      rw [hpc] at hfresh
      have hnil : valuesAt j s.log = [] := hfresh
      refine ⟨task, List.mem_append_right _ (List.mem_singleton_self _), hb, ?_⟩
      show settling (task.outcome what) = valuesAt j s.log ++ effects what task
      rw [hnil, List.nil_append, hb.effects_outcome]
    · rw [hother v hne] at hvpc
      exact (h.closure v j rest hv hvpc).mono _

/-- A closure leaves its next effect behind. -/
theorem performed (h : Outcomes P what told s) (ha : Account P what s) {e : Effect E V}
    (hpc : s.task w = .closure (e :: rest)) (hrun : B.running s.base w = some job) :
    Outcomes P what told (s.performed w job e rest) := by
  have hlog : ∀ j ≠ job, valuesAt j (s.log ++ [(job, e)]) = valuesAt j s.log := fun j hj => by
    rw [valuesAt_append, valuesAt_of_ne hj.symm, List.append_nil]
  have hother : ∀ v ≠ w, (s.performed w job e rest).task v = s.task v :=
    fun v hv => Function.update_of_ne hv _ _
  have hself : (s.performed w job e rest).task w = .closure rest := Function.update_self _ _ _
  have hne : ∀ {v j}, v ≠ w → B.running s.base v = some j → j ≠ job := by
    rintro v j hvw hv rfl
    exact hvw (P.running_inj ha.base hv hrun)
  refine ⟨h.nodup, h.started, fun v j hv hvpc => ?_, fun v j rest' hv hvpc => ?_,
    fun j hj hnot => ?_⟩
  · have hvw : v ≠ w := by
      rintro rfl
      exact hvpc _ hself
    rw [hother v hvw] at hvpc
    exact h.body v j hv hvpc
  · show Told what told j (valuesAt j (s.log ++ [(job, e)])) rest'
    rcases eq_or_ne v w with rfl | hvw
    · obtain rfl := Option.some.inj (hv.symm.trans hrun)
      obtain rfl := TaskPc.closure.inj (hself.symm.trans hvpc)
      obtain ⟨task, hmem, hb, he⟩ := h.closure v j (e :: rest) hrun hpc
      refine ⟨task, hmem, hb, ?_⟩
      rw [he, valuesAt_append, valuesAt_self, List.append_assoc]
      rfl
    · rw [hother v hvw] at hvpc
      rw [hlog j (hne hvw hv)]
      exact h.closure v j rest' hv hvpc
  · show Told what told j (valuesAt j (s.log ++ [(job, e)])) []
    have hj' : j ≠ job := by
      rintro rfl
      exact hnot w hrun
    rw [hlog j hj']
    exact h.done j hj hnot

end Outcomes

section Step

variable [DecidableEq ρ] {lab : Label B E V ρ}

/-- **Every step keeps the outcomes.** -/
theorem Outcomes.step (h : Outcomes P what told s) (ha : Account P what s) (hok : Behaving s lab)
    (hst : step what s lab = some s') : Outcomes P what (told ++ ended s lab) s' := by
  cases lab with
  | base l =>
    simp only [Spawn.step] at hst
    split_ifs at hst with hready
    obtain ⟨b, hb, rfl⟩ := Option.map_eq_some_iff.mp hst
    rw [ended, List.append_nil]
    exact h.base_step ha hready hb
  | record l =>
    simp only [Spawn.step] at hst
    rw [ended, List.append_nil]
    split at hst
    · split_ifs at hst
      obtain rfl := Option.some.inj hst
      exact h.congr rfl (fun _ _ => Iff.rfl) rfl
    · exact absurd hst (by simp)
  | stolen w =>
    simp only [Spawn.step] at hst
    rw [ended, List.append_nil]
    split at hst
    · rename_i hpc
      obtain rfl := Option.some.inj hst
      refine h.congr rfl (fun v rest => ?_) rfl
      show Function.update s.task w .body v = .closure rest ↔ s.task v = .closure rest
      rcases eq_or_ne v w with rfl | hne
      · rw [Function.update_self, hpc]
        exact iff_of_false (by simp) (by simp)
      · rw [Function.update_of_ne hne]
    · exact absurd hst (by simp)
  | ended w task =>
    simp only [Spawn.step] at hst
    split_ifs at hst with hbody
    obtain rfl := Option.some.inj hst
    obtain ⟨job, hrun⟩ := Option.ne_none_iff_exists'.mp (P.running_of_finish ha.base hbody.2)
    have hpc : s.task w = .body := by
      cases hw : s.task w with
      | body => rfl
      | stolen | closure => exact absurd (hw ▸ hbody.1) (by simp [TaskPc.isBody])
    rw [ended, hrun]
    exact h.ends ha hrun hpc hok
  | closure w =>
    simp only [Spawn.step] at hst
    rw [ended, List.append_nil]
    split at hst
    · rename_i e rest job hpc hrun
      obtain rfl := Option.some.inj hst
      exact h.performed ha hpc hrun
    · exact absurd hst (by simp)
  | join job =>
    simp only [Spawn.step] at hst
    rw [ended, List.append_nil]
    split at hst
    · split_ifs at hst
      obtain rfl := Option.some.inj hst
      exact h.congr rfl (fun _ _ => Iff.rfl) rfl
    · exact absurd hst (by simp)
  | load r =>
    obtain rfl := Option.some.inj hst
    rw [ended, List.append_nil]
    unfold stepReader
    split <;> exact h.congr rfl (fun _ _ => Iff.rfl) rfl

/-- **The outcomes are right along every run of tasks that behave.** -/
theorem path_outcomes {s₀ : State B E V ρ} {tr : List (Label B E V ρ)}
    {ok : State B E V ρ → Label B E V ρ → Prop} (hok : ∀ s l, ok s l → Behaving s l)
    (h₀ : (machine B what V ρ).init s₀) (h : (machine B what V ρ).Path ok s₀ tr s)
    (hstart : ∀ {b}, B.machine.init b → P.started b = []) :
    Outcomes P what ((machine B what V ρ).observe ended s₀ tr) s := by
  induction h with
  | nil =>
    obtain ⟨b, hb, rfl⟩ := h₀
    have hrun := (P.init hb).2
    refine ⟨List.nodup_nil, fun _ hj => absurd hj List.not_mem_nil,
      fun _ _ _ _ => List.not_mem_nil, fun w _ _ hw _ => ?_, fun j hj _ => ?_⟩
    · exact absurd ((hrun w).symm.trans hw) (by simp)
    · have hj : j ∈ P.started b := hj
      rw [hstart hb] at hj
      exact absurd hj List.not_mem_nil
  | snoc hp hl hst ih =>
    rw [hp.observe_snoc hst]
    exact ih.step (reachable_account P ⟨_, s₀, h₀, hp⟩ hok) (hok _ _ hl) hst

end Step

/-! ## Handles -/

/-- What is in a handle is the outcome of its own task. -/
theorem Outcomes.delivered (h : Outcomes P what told s) (ha : Account P what s)
    {result : Result E V} (hd : s.delivered job = some result) :
    ∃ task, (job, task) ∈ told ∧ result = task.outcome what := by
  have hne : valuesAt job s.log ≠ [] := by
    intro hnil
    rw [State.delivered, hnil] at hd
    exact absurd hd nofun
  have hjob : job ∈ P.started s.base := by
    by_contra hnot
    exact hne (ha.fresh hnot)
  have htold : ∃ rest, Told what told job (valuesAt job s.log) rest := by
    by_cases hrun : ∃ w, B.running s.base w = some job
    · obtain ⟨w, hw⟩ := hrun
      cases hpc : s.task w with
      | closure rest => exact ⟨rest, h.closure w job rest hw hpc⟩
      | stolen | body =>
        have hleft := ha.running w job hw
        rw [hpc] at hleft
        exact absurd hleft hne
    · exact ⟨[], h.done job hjob fun w hw => hrun ⟨w, hw⟩⟩
  obtain ⟨rest, task, hmem, -, he⟩ := htold
  exact ⟨task, hmem, delivered_of_settling he hd⟩

/-! ## Counters -/

/-- Every recorded job was handed in, and was recorded once. -/
structure Recorded (Q : PoolLaws P) (s : State B E V ρ) : Prop where
  nodup : s.recorded.Nodup
  lt : ∀ job ∈ s.recorded, job < Q.next s.base

/-- The tasks behave, and so do those who use the backend. -/
def Orderly (Q : PoolLaws P) (s : State B E V ρ) : Label B E V ρ → Prop
  | .base l => Q.Orderly s.base l
  | .ended _ task => Behaves task
  | .record _ | .stolen _ | .closure _ | .join _ | .load _ => True

theorem Orderly.behaving {Q : PoolLaws P} {lab : Label B E V ρ} (h : Orderly Q s lab) :
    Behaving s lab := by
  cases lab with
  | ended w task => exact h
  | _ => trivial

section Settled

variable [DecidableEq ρ] {Q : PoolLaws P} {lab : Label B E V ρ}

/-- A step of the backend, or one that it does not see. -/
theorem step_base (h : step what s lab = some s') : s'.base = s.base ∧
    (s'.recorded = s.recorded ∨ ∃ l job, B.entry s.base l = some job ∧ job ∉ s.recorded ∧
      s'.recorded = s.recorded ++ [job]) ∨
    ∃ l, lab = .base l ∧ B.machine.step s.base l = some s'.base ∧ s'.recorded = s.recorded := by
  cases lab with
  | base l =>
    simp only [step] at h
    split_ifs at h
    obtain ⟨b, hb, rfl⟩ := Option.map_eq_some_iff.mp h
    exact .inr ⟨l, rfl, hb, rfl⟩
  | record l =>
    simp only [step] at h
    split at h
    · rename_i job hentry
      split_ifs at h with hnew
      obtain rfl := Option.some.inj h
      exact .inl ⟨rfl, .inr ⟨l, job, hentry, hnew, rfl⟩⟩
    · exact absurd h (by simp)
  | stolen w =>
    simp only [step] at h
    split at h
    · obtain rfl := Option.some.inj h
      exact .inl ⟨rfl, .inl rfl⟩
    · exact absurd h (by simp)
  | ended w task =>
    simp only [step] at h
    split_ifs at h
    obtain rfl := Option.some.inj h
    exact .inl ⟨rfl, .inl rfl⟩
  | closure w =>
    simp only [step] at h
    split at h
    · obtain rfl := Option.some.inj h
      exact .inl ⟨rfl, .inl rfl⟩
    · exact absurd h (by simp)
  | join job =>
    simp only [step] at h
    split at h
    · split_ifs at h
      obtain rfl := Option.some.inj h
      exact .inl ⟨rfl, .inl rfl⟩
    · exact absurd h (by simp)
  | load r =>
    obtain rfl := Option.some.inj h
    unfold stepReader
    split <;> exact .inl ⟨rfl, .inl rfl⟩

/-- **What `spawn`, `join` and `metrics` do on a backend, the backend can do alone.** -/
theorem simulates_base (what : E → Option String) (V ρ : Type) [DecidableEq ρ] (Q : PoolLaws P) :
    Simulates (machine B what V ρ) (Orderly Q) B.machine Q.Orderly fun s b => b = s.base where
  init s hs := by
    obtain ⟨b, hb, rfl⟩ := hs
    exact ⟨b, hb, rfl⟩
  step s l s' b _ _ hb hok hst := by
    subst hb
    rcases step_base hst with ⟨hbase, -⟩ | ⟨l', rfl, hb, -⟩
    · exact .inl hbase.symm
    · exact .inr ⟨l', _, hok, hb, rfl⟩

theorem reachable_recorded (h : (machine B what V ρ).ReachableUnder (Orderly Q) s) :
    Recorded Q s := by
  refine h.invariant (fun s hs => ?_) fun s l s' hr hok hst ih => ?_
  · obtain ⟨b, -, rfl⟩ := hs
    exact ⟨List.nodup_nil, fun _ hj => absurd hj List.not_mem_nil⟩
  · obtain ⟨b, hb, rfl⟩ := (simulates_base what V ρ Q).reachable hr
    rcases step_base hst with ⟨hbase, hrec⟩ | ⟨l', -, hstb, hrec⟩
    · rcases hrec with hrec | ⟨l', job, hentry, hnew, hrec⟩
      · exact ⟨hrec ▸ ih.nodup, by rw [hrec, hbase]; exact ih.lt⟩
      · refine ⟨?_, fun j hj => ?_⟩
        · have hconcat := ih.nodup.concat hnew
          rwa [List.concat_eq_append, ← hrec] at hconcat
        · rw [hrec, List.mem_append] at hj
          rw [hbase]
          rcases hj with hj | hj
          · exact ih.lt j hj
          · rw [List.mem_singleton.mp hj]
            exact Q.entry_lt hb.reachable hentry
    · refine ⟨hrec ▸ ih.nodup, fun j hj => ?_⟩
      rw [hrec] at hj
      have hlt := ih.lt j hj
      cases Q.handed hb.reachable hstb with
      | same hn => omega
      | new hn => omega

/-- **When the last worker has left, nothing waits and nothing runs.** The pool that the backend
shows is closed, and a closed pool is idle. -/
theorem settled_of_exited (h : (machine B what V ρ).ReachableUnder (Orderly Q) s)
    (hexit : Q.exited s.base) :
    (∀ job < Q.next s.base, job ∈ P.started s.base) ∧ ∀ w, B.running s.base w = none := by
  obtain ⟨p, hp, b, -, rfl, rfl⟩ := ((simulates_base what V ρ Q).trans Q.simulates).reachable h
  obtain ⟨hwait, hrun⟩ := (JobPool.reachable_sound hp).closed hexit
  refine ⟨fun job hjob => ?_, hrun⟩
  by_contra hnot
  exact Set.notMem_empty job (hwait ▸ ⟨hjob, hnot⟩)

end Settled

/-- Keys that occur once are counted where `p` holds. -/
theorem count_filter_keys {α : Type} {l : List (ℕ × α)} (hl : (l.map Prod.fst).Nodup)
    (p : ℕ × α → Bool) {x : ℕ × α} (hx : x ∈ l) :
    ((l.filter p).map Prod.fst).count x.1 = if p x then 1 else 0 := by
  split_ifs with hp
  · refine List.count_eq_one_of_mem ((List.filter_sublist.map Prod.fst).nodup hl) ?_
    exact List.mem_map_of_mem (List.mem_filter.mpr ⟨hx, hp⟩)
  · refine List.count_eq_zero.mpr fun hmem => ?_
    obtain ⟨y, hy, hyx⟩ := List.mem_map.mp hmem
    obtain ⟨hy, hpy⟩ := List.mem_filter.mp hy
    obtain rfl := List.inj_on_of_nodup_map hl hy hx hyx
    exact hp hpy

namespace Outcomes

variable {n : ℕ}

/-- Where all jobs have started and none runs, each has ended once, and has left behind what its
task does. -/
theorem all_told (h : Outcomes P what told s) (hall : ∀ job < n, job ∈ P.started s.base)
    (hidle : ∀ w, B.running s.base w = none) (hjob : job < n) :
    ∃ task, (job, task) ∈ told ∧ valuesAt job s.log = settling (task.outcome what) := by
  obtain ⟨task, hmem, -, he⟩ := h.done job (hall job hjob) fun w hw =>
    absurd ((hidle w).symm.trans hw) nofun
  exact ⟨task, hmem, by rw [he, List.append_nil]⟩

/-- In such a state the counters are exact. -/
theorem exact (h : Outcomes P what told s) (ha : Account P what s)
    (hall : ∀ job < n, job ∈ P.started s.base) (hidle : ∀ w, B.running s.base w = none)
    (hlt : ∀ job ∈ P.started s.base, job < n) :
    (told.map Prod.fst).Perm (List.range n) ∧ s.metrics.tasksCompleted = n ∧
      s.metrics.tasksPanicked = told.countP (fun x => !(x.2.outcome what).isOk) := by
  have hfresh : ∀ job, ¬ job < n → valuesAt job s.log = [] := fun job hjob =>
    ha.fresh fun hmem => hjob (hlt job hmem)
  have htold : (told.map Prod.fst).Perm (List.range n) := by
    rw [List.perm_ext_iff_of_nodup h.nodup List.nodup_range]
    refine fun job => ⟨fun hmem => List.mem_range.mpr (hlt job (h.started job hmem)),
      fun hmem => ?_⟩
    obtain ⟨task, hmem, -⟩ := h.all_told hall hidle (List.mem_range.mp hmem)
    exact List.mem_map_of_mem hmem
  refine ⟨htold, ?_, ?_⟩
  · have hperm : (jobsOf Effect.isCompleted s.log).Perm (List.range n) := by
      rw [List.perm_iff_count]
      intro job
      rw [count_jobsOf]
      by_cases hjob : job < n
      · obtain ⟨task, -, hlog⟩ := h.all_told hall hidle hjob
        rw [hlog, settling_completed,
          List.count_eq_one_of_mem List.nodup_range (List.mem_range.mpr hjob)]
      · rw [hfresh job hjob, List.count_eq_zero.mpr fun hmem => hjob (List.mem_range.mp hmem)]
        rfl
    rw [ha.completed, hperm.length_eq, List.length_range]
  · have hperm : (jobsOf Effect.isPanic s.log).Perm
        ((told.filter fun x => !(x.2.outcome what).isOk).map Prod.fst) := by
      rw [List.perm_iff_count]
      intro job
      rw [count_jobsOf]
      by_cases hjob : job < n
      · obtain ⟨task, hmem, hlog⟩ := h.all_told hall hidle hjob
        rw [hlog, settling_panic, count_filter_keys h.nodup _ hmem]
        cases (task.outcome what).isOk <;> rfl
      · rw [hfresh job hjob, List.count_eq_zero.mpr]
        · rfl
        · intro hmem
          obtain ⟨x, hx, rfl⟩ := List.mem_map.mp hmem
          exact hjob (hlt x.1 (h.started _ (List.mem_map_of_mem (List.mem_of_mem_filter hx))))
    rw [ha.panicked, hperm.length_eq, List.length_map, List.countP_eq_length_filter]

end Outcomes

/-! ## Results -/

section Results

variable [NeZero N] {ω : Type} [Fintype ω] [DecidableEq ω] [DecidableEq ρ] {k : Kind}
variable {s₀ s : State (backend N ω k) E V ρ} {tr : List (Label (backend N ω k) E V ρ)}

/-- **A `join` returns the outcome of its own task.** On each backend, in every run of tasks that
behave: the code of a job ends at most once, a handle is joined at most once, and what `join` has
returned for a job is the value its code returned, or the error it threw. -/
theorem joins_own_outcome (h₀ : (machine (backend N ω k) what V ρ).init s₀)
    (h : (machine (backend N ω k) what V ρ).Path Behaving s₀ tr s) :
    (((machine (backend N ω k) what V ρ).observe ended s₀ tr).map Prod.fst).Nodup ∧
      (s.joined.map Prod.fst).Nodup ∧ ∀ x ∈ s.joined, ∃ task,
        (x.1, task) ∈ (machine (backend N ω k) what V ρ).observe ended s₀ tr ∧
          x.2 = task.outcome what := by
  have ha := reachable_account (laws N ω k) ⟨tr, s₀, h₀, h⟩ fun _ _ hok => hok
  have ho := path_outcomes (P := laws N ω k) (fun _ _ hok => hok) h₀ h
    fun hb => ((poolLaws N ω k).init hb).2.1
  exact ⟨ho.nodup, ha.joined_nodup, fun x hx => ho.delivered ha (ha.joined x hx)⟩

/-- **When the last worker has left, the counters are exact.** On each backend, in every orderly run
of tasks that behave: `submitted` and `completed` are the number of tasks that were spawned, each
has ended once and its outcome was delivered, and `panicked` is the number of those that threw. -/
theorem settled_metrics (h₀ : (machine (backend N ω k) what V ρ).init s₀)
    (h : (machine (backend N ω k) what V ρ).Path (Orderly (poolLaws N ω k)) s₀ tr s)
    (hexit : (poolLaws N ω k).exited s.base) :
    let told := (machine (backend N ω k) what V ρ).observe ended s₀ tr
    let n := (poolLaws N ω k).next s.base
    (told.map Prod.fst).Perm (List.range n) ∧
      (∀ x ∈ told, s.delivered x.1 = some (x.2.outcome what)) ∧
      s.metrics.tasksSubmitted = n ∧ s.metrics.tasksCompleted = n ∧
      s.metrics.tasksPanicked = told.countP fun x => !(x.2.outcome what).isOk := by
  have hr : (machine (backend N ω k) what V ρ).ReachableUnder (Orderly (poolLaws N ω k)) s :=
    ⟨tr, s₀, h₀, h⟩
  have ha := reachable_account (laws N ω k) hr fun _ _ hok => hok.behaving
  have ho := path_outcomes (P := laws N ω k) (fun _ _ hok => hok.behaving) h₀ h
    fun hb => ((poolLaws N ω k).init hb).2.1
  obtain ⟨hall, hidle⟩ := settled_of_exited hr hexit
  have hrec := reachable_recorded hr
  obtain ⟨htold, hcompleted, hpanicked⟩ :=
    ho.exact ha hall hidle ((poolLaws N ω k).started_lt ha.base)
  refine ⟨htold, fun x hx => ?_, ?_, hcompleted, hpanicked⟩
  · have hjob : x.1 < (poolLaws N ω k).next s.base :=
      (poolLaws N ω k).started_lt ha.base _ (ho.started _ (List.mem_map_of_mem hx))
    obtain ⟨task, hmem, hlog⟩ := ho.all_told hall hidle hjob
    have hx' : (x.1, task) = x := List.inj_on_of_nodup_map ho.nodup hmem hx rfl
    rw [State.delivered, hlog, settling_delivered, ← hx']
  · have hperm : s.recorded.Perm (List.range ((poolLaws N ω k).next s.base)) := by
      rw [List.perm_ext_iff_of_nodup hrec.nodup List.nodup_range]
      refine fun job => ⟨fun hmem => List.mem_range.mpr (hrec.lt job hmem), fun hmem => ?_⟩
      exact ha.recorded job
        ((laws N ω k).started_entered ha.base job (hall job (List.mem_range.mp hmem)))
    rw [ha.submitted, hperm.length_eq, List.length_range]

end Results

/-- `Monitor.Clean`, for the states of `GlobalQueueScheduler` as those of a backend. -/
abbrev decideClean {ω : Type} [Fintype ω] (b : Monitor.State N 1 (List ℕ) ω)
    (l : Monitor.Label N ω) : Decidable (Monitor.Clean b l) :=
  inferInstance

instance [NeZero N] {ω : Type} [Fintype ω] [DecidableEq ω]
    (s : State (backend N ω .globalQueue) E V ρ) (l : Label (backend N ω .globalQueue) E V ρ) :
    Decidable (Orderly (poolLaws N ω .globalQueue) s l) :=
  match l with
  | .base l => decideClean s.base l
  | .ended _ task => inferInstanceAs (Decidable (Behaves task))
  | .record _ | .stolen _ | .closure _ | .join _ | .load _ => isTrue trivial

/-- Two workers, and a thread that submits jobs to them. -/
abbrev TwoWorkers : Backend 2 := @backend 2 ⟨Nat.succ_ne_zero 1⟩ Unit _ .globalQueue

/-- The scheduler at first. -/
def initialTwo : State TwoWorkers String ℕ Unit :=
  initial ((Monitor.construct (Monitor.globalQueue 2) Unit).get (by decide))

theorem initialTwo_init :
    (machine TwoWorkers (some : String → Option String) ℕ Unit).init initialTwo :=
  ⟨_, (Option.some_get _).symm, rfl⟩

/-- The first job spawns the second one and returns `5`. The second one throws. Both handles are
joined. -/
def spawnInside : List (Label TwoWorkers String ℕ Unit) :=
  let one : Fin 2 := ⟨0, Nat.two_pos⟩
  let other : Fin 2 := ⟨1, Nat.one_lt_two⟩
  let call : Monitor.Label 2 Unit := .client () ⟨.normal, none⟩
  let next : Monitor.Label 2 Unit := .clientStep () none
  let inside : Monitor.Label 2 Unit := .nested one ⟨.normal, none⟩
  let work (w : Fin 2) : Monitor.Label 2 Unit := .worker w none
  List.flatten [[.base call, .record next], List.replicate 5 (.base next),
    List.replicate 3 (.base (work one)), [.base inside, .record (work one)],
    List.replicate 5 (.base (work one)), List.replicate 3 (.base (work other)),
    [.ended one (.value (.ok 5) fun _ => none), .ended other (.void (.error "boom"))],
    List.replicate 2 (.closure one), List.replicate 3 (.closure other), [.join 1, .join 0]]

theorem joins_own_outcome_two : ∃ s : State TwoWorkers String ℕ Unit,
    s.joined = [(1, .err ⟨"boom", "boom"⟩), (0, .ok (some 5))] ∧ (s.joined.map Prod.fst).Nodup ∧
      ∀ x ∈ s.joined, ∃ task,
        (x.1, task) ∈ (machine TwoWorkers some ℕ Unit).observe ended initialTwo spawnInside ∧
          x.2 = task.outcome some := by
  let M := machine TwoWorkers (some : String → Option String) ℕ Unit
  let s := (M.execUnder Behaving initialTwo spawnInside).get (by decide +kernel)
  have hpath : M.Path Behaving initialTwo spawnInside s :=
    Machine.execUnder_path (Option.some_get _).symm
  have hjoined : s.joined = [(1, .err ⟨"boom", "boom"⟩), (0, .ok (some 5))] := by decide +kernel
  obtain ⟨-, honce, hown⟩ := joins_own_outcome initialTwo_init hpath
  exact ⟨s, hjoined, honce, hown⟩

/-- The jobs return, `shutdown` is called and returns. -/
def shutdownTwo : List (Label TwoWorkers String ℕ Unit) :=
  let one : Fin 2 := ⟨0, Nat.two_pos⟩
  let other : Fin 2 := ⟨1, Nat.one_lt_two⟩
  let returns (w : Fin 2) : Monitor.Label 2 Unit := .finish w
  let work (w : Fin 2) : Monitor.Label 2 Unit := .worker w none
  let stop : Monitor.Label 2 Unit := .shutdown
  let next : Monitor.Label 2 Unit := .control
  List.flatten [[.base (returns one), .base (returns other), .base stop, .base next, .base next],
    List.replicate 4 (.base (work one)), List.replicate 4 (.base (work other)),
    [.base next, .base next]]

theorem settled_metrics_two : ∃ s : State TwoWorkers String ℕ Unit,
    s.base.control = .returned ∧ s.metrics.tasksSubmitted = 2 ∧ s.metrics.tasksCompleted = 2 ∧
      s.metrics.tasksPanicked = 1 := by
  let M := machine TwoWorkers (some : String → Option String) ℕ Unit
  let Q := @poolLaws 2 ⟨Nat.succ_ne_zero 1⟩ Unit _ _ .globalQueue
  let s := (M.execUnder (Orderly Q) initialTwo (spawnInside ++ shutdownTwo)).get (by decide +kernel)
  have hpath : M.Path (Orderly Q) initialTwo (spawnInside ++ shutdownTwo) s :=
    Machine.execUnder_path (Option.some_get _).symm
  have hret : s.base.control = .returned := by decide +kernel
  have hexit : Q.exited s.base := by
    show ∀ w, s.base.worker w = .exited
    decide +kernel
  have htwo : Q.next s.base = 2 := by decide +kernel
  -- one of the two tasks threw
  have hthrew : (M.observe ended initialTwo (spawnInside ++ shutdownTwo)).countP
      (fun x => !(x.2.outcome some).isOk) = 1 := by decide +kernel
  obtain ⟨-, -, hsub, hcomp, hpanicked⟩ := settled_metrics initialTwo_init hpath hexit
  exact ⟨s, hret, hsub.trans htwo, hcomp.trans htwo, hpanicked.trans hthrew⟩

end Wss.Spawn
