import Wss.WorkStealing.Account

/-!
# Every job stays under the priority it was submitted with

The state of the scheduler does not say which priority a job has; the calls of `submit` in the trace
do (`priorities`). `Filed` says that the injectors, the deques and the calls in progress agree with
them.

Results:
* `Move.filed`, `run_filed`: they do along every run, so the place where a worker finds a job says
  its priority.
-/

namespace Wss.WorkStealing

open Wss.Lib ChaseLev ChaseLev.Atomic

variable {N : ℕ} {ω : Type}

/-- The priority that `submit` is called with, where it is called. -/
def submitted : Label N ω → Option Priority
  | .client _ p | .nested _ p => some p
  | _ => none

/-- The priorities of the jobs, by their number. -/
def priorities (tr : List (Label N ω)) : List Priority := tr.filterMap submitted

theorem priorities_snoc (tr : List (Label N ω)) (l : Label N ω) :
    priorities (tr ++ [l]) = priorities tr ++ (submitted l).toList := by
  rw [priorities, List.filterMap_append]
  cases h : submitted l <;> simp [priorities, h]

/-- The weight of a job whose priority is not `p`. -/
def misfiled (ps : List Priority) (p : Priority) (job : ℕ) : ℕ := if ps[job]? = some p then 0 else 1

/-- The job of a call of `submit` has the priority of the call. -/
def CallFiled (ps : List Priority) : Option SubmitPc → Prop
  | some (.count job p) | some (.push job p) => ps[job]? = some p
  | none | some (.ring _) | some (.done _) => True

/-- Every job is where its priority says. -/
structure Filed (ps : List Priority) (s : State N ω) : Prop where
  next : ps.length = s.next
  client : ∀ c, CallFiled ps (s.client c)
  worker : ∀ w, CallFiled ps (s.worker w).call
  injector : ∀ p, mass (misfiled ps p) (s.injector p) = 0
  deque : ∀ v p, dequeMass (misfiled ps p) (s.adeque v p) = 0

variable {s s' : State N ω} {ps : List Priority} {w v : Fin N} {p : Priority} {job : ℕ}

theorem misfiled_eq_zero : misfiled ps p job = 0 ↔ ps[job]? = some p := by
  unfold misfiled
  split_ifs with h <;> simp [h]

theorem getElem?_append_some {l l' : List Priority} {i : ℕ} (h : l[i]? = some p) :
    (l ++ l')[i]? = some p := by
  rw [List.getElem?_append_left (List.getElem?_eq_some_iff.mp h).1, h]

theorem misfiled_append (l : List Priority) (job : ℕ) :
    misfiled (ps ++ l) p job ≤ misfiled ps p job := by
  by_cases h : ps[job]? = some p
  · exact (misfiled_eq_zero.mpr (getElem?_append_some h)).trans_le (Nat.zero_le _)
  · unfold misfiled
    rw [if_neg h]
    split_ifs <;> omega

theorem CallFiled.append {call : Option SubmitPc} (h : CallFiled ps call) (l : List Priority) :
    CallFiled (ps ++ l) call := by
  unfold CallFiled at h ⊢
  split
  · exact getElem?_append_some h
  · exact getElem?_append_some h
  all_goals trivial

/-- Another `submit` is called. -/
theorem Filed.append (hf : Filed ps s) (p : Priority) :
    Filed (ps ++ [p]) { s with next := s.next + 1 } where
  next := by rw [List.length_append, hf.next]; rfl
  client c := (hf.client c).append [p]
  worker w := (hf.worker w).append [p]
  injector q := Nat.eq_zero_of_le_zero ((mass_le (misfiled_append [p])).trans_eq (hf.injector q))
  deque v q := Nat.eq_zero_of_le_zero
    ((dequeMass_mono (misfiled_append [p]) _).trans_eq (hf.deque v q))

/-- A step with the program counter of worker `w`, the queues aside. -/
theorem Filed.goto (hf : Filed ps s) {pc : WorkerPc N} (hn : s'.next = s.next)
    (hc : s'.client = s.client) (hw : s'.worker = Function.update s.worker w pc)
    (hcall : CallFiled ps pc.call) (hinj : ∀ p, mass (misfiled ps p) (s'.injector p) = 0)
    (hd : ∀ v p, dequeMass (misfiled ps p) (s'.adeque v p) = 0) : Filed ps s' where
  next := hf.next.trans hn.symm
  client c := hc ▸ hf.client c
  worker u := by
    by_cases hu : u = w
    · rwa [hu, hw, Function.update_self]
    · rw [hw, Function.update_of_ne hu]
      exact hf.worker u
  injector := hinj
  deque := hd

/-- A step with nothing but program counters. -/
theorem Filed.quiet (hf : Filed ps s) {pc : WorkerPc N} (hn : s'.next = s.next)
    (hc : s'.client = s.client) (hw : s'.worker = Function.update s.worker w pc)
    (hcall : CallFiled ps pc.call) (hinj : s'.injector = s.injector) (hd : s'.deque = s.deque) :
    Filed ps s' := by
  have ha : s'.adeque = s.adeque := by
    funext v p
    simp only [State.adeque, hd]
  exact hf.goto hn hc hw hcall (hinj ▸ hf.injector) (ha ▸ hf.deque)

theorem Filed.congr (hf : Filed ps s) (hn : s'.next = s.next) (hc : s'.client = s.client)
    (hw : s'.worker = s.worker) (hinj : s'.injector = s.injector) (hd : s'.deque = s.deque) :
    Filed ps s' := by
  have ha : s'.adeque = s.adeque := by
    funext v p
    simp only [State.adeque, hd]
  exact ⟨hf.next.trans hn.symm, hc ▸ hf.client, hw ▸ hf.worker, hinj ▸ hf.injector, ha ▸ hf.deque⟩

/-- A step of worker `w` on one deque. -/
theorem Filed.setDeque (hf : Filed ps s) {d : ChaseLev.State (Fin N) ℕ} {pc : WorkerPc N}
    (hn : s'.next = s.next) (hc : s'.client = s.client)
    (hw : s'.worker = Function.update s.worker w pc) (hcall : CallFiled ps pc.call)
    (hinj : s'.injector = s.injector) (hd : s'.deque = (s.setDeque w v p d).deque)
    (hmass : dequeMass (misfiled ps p) (toAtomic d) ≤ dequeMass (misfiled ps p) (s.adeque v p)) :
    Filed ps s' := by
  refine hf.goto hn hc hw hcall (hinj ▸ hf.injector) fun u q => ?_
  have ha : s'.adeque u q = (s.setDeque w v p d).adeque u q := by simp only [State.adeque, hd]
  rw [ha]
  by_cases h : u = v ∧ q = p
  · obtain ⟨rfl, rfl⟩ := h
    rw [adeque_setDeque]
    exact Nat.eq_zero_of_le_zero (hmass.trans_eq (hf.deque u q))
  · rw [adeque_setDeque_of_ne s w d h]
    exact hf.deque u q

/-- A step of `submit`. -/
theorem stepSubmit_filed (hf : Filed ps s) {call : SubmitPc} (hcall : CallFiled ps (some call)) :
    Filed ps (stepSubmit s call).1 ∧ CallFiled ps (stepSubmit s call).2 := by
  cases call with
  | count => exact ⟨hf.congr rfl rfl rfl rfl rfl, hcall⟩
  | ring | done => exact ⟨hf.congr rfl rfl rfl rfl rfl, trivial⟩
  | push job p =>
    refine ⟨⟨hf.next, hf.client, hf.worker, fun q => ?_, hf.deque⟩, trivial⟩
    have hjob : misfiled ps p job = 0 := misfiled_eq_zero.mpr hcall
    by_cases hq : q = p
    · subst hq
      simp only [stepSubmit, State.setInjector, Function.update_self, mass_append, mass_cons,
        mass_nil, hjob, hf.injector q]
    · simp only [stepSubmit, State.setInjector, Function.update_of_ne hq]
      exact hf.injector q

/-! ### Jobs that are found -/

theorem Filed.popped (hf : Filed ps s) {d : ChaseLev.State (Fin N) ℕ}
    (hst : Step (s.adeque v p) (.popped (some job)) (toAtomic d)) : ps[job]? = some p := by
  have hmass := dequeMass_popped (μ := misfiled ps p) hst
  rw [hf.deque v p] at hmass
  exact misfiled_eq_zero.mp (Nat.add_eq_zero_iff.mp hmass.symm).2

theorem Filed.stolen (hf : Filed ps s) {d : ChaseLev.State (Fin N) ℕ}
    (hst : Step (s.adeque v p) (.stolen w (some job)) (toAtomic d)) : ps[job]? = some p := by
  have hmass := dequeMass_stolen (μ := misfiled ps p) hst
  rw [hf.deque v p] at hmass
  exact misfiled_eq_zero.mp (Nat.add_eq_zero_iff.mp hmass.symm).2

theorem Filed.head (hf : Filed ps s) {queue : List ℕ} (hq : s.injector p = job :: queue) :
    ps[job]? = some p := by
  have hmass := hf.injector p
  rw [hq, mass_cons] at hmass
  exact misfiled_eq_zero.mp (Nat.add_eq_zero_iff.mp hmass).1

section Moves

variable [DecidableEq ω] {l : Label N ω}

/-- **Every step keeps the jobs under their priorities.** -/
theorem Move.filed (hf : Filed ps s) (h : Move s l s') : Filed (ps ++ (submitted l).toList) s' := by
  have hsame : submitted l = none → ps ++ (submitted l).toList = ps := fun h => by
    rw [h, Option.toList_none, List.append_nil]
  cases h with
  | @client c p hc =>
    have hf' := hf.append p
    refine ⟨hf'.next, fun d => ?_, hf'.worker, hf'.injector, hf'.deque⟩
    by_cases hd : d = c
    · subst hd
      simp only [Function.update_self, CallFiled, submitted, Option.toList_some, ← hf.next,
        List.getElem?_concat_length]
    · simp only [Function.update_of_ne hd]
      exact hf'.client d
  | @nested w p job hw =>
    refine (hf.append p).goto rfl rfl rfl ?_ (hf.append p).injector (hf.append p).deque
    simp only [WorkerPc.call, CallFiled, ← hf.next, List.getElem?_concat_length]
  | @clientStep c call hc =>
    have hcall := hf.client c
    rw [hc] at hcall
    obtain ⟨hf', hcall'⟩ := stepSubmit_filed hf hcall
    rw [hsame rfl]
    refine ⟨hf'.next, fun d => ?_, hf'.worker, hf'.injector, hf'.deque⟩
    by_cases hd : d = c
    · subst hd
      simpa only [Function.update_self] using hcall'
    · simp only [Function.update_of_ne hd]
      exact hf.client d
  | @nestedStep w job call hw =>
    have hcall := hf.worker w
    rw [hw] at hcall
    obtain ⟨hf', hcall'⟩ := stepSubmit_filed hf hcall
    rw [hsame rfl]
    exact hf'.goto rfl rfl rfl hcall' hf'.injector hf'.deque
  | shutdown | store | controlRing | join =>
    rw [hsame rfl]
    exact hf.congr rfl rfl rfl rfl rfl
  | finish | current | ownDone | injectDone | injectNone | stealDone | uncount | ring | flag
  | noFlag
  | noPending | pending | wake =>
    rw [hsame rfl]
    exact hf.quiet rfl rfl rfl trivial rfl rfl
  | @pop w gen p qs d hw hi hst =>
    rw [hsame rfl]
    exact hf.setDeque rfl rfl (Function.update_eq_self w s.worker).symm (by rw [hw]; trivial)
      rfl rfl
      (dequeMass_owner hst).le
  | popNone hw hi hst | popJob hw hi hst =>
    rw [hsame rfl]
    exact hf.setDeque rfl rfl rfl trivial rfl rfl (Nat.le.intro (dequeMass_popped hst).symm)
  | @steal w gen p v ts d hw hi hst =>
    rw [hsame rfl]
    exact hf.setDeque rfl rfl (Function.update_eq_self w s.worker).symm (by rw [hw]; trivial)
      rfl rfl
      (dequeMass_thief hst).le
  | stealNone hw hi hst | stealJob hw hi hst =>
    rw [hsame rfl]
    exact hf.setDeque rfl rfl rfl trivial rfl rfl (Nat.le.intro (dequeMass_stolen hst).symm)
  | @injectJob w gen p qs d job moved queue hw hi hq hlen ha =>
    rw [hsame rfl]
    have hinj := hf.injector p
    rw [hq, mass_cons, mass_append] at hinj
    have hf₁ : Filed ps (s.setInjector p queue) := by
      refine ⟨hf.next, hf.client, hf.worker, fun q => ?_, hf.deque⟩
      by_cases hqp : q = p
      · subst hqp
        simp only [State.setInjector, Function.update_self]
        omega
      · simp only [State.setInjector, Function.update_of_ne hqp]
        exact hf.injector q
    refine hf₁.setDeque (w := w) (v := w) (p := p) (d := d) rfl rfl rfl trivial rfl rfl ?_
    have hmass : dequeMass (misfiled ps p) (toAtomic d) =
        dequeMass (misfiled ps p) (s.adeque w p) + mass (misfiled ps p) moved := by
      rw [ha]
      simp only [dequeMass, mass_append]
      omega
    have hs : (s.setInjector p queue).adeque w p = s.adeque w p := rfl
    rw [hmass, hs]
    omega

omit [DecidableEq ω] in
theorem construct_filed (h : construct N ω = some s) : Filed [] s := by
  unfold construct at h
  split at h
  · exact absurd h (by simp)
  · obtain ⟨d, hd, rfl⟩ := Option.map_eq_some_iff.mp h
    have hempty : ∀ μ, dequeMass μ (toAtomic d) = 0 := fun μ => by
      rw [construct_toAtomic hd]
      simp [dequeMass, ownerMass, thiefMass]
    exact ⟨rfl, fun _ => trivial, fun _ => trivial, fun _ => rfl, fun _ _ => hempty _⟩

/-- **Along every run the jobs are where their priorities say.** -/
theorem run_filed {tr : List (Label N ω)} (h : (machine N ω).Run Machine.Free tr s) :
    Filed (priorities tr) s := by
  refine h.invariant (I := fun tr s => Filed (priorities tr) s) (fun _ => construct_filed)
    fun tr s l s' hr _ hst hf => ?_
  rw [priorities_snoc]
  exact (step_move (reachable_linked ⟨tr, hr⟩) hst).filed hf

end Moves

end Wss.WorkStealing
