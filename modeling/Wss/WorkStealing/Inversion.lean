import Wss.WorkStealing.Own
import Wss.WorkStealing.Filed

/-!
# Priority inversion in `WorkStealingScheduler` is bounded

While a job waits in the injector of priority `p`, a worker may still start jobs of lower priority:
those left in its own deques, those of a batch if its search has passed the injector already, or one
that it steals. `risk` counts how many these can be at each position of `run_worker`.

Results:
* `Move.uses_risk`: each such start uses up some of it.
* `risk_le`: it is never more than a batch.
* `bounded_inversion`: so a worker starts at most `kInjectorBatchSize` of them.
-/

namespace Wss.WorkStealing

open Wss.Lib ChaseLev ChaseLev.Atomic

variable {N : ℕ} {ω : Type}

/-- The jobs that worker `w` starts in a step from `s` to `s'`. -/
def stepStarted (w : Fin N) (s : State N ω) (l : Label N ω) (s' : State N ω) : List ℕ :=
  match l with
  | .worker u => if u = w then s'.started.drop s.started.length else []
  | _ => []

/-- The jobs that worker `w` starts along `tr`. -/
def startedBy [DecidableEq ω] (w : Fin N) (s : State N ω) : List (Label N ω) → List ℕ
  | [] => []
  | l :: tr =>
    match step s l with
    | none => []
    | some s' => stepStarted w s l s' ++ startedBy w s' tr

/-- The job has lower priority than `p`. -/
def isLower (ps : List Priority) (p : Priority) (job : ℕ) : Bool :=
  (ps[job]?).any fun q => decide (p.index < q.index)

/-- The jobs of lower priority in the own deques of worker `w`. -/
def lowerStock (p : Priority) (s : State N ω) (w : Fin N) : ℕ :=
  ∑ q, if p.index < q.index then stock (s.adeque w q) else 0

/-- The jobs of lower priority that worker `w` may start before it takes from injector `p`. -/
def risk (p : Priority) (s : State N ω) (w : Fin N) : WorkerPc N → ℕ
  | .inject _ ps => if p ∈ ps then 0 else kInjectorBatchSize
  | .steal _ _ => 1
  | .loadFlag _ | .loadPending _ | .wait _ | .exited => 0
  | .current | .own _ _ | .body _ _ | .uncount _ | .ring => lowerStock p s w

variable {s s' : State N ω} {ps : List Priority} {w u v : Fin N} {p q : Priority} {job : ℕ}
  {pc : WorkerPc N}

theorem risk_of_mem {gen : ℕ} {qs : List Priority} (h : p ∈ qs) :
    risk p s w (.inject gen qs) = 0 :=
  if_pos h

theorem risk_of_not_mem {gen : ℕ} {qs : List Priority} (h : p ∉ qs) :
    risk p s w (.inject gen qs) = kInjectorBatchSize :=
  if_neg h

theorem isLower_eq {PS : List Priority} (hps : ps <+: PS) (h : ps[job]? = some q) :
    isLower PS p job = decide (p.index < q.index) := by
  obtain ⟨rest, rfl⟩ := hps
  rw [isLower, getElem?_append_some h, Option.any_some]

/-! ### The own deques -/

theorem lowerStock_mono (h : ∀ q, stock (s'.adeque w q) ≤ stock (s.adeque w q)) :
    lowerStock p s' w ≤ lowerStock p s w := by
  refine Finset.sum_le_sum fun q _ => ?_
  split_ifs
  · exact h q
  · exact le_rfl

theorem lowerStock_zero (h : ∀ q, p.index < q.index → stock (s.adeque w q) = 0) :
    lowerStock p s w = 0 := by
  refine Finset.sum_eq_zero fun q _ => ?_
  split_ifs with hq
  · exact h q hq
  · rfl

theorem lowerStock_le (ho : Own s) (w : Fin N) : lowerStock p s w ≤ kInjectorBatchSize - 1 := by
  refine (Finset.sum_le_sum fun q _ => ?_).trans (ho.batch w)
  split_ifs
  · exact le_rfl
  · exact Nat.zero_le _

/-- A job of a lower priority is taken. -/
theorem lowerStock_lt (h : ∀ q, stock (s'.adeque w q) ≤ stock (s.adeque w q))
    (hq : p.index < q.index) (hlt : stock (s'.adeque w q) < stock (s.adeque w q)) :
    lowerStock p s' w < lowerStock p s w := by
  refine Finset.sum_lt_sum (fun q' _ => ?_) ⟨q, Finset.mem_univ q, by rwa [if_pos hq, if_pos hq]⟩
  split_ifs
  · exact h q'
  · exact le_rfl

/-- A worker that has found its deques empty has no job there, and none in its hands. -/
theorem Own.stock_zero (ho : Own s) (hl : Linked s) (hpc : ∀ gen ps, s.worker w ≠ .own gen ps)
    (he : Emptied s w (s.worker w) → ∀ q, (s.adeque w q).items = []) (q : Priority) :
    stock (s.adeque w q) = 0 := by
  have hidle : (s.adeque w q).owner = .idle := by
    rcases hl.owner w q with h | ⟨-, gen, ps, h⟩
    · exact h
    · exact absurd h (hpc gen _)
  rw [stock, he (ho.emptied w) q, hidle]
  rfl

/-- No worker risks more than a batch. -/
theorem risk_le (ho : Own s) (w : Fin N) (pc : WorkerPc N) :
    risk p s w pc ≤ kInjectorBatchSize := by
  have hstock := lowerStock_le (p := p) ho w
  have hone : 1 ≤ kInjectorBatchSize := by decide
  unfold risk
  split
  · split_ifs
    · exact Nat.zero_le _
    · exact le_rfl
  · exact hone
  all_goals omega

/-! ### One step -/

/-- The injectors a worker has still to look at are the last ones in the order. -/
def InOrder (s : State N ω) : Prop :=
  ∀ w gen ps, s.worker w = .inject gen ps → ps <:+ kPriorityOrder

/-- The next injector is one of no lower priority. -/
theorem index_le_of_suffix (h : q :: ps <:+ kPriorityOrder) (hp : p ∈ q :: ps) :
    q.index ≤ p.index := by
  have hsorted : kPriorityOrder.Pairwise fun a b => a.index ≤ b.index := by decide
  have hps := hsorted.sublist h.sublist
  rcases List.mem_cons.mp hp with rfl | hp
  · exact le_rfl
  · exact (List.pairwise_cons.mp hps).1 p hp

theorem InOrder.step (ho : InOrder s) (hw : s'.worker = Function.update s.worker u pc)
    (hpc : ∀ gen ps, pc = .inject gen ps → ps <:+ kPriorityOrder) : InOrder s' := by
  intro w gen ps h
  rw [hw] at h
  by_cases hwu : w = u
  · rw [hwu, Function.update_self] at h
    exact hpc gen ps h
  · rw [Function.update_of_ne hwu] at h
    exact ho w gen ps h

variable {l : Label N ω}

/-- A step of worker `u`, seen from worker `w`. -/
theorem risk_step {PS : List Priority} (new : List ℕ)
    (hw : s'.worker = Function.update s.worker u pc)
    (hother : u ≠ w → ∀ q, stock (s'.adeque w q) ≤ stock (s.adeque w q))
    (hst : s'.started = s.started ++ new) (hnew : l = .worker u ∨ new = [])
    (hself : u = w →
      risk p s' w pc + new.countP (isLower PS p) ≤ risk p s w (s.worker w)) :
    risk p s' w (s'.worker w) + (stepStarted w s l s').countP (isLower PS p) ≤
      risk p s w (s.worker w) := by
  have hstarted : u = w ∧ stepStarted w s l s' = new ∨ stepStarted w s l s' = [] := by
    rcases hnew with rfl | rfl
    · by_cases hu : u = w
      · exact .inl ⟨hu, by simp [stepStarted, hu, hst]⟩
      · exact .inr (by simp [stepStarted, hu])
    · refine .inr ?_
      unfold stepStarted
      split
      · simp [hst]
      · rfl
  by_cases hu : u = w
  · have hpc : s'.worker w = pc := by rw [hw, hu, Function.update_self]
    have hle := hself hu
    rw [hpc]
    rcases hstarted with ⟨-, h⟩ | h
    · rwa [h]
    · rw [h, List.countP_nil]
      omega
  · have hpc : s'.worker w = s.worker w := by rw [hw, Function.update_of_ne (Ne.symm hu)]
    have hnil := hstarted.resolve_left fun h => hu h.1
    have hmono := lowerStock_mono (p := p) (hother hu)
    rw [hpc, hnil, List.countP_nil]
    unfold risk
    split <;> omega

theorem risk_mono (h : ∀ q, stock (s'.adeque w q) ≤ stock (s.adeque w q)) (pc : WorkerPc N) :
    risk p s' w pc ≤ risk p s w pc := by
  have hmono := lowerStock_mono (p := p) h
  unfold risk
  split <;> omega

/-- A step of worker `u` that starts nothing. -/
theorem risk_quiet {PS : List Priority} (hw : s'.worker = Function.update s.worker u pc)
    (hstock : ∀ q, stock (s'.adeque w q) ≤ stock (s.adeque w q)) (hst : s'.started = s.started)
    (hself : u = w → risk p s w pc ≤ risk p s w (s.worker w)) :
    risk p s' w (s'.worker w) + (stepStarted w s l s').countP (isLower PS p) ≤
      risk p s w (s.worker w) := by
  refine risk_step [] hw (fun _ => hstock) (by rw [hst, List.append_nil]) (.inr rfl)
    fun hu => ?_
  rw [List.countP_nil, Nat.add_zero]
  exact (risk_mono hstock pc).trans (hself hu)

/-- A step outside the pool. -/
theorem risk_outside {PS : List Priority} (hw : s'.worker = s.worker) (hd : s'.deque = s.deque)
    (hst : s'.started = s.started) :
    risk p s' w (s'.worker w) + (stepStarted w s l s').countP (isLower PS p) ≤
      risk p s w (s.worker w) := by
  have hw' : s'.worker = Function.update s.worker w (s.worker w) := by
    rw [hw, Function.update_eq_self]
  exact risk_quiet hw' (Kept.of_eq hd).stock hst fun _ => le_rfl

section Moves

variable [DecidableEq ω]

theorem Move.inOrder (ho : InOrder s) (h : Move s l s') : InOrder s' := by
  cases h with
  | client | shutdown | store | controlRing | join | pop | steal => exact ho
  | @clientStep c call hc =>
    unfold InOrder
    simp only [(stepSubmit_frame s call).2.2]
    exact ho
  | @nestedStep w job call hw =>
    exact ho.step (congrArg (Function.update · w _) (stepSubmit_frame s call).2.2) (by simp)
  | ownDone =>
    refine ho.step rfl fun gen ps h => ?_
    rw [← (WorkerPc.inject.inj h).2]
  | @injectNone w gen p ps hw =>
    refine ho.step rfl fun gen' ps' h => ?_
    rw [← (WorkerPc.inject.inj h).2]
    exact (List.suffix_cons p ps).trans (ho w gen _ hw)
  | nested | finish | current | injectDone | stealDone | uncount | ring | flag | noFlag | noPending
  | pending | wake | popNone | popJob | injectJob | stealNone | stealJob =>
    exact ho.step rfl (by simp)

/-- **A start of a job of lower priority uses up some of the risk**, while a job waits in injector
`p`. -/
theorem Move.uses_risk {x : ℕ} {PS : List Priority} (hl : Linked s) (ho : Own s) (ho' : Own s')
    (hord : InOrder s) (hf : Filed ps s) (hps : ps <+: PS) (hx : x ∈ s.injector p)
    (h : Move s l s') :
    risk p s' w (s'.worker w) +
      (stepStarted w s l s').countP (isLower PS p) ≤
        risk p s w (s.worker w) := by
  have hkept : ∀ {t : State N ω}, t.deque = s.deque →
      ∀ q, stock (t.adeque w q) ≤ stock (s.adeque w q) := fun hd => (Kept.of_eq hd).stock
  cases h with
  | client | shutdown | store | controlRing | join => exact risk_outside rfl rfl rfl
  | @clientStep c call hc =>
    obtain ⟨h1, -, h3⟩ := stepSubmit_frame s call
    exact risk_outside h3 h1 (by cases call <;> rfl)
  | @nestedStep u job call hu =>
    obtain ⟨h1, -, h3⟩ := stepSubmit_frame s call
    refine risk_quiet (congrArg (Function.update · u _) h3) (hkept h1) (by cases call <;> rfl) ?_
    rintro rfl
    rw [hu]
    exact le_rfl
  | nested hu | finish hu | current hu | uncount hu | ring hu | flag hu | noFlag hu | noPending hu
  | pending hu =>
    refine risk_quiet rfl (hkept rfl) rfl ?_
    rintro rfl
    rw [hu]
    exact le_rfl
  | ownDone hu =>
    refine risk_quiet rfl (hkept rfl) rfl ?_
    rintro rfl
    exact (risk_of_mem (mem_kPriorityOrder p)).trans_le (Nat.zero_le _)
  | stealDone hu =>
    refine risk_quiet rfl (hkept rfl) rfl ?_
    rintro rfl
    exact Nat.zero_le _
  | injectDone hu =>
    refine risk_quiet rfl (hkept rfl) rfl ?_
    rintro rfl
    rw [hu, risk_of_not_mem List.not_mem_nil]
    exact (by decide : 1 ≤ kInjectorBatchSize)
  | @injectNone u gen q qs hu hq =>
    refine risk_quiet rfl (hkept rfl) rfl ?_
    rintro rfl
    -- the empty injector is not the one with the job
    have hne : p ≠ q := by
      rintro rfl
      rw [hq] at hx
      exact List.not_mem_nil hx
    rw [hu]
    unfold risk
    simp only [List.mem_cons, hne, false_or]
    exact le_rfl
  | wake hu =>
    refine risk_quiet rfl (hkept rfl) rfl ?_
    rintro rfl
    refine (lowerStock_zero fun q _ => ho.stock_zero hl (by simp [hu]) (fun he => ?_) q).trans_le
      (Nat.zero_le _)
    rw [hu] at he
    exact he
  | @pop u gen q qs d hu hi hst =>
    have hle := stock_setDeque_le (w := u) (stock_owner hst).le w
    exact risk_quiet (Function.update_eq_self u s.worker).symm hle rfl (by rintro rfl; exact le_rfl)
  | @popNone u gen q qs d hu hi hst =>
    have hle := stock_setDeque_le (w := u) (Nat.le.intro (stock_popped hst).symm) w
    exact risk_quiet rfl hle rfl (by rintro rfl; rw [hu]; exact le_rfl)
  | @steal u gen q v ts d hu hi hst =>
    have hle := stock_setDeque_le (w := u) (stock_thief hst) w
    exact risk_quiet (Function.update_eq_self u s.worker).symm hle rfl (by rintro rfl; exact le_rfl)
  | @stealNone u gen q v ts d hu hi hst =>
    have hle := stock_setDeque_le (w := u) (stock_stolen hst).le w
    exact risk_quiet rfl hle rfl (by rintro rfl; rw [hu]; exact le_rfl)
  | @popJob u gen q qs d job hu hi hst =>
    have hpopped : stock (toAtomic d) + 1 = stock (s.adeque u q) := (stock_popped hst).symm
    have hle : ∀ v r, stock ((s.setDeque u u q d).adeque v r) ≤ stock (s.adeque v r) :=
      stock_setDeque_le (by omega)
    refine risk_step [job] rfl (fun _ => hle w) rfl (.inl rfl) ?_
    rintro rfl
    rw [hu, List.countP_singleton, isLower_eq hps (hf.popped hst)]
    by_cases hlow : p.index < q.index
    · -- the start is one of those at risk
      have hlt : stock ((s.setDeque u u q d).adeque u q) < stock (s.adeque u q) := by
        rw [adeque_setDeque]
        omega
      rw [decide_eq_true hlow]
      exact lowerStock_lt (hle u) hlow hlt
    · rw [decide_eq_false hlow]
      exact lowerStock_mono (hle u)
  | @stealJob u gen q v ts d job hu hi hst =>
    have hle : ∀ v' r, stock ((s.setDeque u v q d).adeque v' r) ≤ stock (s.adeque v' r) :=
      stock_setDeque_le (stock_stolen hst).le
    refine risk_step [job] rfl (fun _ => hle w) rfl (.inl rfl) ?_
    rintro rfl
    have hzero : ∀ r, stock (s.adeque u r) = 0 := ho.stock_zero hl (by simp [hu]) fun he => by
      rw [hu] at he
      exact he
    have hnone : lowerStock p ((s.setDeque u v q d).start u job) u = 0 :=
      lowerStock_zero fun r _ => Nat.eq_zero_of_le_zero ((hle u r).trans_eq (hzero r))
    have hbody : risk p ((s.setDeque u v q d).start u job) u (.body job none) = 0 := hnone
    rw [hu, hbody, Nat.zero_add]
    exact List.countP_le_length
  | @injectJob u gen q qs d job moved queue hu hi hq hlen ha =>
    have hother : u ≠ w → ∀ r, stock (((s.setInjector q queue).setDeque u u q d).adeque w r) ≤
        stock (s.adeque w r) := fun hne r => by
      rw [adeque_setDeque_of_ne _ u d fun h => hne h.1.symm]
      exact le_rfl
    refine risk_step [job] rfl hother rfl (.inl rfl) ?_
    rintro rfl
    rw [hu]
    by_cases hpass : p ∈ q :: qs
    · -- injector `p` has not been passed, so this one has no lower priority
      have hindex := index_le_of_suffix (hord u gen _ hu) hpass
      have hzero : ∀ r, stock (s.adeque u r) = 0 := ho.stock_zero hl (by simp [hu]) fun he => by
        rw [hu] at he
        exact he
      have hnone : lowerStock p (((s.setInjector q queue).setDeque u u q d).start u job) u = 0 := by
        refine lowerStock_zero fun r hr => ?_
        have hne : ¬ (u = u ∧ r = q) := fun h => by
          rw [h.2] at hr
          omega
        exact (congrArg stock (adeque_setDeque_of_ne _ u d hne)).trans (hzero r)
      have hbody : risk p (((s.setInjector q queue).setDeque u u q d).start u job) u
          (.body job none) = 0 := hnone
      rw [hbody, risk_of_mem hpass, List.countP_singleton, isLower_eq hps (hf.head hq),
        decide_eq_false (by omega)]
      exact le_rfl
    · have hbatch : risk p (((s.setInjector q queue).setDeque u u q d).start u job) u
          (.body job none) ≤ kInjectorBatchSize - 1 := lowerStock_le ho' u
      have hcount := List.countP_le_length (p := isLower PS p) (l := [job])
      rw [List.length_singleton] at hcount
      have hpos : 1 ≤ kInjectorBatchSize := by decide
      rw [risk_of_not_mem hpass]
      omega

/-! ### While a job waits -/

theorem reachable_inOrder (h : (machine N ω).Reachable s) : InOrder s := by
  refine h.invariant (fun s hs => ?_) fun _ _ _ hr _ hst ho =>
    (step_move (reachable_linked hr.reachable) hst).inOrder ho
  simp only [machine, construct] at hs
  split at hs
  · exact absurd hs (by simp)
  · obtain ⟨d, -, rfl⟩ := Option.map_eq_some_iff.mp hs
    exact fun _ _ _ h => absurd h (by simp)

theorem startedBy_snoc {t t' : State N ω} : ∀ {tr : List (Label N ω)} {s : State N ω},
    (machine N ω).exec s tr = some t → step t l = some t' →
      startedBy w s (tr ++ [l]) = startedBy w s tr ++ stepStarted w t l t'
  | [], s, h, hst => by
    obtain rfl := Option.some.inj h
    simp [startedBy, hst]
  | l₁ :: tr, s, h, hst => by
    obtain ⟨s₁, h₁, h⟩ := Option.bind_eq_some_iff.mp h
    have h₁ : step s l₁ = some s₁ := h₁
    simp only [List.cons_append, startedBy, h₁, List.append_assoc, startedBy_snoc h hst]

/-- While a job waits in injector `p`, the starts of jobs of lower priority are paid by the risk. -/
theorem path_risk {x : ℕ} {PS : List Priority} {tr₁ tr₂ : List (Label N ω)} {s₁ s₂ : State N ω}
    (h : (machine N ω).Run Machine.Free tr₁ s₁)
    (hp : (machine N ω).Path (fun s _ => x ∈ s.injector p) s₁ tr₂ s₂)
    (hps : priorities (tr₁ ++ tr₂) <+: PS) (w : Fin N) :
    risk p s₂ w (s₂.worker w) + (startedBy w s₁ tr₂).countP (isLower PS p) ≤
      risk p s₁ w (s₁.worker w) := by
  induction hp with
  | nil => exact le_rfl
  | @snoc tr t t' l hp hx hst ih =>
    obtain ⟨s₀, h₀, hp₀⟩ := h
    have hrun : (machine N ω).Run Machine.Free (tr₁ ++ tr) t :=
      ⟨s₀, h₀, hp₀.trans (hp.mono fun _ _ _ => trivial)⟩
    have hpre : priorities (tr₁ ++ tr) <+: PS := by
      refine List.IsPrefix.trans ?_ hps
      rw [← List.append_assoc, priorities_snoc]
      exact List.prefix_append _ _
    have hreach : (machine N ω).Reachable t := ⟨_, hrun⟩
    have hl := reachable_linked hreach
    have hmove := (step_move hl hst).uses_risk (w := w) hl (reachable_own hreach)
      (reachable_own (hreach.next hst)) (reachable_inOrder hreach) (run_filed hrun) hpre hx
    have hcount := ih hpre
    rw [startedBy_snoc hp.exec hst, List.countP_append]
    omega

/-- **Priority inversion is bounded.** From any moment at which a job is in the injector of priority
`p` and as long as it stays there, each worker starts at most `kInjectorBatchSize` jobs that were
submitted with a lower priority. -/
theorem bounded_inversion {x : ℕ} {tr₁ tr₂ : List (Label N ω)} {s₁ s₂ : State N ω}
    (h : (machine N ω).Run Machine.Free tr₁ s₁)
    (hp : (machine N ω).Path (fun s _ => x ∈ s.injector p) s₁ tr₂ s₂) (w : Fin N) :
    (startedBy w s₁ tr₂).countP (isLower (priorities (tr₁ ++ tr₂)) p) ≤ kInjectorBatchSize := by
  have hpath := path_risk h hp List.prefix_rfl w
  have hle := risk_le (p := p) (reachable_own ⟨tr₁, h⟩) w (s₁.worker w)
  omega

end Moves

/-- The worker takes a batch of two background jobs and runs the first; then a job of high priority
is pushed. -/
def fillBackground : List (Label 1 Unit) :=
  let one : Fin 1 := ⟨0, Nat.one_pos⟩
  List.flatten [[.client () .background], List.replicate 4 (.clientStep ()),
    [.client () .background], List.replicate 4 (.clientStep ()),
    List.replicate (1 + (3 * 7 + 1) + 3) (.worker one),
    [.client () .high], List.replicate 2 (.clientStep ())]

/-- The worker goes on with the other one of its batch. -/
def startBackground : List (Label 1 Unit) :=
  let one : Fin 1 := ⟨0, Nat.one_pos⟩
  .finish one :: List.replicate 26 (.worker one)

theorem bounded_inversion_one : ∃ s₁ s₂ : State 1 Unit,
    (machine 1 Unit).Run Machine.Free fillBackground s₁ ∧
      (machine 1 Unit).Path (fun s _ => 2 ∈ s.injector .high) s₁ startBackground s₂ ∧
      startedBy 0 s₁ startBackground = [1] ∧
      (startedBy 0 s₁ startBackground).countP
        (isLower (priorities (fillBackground ++ startBackground)) .high) ≤ kInjectorBatchSize := by
  let M := machine 1 Unit
  let ok : State 1 Unit → Label 1 Unit → Prop := fun s _ => 2 ∈ s.injector .high
  let s₀ : State 1 Unit := (construct 1 Unit).get (by decide)
  let s₁ := (M.exec s₀ fillBackground).get (by decide +kernel)
  let s₂ := (M.execUnder ok s₁ startBackground).get (by decide +kernel)
  have h : M.Run Machine.Free fillBackground s₁ :=
    ⟨s₀, (Option.some_get _).symm, Machine.exec_path (Option.some_get _).symm⟩
  have hp : M.Path ok s₁ startBackground s₂ := Machine.execUnder_path (Option.some_get _).symm
  exact ⟨s₁, s₂, h, hp, by decide +kernel, bounded_inversion h hp 0⟩

end Wss.WorkStealing
