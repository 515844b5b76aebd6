import Wss.Monitor.Drain
import Wss.Monitor.Target

/-!
# What is under way for the jobs of a core

A job in the queues of a core has someone who will come for it or send for it, as long as a worker
of the core sleeps: a worker of the core on its way to the queues, or the call of `submit` that
pushed it and has not notified the core yet (`State.supplyAt`). A notification turns a call that
owes it into such a worker, and one that finds nobody asleep is not needed. A worker that goes to
sleep has found the queues empty and has had the mutex since then. So a step at the core keeps the
balance (`SuppliedAt`), and a step at another core changes nothing here.

Results, for every lawful `Layout`:
* `reachable_suppliedAt`: every core is supplied in every reachable state.
* `SuppliedAt.length_le`: where a worker of a core sleeps, it has no more jobs than workers on their
  way and notifications owed.
-/

namespace Wss.Monitor

open Wss.Lib

namespace WorkerPc

variable {K : ℕ}

/-- On the way to the queue. -/
def coming : WorkerPc K → Bool
  | .lock | .search => true
  | _ => false

/-- With the mutex, having found the queue empty and on the way to sleep. -/
def drowsy : WorkerPc K → Bool
  | .loadFlag | .wait => true
  | _ => false

end WorkerPc

variable {N K : ℕ} {Q ω : Type}

/-- The call has pushed its job to core `k` and has not notified it. -/
def SubmitPc.owesTo (k : Fin K) : SubmitPc K → Bool
  | .unlock _ j | .notify _ j => j = k
  | .ticket _ _ | .lock _ _ _ | .push _ _ _ | .done _ => false

/-- `1` for a call that owes core `k` a notification. -/
def owedTo (k : Fin K) (call : Option (SubmitPc K)) : ℕ :=
  if call.any (SubmitPc.owesTo k) then 1 else 0

/-- What a worker at core `own` does for the jobs at core `k`. -/
def WorkerPc.supplyTo (own k : Fin K) (pc : WorkerPc K) : ℕ :=
  (if own = k ∧ pc.coming = true then 1 else 0) + owedTo k pc.call

@[simp] theorem owedTo_none (k : Fin K) : owedTo k (none : Option (SubmitPc K)) = 0 := rfl

theorem owedTo_enter (L : Layout N K Q) (k : Fin K) (job : ℕ) (opts : SubmitOptions) :
    owedTo k (some (enter L job opts)) = 0 := by
  unfold enter
  split <;> rfl

/-- A worker at another core, or one that is not on its way. -/
theorem WorkerPc.supplyTo_of_not {own k : Fin K} {pc : WorkerPc K}
    (h : ¬ (own = k ∧ pc.coming = true)) : pc.supplyTo own k = owedTo k pc.call := by
  unfold supplyTo
  rw [if_neg h, Nat.zero_add]

/-- After a step of worker `w`, a worker that is elsewhere is another one. -/
theorem worker_other {s s' : State N K Q ω} {w : Fin N} {pc : WorkerPc K}
    (hw : s'.worker = Function.update s.worker w pc) {u : Fin N} (hne : s'.worker u ≠ pc) :
    u ≠ w ∧ s'.worker u = s.worker u := by
  rw [hw] at hne ⊢
  have huw : u ≠ w := by
    rintro rfl
    exact hne (Function.update_self _ _ _)
  exact ⟨huw, Function.update_of_ne huw _ _⟩

section Supply

variable [Fintype ω] (L : Layout N K Q)

/-- The workers on their way to the queues of core `k`, and the notifications owed to it. -/
def State.supplyAt (s : State N K Q ω) (k : Fin K) : ℕ :=
  ∑ w, (s.worker w).supplyTo (L.core w) k + ∑ c, owedTo k (s.client c)

/-- Whoever of core `k` goes to sleep has found its queues empty, and while someone of it sleeps its
jobs are provided for. -/
structure SuppliedAt (items : Q → List ℕ) (k : Fin K) (s : State N K Q ω) : Prop where
  empty : ∀ w, L.core w = k → (s.worker w).drowsy = true → items (s.queues k) = []
  supply : (∃ w, L.core w = k ∧ s.worker w = .waiting) →
    (items (s.queues k)).length ≤ s.supplyAt L k

variable {L} {items : Q → List ℕ} {k : Fin K} {s s' s₁ : State N K Q ω} {w : Fin N}
  {pc : WorkerPc K} {t : Thread N ω} {call : SubmitPc K} {call' : Option (SubmitPc K)}

theorem supplyAt_worker (hw : s'.worker = Function.update s.worker w pc)
    (hc : s'.client = s.client) : s'.supplyAt L k + (s.worker w).supplyTo (L.core w) k =
      s.supplyAt L k + pc.supplyTo (L.core w) k := by
  have hself : s'.worker w = pc := by rw [hw, Function.update_self]
  have hrest : ∀ u ∈ Finset.univ.erase w,
      (s'.worker u).supplyTo (L.core u) k = (s.worker u).supplyTo (L.core u) k := by
    intro u hu
    rw [hw, Function.update_of_ne (Finset.ne_of_mem_erase hu)]
  unfold State.supplyAt
  rw [← Finset.add_sum_erase _ _ (Finset.mem_univ w),
    ← Finset.add_sum_erase _ _ (Finset.mem_univ w), Finset.sum_congr rfl hrest, hc, hself]
  omega

theorem supplyAt_client [DecidableEq ω] {c : ω} {call : Option (SubmitPc K)}
    (hw : s'.worker = s.worker) (hc : s'.client = Function.update s.client c call) :
    s'.supplyAt L k + owedTo k (s.client c) = s.supplyAt L k + owedTo k call := by
  have h := sum_update (owedTo k) s.client c call
  rw [← hc] at h
  unfold State.supplyAt
  rw [hw]
  omega

/-! ## What keeps the balance -/

/-- A step that sends nobody of the core to sleep and provides for the jobs it pushes. -/
theorem SuppliedAt.goOn (hs : SuppliedAt L items k s)
    (hwait : ∀ w, L.core w = k → s'.worker w = .waiting → s.worker w = .waiting)
    (hempty : ∀ w, L.core w = k → (s'.worker w).drowsy = true → items (s'.queues k) = [])
    (hle : (items (s'.queues k)).length + s.supplyAt L k ≤
      (items (s.queues k)).length + s'.supplyAt L k) : SuppliedAt L items k s' where
  empty := hempty
  supply := fun ⟨w, hk, hw⟩ => by
    have := hs.supply ⟨w, hk, hwait w hk hw⟩
    omega

theorem SuppliedAt.of_empty (hq : items (s'.queues k) = []) : SuppliedAt L items k s' where
  empty := fun _ _ _ => hq
  supply := fun _ => by
    rw [hq]
    exact Nat.zero_le _

/-- Nobody of the core sleeps. -/
theorem SuppliedAt.allAwake (hwait : ∀ w, L.core w = k → s'.worker w ≠ .waiting)
    (hempty : ∀ w, L.core w = k → (s'.worker w).drowsy = true → items (s'.queues k) = []) :
    SuppliedAt L items k s' where
  empty := hempty
  supply := fun ⟨w, hk, hw⟩ => absurd hw (hwait w hk)

/-- A step of worker `w`, which does not go to sleep if it is one of the core. -/
theorem SuppliedAt.worker (hs : SuppliedAt L items k s)
    (hw : s'.worker = Function.update s.worker w pc) (hc : s'.client = s.client)
    (hq : items (s.queues k) = [] → items (s'.queues k) = [])
    (hwait : L.core w = k → pc ≠ .waiting) (hd : L.core w = k → pc.drowsy = false)
    (hle : (items (s'.queues k)).length + (s.worker w).supplyTo (L.core w) k ≤
      (items (s.queues k)).length + pc.supplyTo (L.core w) k) : SuppliedAt L items k s' := by
  have hsup := supplyAt_worker (L := L) (k := k) hw hc
  have hsame : ∀ u, u ≠ w → s'.worker u = s.worker u := fun u hu => by
    rw [hw, Function.update_of_ne hu]
  have hself : s'.worker w = pc := by rw [hw, Function.update_self]
  refine hs.goOn (fun u hk hu => ?_) (fun u hk hu => hq ?_) (by omega)
  · have hne : u ≠ w := by
      rintro rfl
      exact hwait hk (hself.symm.trans hu)
    exact (hsame u hne).symm.trans hu
  · have hne : u ≠ w := by
      rintro rfl
      rw [hself, hd hk] at hu
      exact Bool.false_ne_true hu
    exact hs.empty u hk (hsame u hne ▸ hu)

/-- A step of a worker of another core, but for the calls of `submit`. -/
theorem SuppliedAt.elsewhere (hs : SuppliedAt L items k s) (hk : L.core w ≠ k)
    (hw : s'.worker = Function.update s.worker w pc) (hc : s'.client = s.client)
    (hq : s'.queues k = s.queues k) (hcall : owedTo k pc.call = owedTo k (s.worker w).call) :
    SuppliedAt L items k s' := by
  refine hs.worker hw hc (by rw [hq]; exact id) (absurd · hk) (absurd · hk) ?_
  rw [hq, WorkerPc.supplyTo_of_not fun h => hk h.1, WorkerPc.supplyTo_of_not fun h => hk h.1, hcall]

omit [Fintype ω] in
/-- A worker on its way to sleep has the mutex of its core. -/
theorem holds_of_drowsy (hd : (s.worker w).drowsy = true) :
    s.holds L (.inl w) = some (L.core w) := by
  unfold State.holds
  dsimp only
  cases hpc : s.worker w with
  | loadFlag | wait => rfl
  | lock | search | waiting | unlock | leave | body | exited =>
    rw [hpc] at hd
    exact absurd hd Bool.false_ne_true

/-- A step of `submit` by thread `t`, which then goes on from `call` to `call'`. -/
theorem Submitting.suppliedAt (hL : L.Lawful items) (h : Submitting L s t call s₁ call')
    (ho : Owned s.holder (s.holds L)) (ht : s.holds L t = call.holds) (hs : SuppliedAt L items k s)
    (hq : s'.queues = s₁.queues) (hwait : ∀ w, s'.worker w = .waiting → s₁.worker w = .waiting)
    (hdrowsy : ∀ w, (s'.worker w).drowsy = true → (s₁.worker w).drowsy = true ∧ .inl w ≠ t)
    (hsup : s'.supplyAt L k + owedTo k (some call) = s₁.supplyAt L k + owedTo k call') :
    SuppliedAt L items k s' := by
  have hquiet : s₁.queues k = s.queues k →
      (∀ w, s₁.worker w = s.worker w ∨ s₁.worker w = .lock) →
      s.supplyAt L k + owedTo k (some call) ≤ s₁.supplyAt L k + owedTo k call' →
      SuppliedAt L items k s' := by
    intro hq₁ hw₁ hle
    have hsame : s'.queues k = s.queues k := (congrFun hq k).trans hq₁
    refine hs.goOn (fun w _ hw => ?_) (fun w hk hw => ?_) (by rw [hsame]; omega)
    · have hw := hwait w hw
      rcases hw₁ w with h | h
      · exact h ▸ hw
      · exact absurd (h.symm.trans hw) (by simp)
    · obtain ⟨hw, -⟩ := hdrowsy w hw
      rcases hw₁ w with h | h
      · rw [hsame]
        exact hs.empty w hk (h ▸ hw)
      · rw [h] at hw
        exact absurd hw Bool.false_ne_true
  cases h with
  | ticket | lock | unlock | done => exact hquiet rfl (fun _ => .inl rfl) le_rfl
  | @push job j p =>
    by_cases hj : j = k
    · subst hj
      refine hs.goOn (fun w _ hw => hwait w hw) (fun w hk hw => ?_) ?_
      · -- whoever is on the way to sleep has the mutex
        obtain ⟨hw, hne⟩ := hdrowsy w hw
        exact absurd (ho.exclusive (k := j) (hk ▸ holds_of_drowsy hw) ht) hne
      · have hpush : s'.queues j = L.push p job (s.queues j) :=
          (congrFun hq j).trans (Function.update_self _ _ _)
        have hlen := (hL.push p job (s.queues j)).length_eq
        rw [List.length_append, List.length_singleton] at hlen
        have h0 : owedTo j (some (SubmitPc.push job j p)) = 0 := rfl
        have h1 : owedTo j (some (SubmitPc.unlock job j)) = 1 := by
          simp [owedTo, SubmitPc.owesTo]
        have hsame : (s.setQueues j (L.push p job (s.queues j)) (.enqueue p job)).supplyAt L j =
            s.supplyAt L j := rfl
        rw [hpush]
        omega
    · have h1 : owedTo k (some (SubmitPc.unlock job j)) = 0 := by
        simp [owedTo, SubmitPc.owesTo, hj]
      refine hquiet (Function.update_of_ne (Ne.symm hj) _ _) (fun _ => .inl rfl) ?_
      rw [h1]
      exact le_rfl
  | @notifyNone job j hnone =>
    by_cases hj : j = k
    · refine SuppliedAt.allAwake (fun w hk hw => hnone w (hk.trans hj.symm) (hwait w hw))
        fun w hk hw => ?_
      rw [hq]
      exact hs.empty w hk (hdrowsy w hw).1
    · have h1 : owedTo k (some (SubmitPc.notify job j)) = 0 := by
        simp [owedTo, SubmitPc.owesTo, hj]
      exact hquiet rfl (fun _ => .inl rfl) (by rw [h1]; exact le_rfl)
  | @notify job j w hk hw =>
    have hsup₁ : (s.setWorker w .lock).supplyAt L k + (s.worker w).supplyTo (L.core w) k =
        s.supplyAt L k + (WorkerPc.lock : WorkerPc K).supplyTo (L.core w) k :=
          supplyAt_worker rfl rfl
    have hsleeps : (s.worker w).supplyTo (L.core w) k = 0 := by
      rw [hw]
      exact WorkerPc.supplyTo_of_not (by simp [WorkerPc.coming])
    refine hquiet rfl (fun u => ?_) ?_
    · by_cases hu : u = w
      · exact .inr (hu ▸ setWorker_self _ _ _)
      · exact .inl (setWorker_of_ne _ _ hu)
    · -- the worker makes up for the notification, if it is one of the core
      have hpaid : owedTo k (some (SubmitPc.notify job j)) =
          (WorkerPc.lock : WorkerPc K).supplyTo (L.core w) k := by
        simp [owedTo, SubmitPc.owesTo, WorkerPc.supplyTo, WorkerPc.coming, WorkerPc.call, hk]
      rw [hpaid]
      omega

variable [DecidableEq ω] {l : Label N ω}

/-- **Every step keeps the jobs of every core provided for.** -/
theorem Move.suppliedAt (hL : L.Lawful items) (ho : Owned s.holder (s.holds L))
    (hs : SuppliedAt L items k s) (h : Move L s l s') : SuppliedAt L items k s' := by
  cases h with
  | shutdown | store | join => exact ⟨hs.empty, hs.supply⟩
  | @client c opts hc =>
    have hsup : ({ s with
        client := Function.update s.client c (some (enter L s.submitted.length opts))
        submitted := s.submitted ++ [opts] } : State N K Q ω).supplyAt L k +
          owedTo k (s.client c) = s.supplyAt L k +
            owedTo k (some (enter L s.submitted.length opts)) :=
      supplyAt_client rfl rfl
    rw [hc, owedTo_enter] at hsup
    exact hs.goOn (fun _ _ hw => hw) hs.empty (Nat.add_le_add_left hsup.ge _)
  | @clientStep c _ call call' s₁ hc hsub =>
    obtain ⟨-, hcl, -⟩ := hsub.frame
    refine hsub.suppliedAt hL ho (by simp [State.holds, hc]) hs rfl (fun _ hw => hw)
      (fun _ hw => ⟨hw, by simp⟩) ?_
    rw [← hc, ← hcl]
    exact supplyAt_client rfl rfl
  | @nested w opts job hpc =>
    refine hs.worker rfl rfl id (by simp) (fun _ => rfl) (Nat.add_le_add_left (le_of_eq ?_) _)
    rw [hpc, WorkerPc.supplyTo_of_not (by simp [WorkerPc.coming]),
      WorkerPc.supplyTo_of_not (by simp [WorkerPc.coming])]
    exact (owedTo_enter L k _ opts).symm
  | @nestedStep w _ job call call' s₁ hpc hsub =>
    obtain ⟨hwk, -⟩ := hsub.frame
    have hself : s₁.worker w = .body job (some call) := by
      rcases hwk w with h | ⟨h, -⟩
      · exact h.trans hpc
      · exact absurd (h.symm.trans hpc) (by simp)
    have hw : (s₁.setWorker w (.body job call')).worker = Function.update s₁.worker w _ := rfl
    refine hsub.suppliedAt hL ho (by simp [State.holds, hpc, WorkerPc.holds]) hs rfl
      (fun u hu => ?_) (fun u hu => ?_) ?_
    · have hne : (s₁.setWorker w (.body job call')).worker u ≠ .body job call' := fun he =>
        absurd (he.symm.trans hu) (by simp)
      exact (worker_other hw hne).2.symm.trans hu
    · have hne : (s₁.setWorker w (.body job call')).worker u ≠ .body job call' := fun he => by
        rw [he] at hu
        exact Bool.false_ne_true hu
      obtain ⟨huw, hsame⟩ := worker_other hw hne
      exact ⟨hsame ▸ hu, fun he => huw (Sum.inl.inj he)⟩
    · have hsup := supplyAt_worker (L := L) (k := k) hw rfl
      rw [hself, WorkerPc.supplyTo_of_not (by simp [WorkerPc.coming]),
        WorkerPc.supplyTo_of_not (by simp [WorkerPc.coming])] at hsup
      exact hsup
  | @finish w job hpc | @spurious w hpc =>
    refine hs.worker rfl rfl id (by simp) (fun _ => rfl) (Nat.add_le_add_left ?_ _)
    rw [hpc, WorkerPc.supplyTo_of_not (by simp [WorkerPc.coming])]
    exact Nat.zero_le _
  | @lock w _ hpc =>
    refine hs.worker rfl rfl id (by simp) (fun _ => rfl) (Nat.add_le_add_left ?_ _)
    rw [hpc]
    exact le_rfl
  | @unlock w _ job hpc | @leave w _ hpc =>
    refine hs.worker rfl rfl id (by simp) (fun _ => rfl) (Nat.add_le_add_left ?_ _)
    rw [hpc, WorkerPc.supplyTo_of_not (by simp [WorkerPc.coming]),
      WorkerPc.supplyTo_of_not (by simp [WorkerPc.coming])]
    exact le_rfl
  | @take w _ job q hpc hpop =>
    by_cases hk : L.core w = k
    · subst hk
      have hperm := hL.pop _ _ _ hpop
      have hlen := hperm.length_eq
      rw [List.length_cons] at hlen
      have hq : ((s.setQueues (L.core w) q (.dequeue w job)).setWorker w (.unlock job)).queues
          (L.core w) = q := Function.update_self _ _ _
      refine hs.worker rfl rfl (fun h => absurd (h ▸ hperm) (by simp)) (by simp) (fun _ => rfl) ?_
      rw [hpc, hq, hlen]
      simp [WorkerPc.supplyTo, WorkerPc.coming, WorkerPc.call]
    · exact hs.elsewhere hk rfl rfl (Function.update_of_ne (Ne.symm hk) _ _) (by rw [hpc]; rfl)
  | @noJob w _ hpc hpop =>
    by_cases hk : L.core w = k
    · exact .of_empty (hL.pop_none _ (hk ▸ hpop))
    · exact hs.elsewhere hk rfl rfl rfl (by rw [hpc]; rfl)
  | @flag w _ hpc | @noFlag w _ hpc | @wait w _ hpc =>
    by_cases hk : L.core w = k
    · exact .of_empty (hs.empty w hk (by rw [hpc]; rfl))
    · exact hs.elsewhere hk rfl rfl rfl (by rw [hpc]; rfl)
  | @notifyAll j hj hc =>
    have hworker := notifyAll_worker (L := L) s ⟨j, hj⟩
    have hdrowsy : ∀ u, ((Monitor.notifyAll L s ⟨j, hj⟩).worker u).drowsy = true →
        (s.worker u).drowsy = true := fun u hd => by
      rcases hworker u with h | ⟨-, h⟩
      · exact h ▸ hd
      · rw [h] at hd
        exact absurd hd Bool.false_ne_true
    by_cases hk : (⟨j, hj⟩ : Fin K) = k
    · refine SuppliedAt.allAwake (fun u hu hw => ?_) fun u hu hd => hs.empty u hu (hdrowsy u hd)
      rw [notifyAll_apply] at hw
      split_ifs at hw with h
      exact h ⟨hu.trans hk.symm, hw⟩
    · have hsame : (Monitor.notifyAll L s ⟨j, hj⟩).supplyAt L k = s.supplyAt L k := by
        refine congrArg (· + _) (Finset.sum_congr rfl fun u _ => ?_)
        rw [notifyAll_apply]
        split_ifs with hu
        · have hne : L.core u ≠ k := fun e => hk (hu.1.symm.trans e)
          rw [hu.2, WorkerPc.supplyTo_of_not fun h => hne h.1,
            WorkerPc.supplyTo_of_not fun h => hne h.1]
          rfl
        · rfl
      refine hs.goOn (fun u _ hw => ?_) (fun u hu hd => hs.empty u hu (hdrowsy u hd))
        (Nat.add_le_add_left hsame.ge _)
      rcases hworker u with h | ⟨h, -⟩
      · exact h.symm.trans hw
      · exact h

theorem reachable_suppliedAt (hL : L.Lawful items) (h : (machine L ω).Reachable s) (k : Fin K) :
    SuppliedAt L items k s := by
  refine h.invariant (fun s hs => ?_) fun s l s' hr _ hst hs =>
    (step_move hst).suppliedAt hL (reachable_owned hr) hs
  simp only [machine, construct] at hs
  split_ifs at hs
  obtain rfl := Option.some.inj hs
  exact .of_empty hL.empty

omit [DecidableEq ω] in
/-- **The jobs of a core with a sleeping worker** are at most as many as the workers of it on their
way and the notifications owed to it. -/
theorem SuppliedAt.length_le (hs : SuppliedAt L items k s)
    (hw : ∃ w, L.core w = k ∧ s.worker w = .waiting) :
    (items (s.queues k)).length ≤
      (Finset.univ.filter fun w => L.core w = k ∧ (s.worker w).coming = true).card +
      (Finset.univ.filter fun t => (s.call t).any (SubmitPc.owesTo k) = true).card := by
  calc (items (s.queues k)).length
      ≤ s.supplyAt L k := hs.supply hw
    _ = ∑ w, (if L.core w = k ∧ (s.worker w).coming = true then 1 else 0) +
          ∑ t, owedTo k (s.call t) := by
        simp only [State.supplyAt, WorkerPc.supplyTo, Finset.sum_add_distrib, Fintype.sum_sum_type,
          State.call, Nat.add_assoc]
    _ = _ := by rw [Finset.card_filter, Finset.card_filter]; rfl

omit [DecidableEq ω] in
/-- Where nobody of the core is on the way, its jobs are those whose call of `submit` has still to
notify. -/
theorem SuppliedAt.length_le_owed (hs : SuppliedAt L items k s)
    (hw : ∃ w, L.core w = k ∧ s.worker w = .waiting)
    (hidle : ∀ w, L.core w = k → (s.worker w).coming = false) :
    (items (s.queues k)).length ≤
      (Finset.univ.filter fun t => (s.call t).any (SubmitPc.owesTo k) = true).card := by
  have hle := hs.length_le hw
  have hnone : (Finset.univ.filter fun w => L.core w = k ∧ (s.worker w).coming = true) = ∅ :=
    Finset.filter_false_of_mem fun w _ ⟨hk, hc⟩ => by
      rw [hidle w hk] at hc
      exact Bool.false_ne_true hc
  rwa [hnone, Finset.card_empty, Nat.zero_add] at hle

end Supply

end Wss.Monitor
