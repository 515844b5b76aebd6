import Wss.Monitor.Account

/-!
# Empty queues at the exits

A worker leaves when it has seen its queues empty and the flag set, with the mutex all along
(`Looked`). What is pushed after that can only stay if it goes to a core whose workers have all
left. `Clean` is what a caller owes `shutdown`, and `Served` says that no running job pushes to such
a core: `Drained` is kept by the runs with both.

Results:
* `reachable_looked`: the queues of a worker on its way out, or to the wait set, are empty.
* `reachable_drained`: where all workers of a core have left, its queues are empty.
* `drained_run`: when `shutdown` has returned every job has run once.
-/

namespace Wss.Monitor

open Wss.Lib

variable {N K : ℕ} {Q ω : Type} {L : Layout N K Q}

/-- No thread outside the pool is inside `submit` at the call of `shutdown` or later. -/
def Clean (s : State N K Q ω) : Label N ω → Prop
  | .client _ _ => s.control = .idle
  | .shutdown => ∀ c, s.client c = none
  | _ => True

instance [Fintype ω] (s : State N K Q ω) : DecidablePred (Clean s)
  | .client _ _ => inferInstanceAs (Decidable (s.control = .idle))
  | .shutdown => inferInstanceAs (Decidable (∀ c, s.client c = none))
  | .clientStep _ _ | .nested _ _ | .finish _ | .worker _ _ | .spurious _ | .control =>
    inferInstanceAs (Decidable True)

/-- The core that a worker's job is about to push to. -/
def WorkerPc.pushesTo : WorkerPc K → Option (Fin K)
  | .body _ (some (.push _ k _)) => some k
  | _ => none

/-- A job that a running job pushes goes to a core at which a worker has not left. -/
def Served (L : Layout N K Q) (s : State N K Q ω) : Label N ω → Prop
  | .worker w _ => ∀ k, (s.worker w).pushesTo = some k → ∃ u, L.core u = k ∧ s.worker u ≠ .exited
  | _ => True

instance (s : State N K Q ω) : DecidablePred (Served L s)
  | .worker w _ => inferInstanceAs (Decidable
      (∀ k, (s.worker w).pushesTo = some k → ∃ u, L.core u = k ∧ s.worker u ≠ .exited))
  | .client _ _ | .clientStep _ _ | .nested _ _ | .finish _ | .spurious _ | .shutdown | .control =>
    inferInstanceAs (Decidable True)

/-- A worker has looked at the queues, and has had the mutex since then. -/
def WorkerPc.checked : WorkerPc K → Prop
  | .loadFlag | .wait | .leave => True
  | _ => False

theorem WorkerPc.holds_of_checked {pc : WorkerPc K} {k : Fin K} (h : pc.checked) :
    pc.holds k = some k := by
  cases pc with
  | loadFlag | wait | leave => rfl
  | _ => exact absurd h id

/-! ## The queue that a worker has seen empty -/

section Looked

variable {s s' : State N K Q ω} {w : Fin N} {pc : WorkerPc K}

/-- A worker that has looked at its queues, and has had the mutex since then, has found no job. -/
def Looked (L : Layout N K Q) (s : State N K Q ω) : Prop :=
  ∀ w, (s.worker w).checked → L.pop (s.queues (L.core w)) = none

/-- A step of worker `w` that leaves the queues alone. -/
theorem Looked.worker (hl : Looked L s) (hq : s'.queues = s.queues)
    (hw : s'.worker = Function.update s.worker w pc)
    (hpc : pc.checked → L.pop (s.queues (L.core w)) = none) : Looked L s' := fun u hu => by
  rw [hq]
  rw [hw] at hu
  rcases eq_or_ne u w with rfl | hne
  · rw [Function.update_self] at hu
    exact hpc hu
  · rw [Function.update_of_ne hne] at hu
    exact hl u hu

/-- A step that leaves the queues alone and does nothing to the workers but wake them. -/
theorem Looked.wake (hl : Looked L s) (hq : s'.queues = s.queues)
    (hw : ∀ u, s'.worker u = s.worker u ∨ s.worker u = .waiting ∧ s'.worker u = .lock) :
    Looked L s' := fun u hu => by
  rw [hq]
  rcases hw u with h | ⟨-, h⟩
  · exact hl u (h ▸ hu)
  · rw [h] at hu
    exact absurd hu id

/-- A thread with the mutex of a core changes the queues there. -/
theorem Looked.setQueues (hl : Looked L s) (ho : Owned s.holder (s.holds L)) {t : Thread N ω}
    {k : Fin K} (ht : s.holds L t = some k) (htw : ∀ u, t = .inl u → ¬ (s.worker u).checked)
    (q : Q) (e : Event N) : Looked L (s.setQueues k q e) := fun u hu => by
  have hu : (s.worker u).checked := hu
  have hk : L.core u ≠ k := fun hk => by
    have hholds : s.holds L (.inl u) = some k := hk ▸ WorkerPc.holds_of_checked hu
    exact htw u (ho.exclusive ht hholds) hu
  show L.pop (Function.update s.queues k q (L.core u)) = none
  rw [Function.update_of_ne hk]
  exact hl u hu

theorem Looked.submitting (hl : Looked L s) (ho : Owned s.holder (s.holds L)) {t : Thread N ω}
    {call : SubmitPc K} {call' : Option (SubmitPc K)} (h : Submitting L s t call s' call')
    (ht : s.holds L t = call.holds) (htw : ∀ u, t = .inl u → ¬ (s.worker u).checked) :
    Looked L s' := by
  cases h with
  | push => exact hl.setQueues ho ht htw _ _
  | notify hk hw =>
    exact hl.worker rfl rfl (fun h => absurd h id)
  | ticket | lock | unlock | notifyNone | done => exact hl

theorem Move.looked [DecidableEq ω] {l : Label N ω} (ho : Owned s.holder (s.holds L))
    (hl : Looked L s) (h : Move L s l s') :
    Looked L s' := by
  cases h with
  | client | shutdown | store | join => exact hl
  | notifyAll => exact hl.wake rfl (notifyAll_worker s _)
  | @clientStep c wakes call call' s₁ hc hsub =>
    have hl₁ : Looked L s₁ := by
      refine hl.submitting ho hsub ?_ fun _ h => nomatch h
      simp only [State.holds, hc, Option.bind_some]
    exact hl₁
  | @nestedStep w wakes job call call' s₁ hpc hsub =>
    have hnot : ¬ (s.worker w).checked := by rw [hpc]; exact id
    have hl₁ : Looked L s₁ := by
      refine hl.submitting ho hsub (t := .inl w) ?_ fun u hu => ?_
      · simp only [State.holds, hpc, WorkerPc.holds, Option.bind_some]
      · obtain rfl := Sum.inl.inj hu
        exact hnot
    exact hl₁.worker rfl rfl (fun h => absurd h id)
  | @take w wakes job q hpc hq =>
    have hnot : ¬ (s.worker w).checked := by rw [hpc]; exact id
    have hl₁ : Looked L (s.setQueues (L.core w) q (.dequeue w job)) := by
      refine hl.setQueues ho (t := .inl w) ?_ (fun u hu => ?_) _ _
      · simp only [State.holds, hpc, WorkerPc.holds]
      · obtain rfl := Sum.inl.inj hu
        exact hnot
    exact hl₁.worker rfl rfl (fun h => absurd h id)
  | noJob hpc hq => exact hl.worker rfl rfl fun _ => hq
  | @flag w _ hpc | @noFlag w _ hpc =>
    exact hl.worker rfl rfl fun _ => hl w (by rw [hpc]; trivial)
  | nested | finish | lock | wait | unlock | leave | spurious =>
    exact hl.worker rfl rfl (fun h => absurd h id)

theorem reachable_looked [DecidableEq ω] (h : (machine L ω).Reachable s) : Looked L s := by
  refine h.invariant (fun s hs => ?_) fun s l s' hr _ hst hl =>
    Move.looked (reachable_owned hr) hl (step_move hst)
  simp only [machine, construct] at hs
  split_ifs at hs
  obtain rfl := Option.some.inj hs
  exact fun _ h => absurd h id

end Looked

/-! ## The queues that workers leave -/

/-- The workers leave empty queues. -/
structure Drained (L : Layout N K Q) (s : State N K Q ω) : Prop where
  workers : N ≠ 0
  clients : s.control ≠ .idle → ∀ c, s.client c = none
  flag : s.shutdownFlag = true → s.control ≠ .idle
  leaving : ∀ w, s.worker w = .leave ∨ s.worker w = .exited → s.shutdownFlag = true
  empty : ∀ w, (∀ u, L.core u = L.core w → s.worker u = .exited) →
    L.pop (s.queues (L.core w)) = none
  joined : ∀ k, s.control = .join k → ∀ w : Fin N, w.1 < k → s.worker w = .exited
  returned : s.control = .returned → ∀ w, s.worker w = .exited

variable {s s' : State N K Q ω} {w : Fin N} {pc : WorkerPc K}

namespace Drained

/-- A step of worker `w` that leaves the queues alone. -/
theorem worker (hd : Drained L s) (hcon : s'.control = s.control) (hcl : s'.client = s.client)
    (hflag : s'.shutdownFlag = s.shutdownFlag) (hq : s'.queues = s.queues)
    (hw : s'.worker = Function.update s.worker w pc) (hleft : s.worker w ≠ .exited)
    (hleave : pc = .leave ∨ pc = .exited → s.shutdownFlag = true)
    (hexit : pc = .exited → L.pop (s.queues (L.core w)) = none) : Drained L s' := by
  have hself : s'.worker w = pc := by rw [hw, Function.update_self]
  have hother : ∀ u, u ≠ w → s'.worker u = s.worker u := fun u hu => by
    rw [hw, Function.update_of_ne hu]
  refine ⟨hd.workers, fun h => by rw [hcl]; exact hd.clients (hcon ▸ h),
    fun h => by rw [hcon]; exact hd.flag (hflag ▸ h), fun u hu => ?_, fun u hu => ?_,
    fun k hk u hu => ?_, fun hr => absurd (hd.returned (hcon ▸ hr) w) hleft⟩
  · rw [hflag]
    by_cases huw : u = w
    · subst huw
      exact hleave (hself ▸ hu)
    · exact hd.leaving u (hother u huw ▸ hu)
  · rw [hq]
    by_cases hk : L.core w = L.core u
    · have hpc : pc = .exited := hself.symm.trans (hu w hk)
      exact hk ▸ hexit hpc
    · refine hd.empty u fun v hv => ?_
      have hvw : v ≠ w := fun e => hk (e ▸ hv)
      exact (hother v hvw).symm.trans (hu v hv)
  · have hex := hd.joined k (hcon ▸ hk) u hu
    have huw : u ≠ w := fun e => hleft (e ▸ hex)
    exact (hother u huw).trans hex

/-- A step that wakes workers at most. -/
theorem wake (hd : Drained L s) (hcon : s'.control = s.control)
    (hcl : s.control ≠ .idle → ∀ c, s'.client c = none) (hflag : s'.shutdownFlag = s.shutdownFlag)
    (hq : s'.queues = s.queues)
    (hw : ∀ u, s'.worker u = s.worker u ∨ s.worker u = .waiting ∧ s'.worker u = .lock) :
    Drained L s' := by
  have hexit : ∀ u, s'.worker u = .exited ↔ s.worker u = .exited := fun u => by
    rcases hw u with h | ⟨h, h'⟩
    · rw [h]
    · simp [h, h']
  refine ⟨hd.workers, fun h => hcl (hcon ▸ h), fun h => by rw [hcon]; exact hd.flag (hflag ▸ h),
    fun u hu => ?_, fun u hu => ?_, fun k hk u hu => ?_, fun hr u => ?_⟩
  · rw [hflag]
    rcases hw u with h | ⟨-, h⟩
    · exact hd.leaving u (h ▸ hu)
    · simp [h] at hu
  · rw [hq]
    exact hd.empty u fun v hv => (hexit v).mp (hu v hv)
  · exact (hexit u).mpr (hd.joined k (hcon ▸ hk) u hu)
  · exact (hexit u).mpr (hd.returned (hcon ▸ hr) u)

/-- The queues of core `k` change. A worker at `k` has not left. -/
theorem setQueues (hd : Drained L s) {k : Fin K}
    (hk : ∀ w, L.core w = k → ∃ u, L.core u = k ∧ s.worker u ≠ .exited) (q : Q) (e : Event N) :
    Drained L (s.setQueues k q e) := by
  refine ⟨hd.workers, hd.clients, hd.flag, hd.leaving, fun u hu => ?_, hd.joined, hd.returned⟩
  have hne : L.core u ≠ k := fun e => by
    obtain ⟨v, hv, hex⟩ := hk u e
    exact hex (hu v (hv.trans e.symm))
  simp only [State.setQueues, Function.update_of_ne hne]
  exact hd.empty u hu

/-- A step of `shutdown` that wakes workers at most. -/
theorem control (hd : Drained L s) {pc : ControlPc} (hidle : s.control ≠ .idle) (hpc : pc ≠ .idle)
    (hcon : s'.control = pc) (hcl : s'.client = s.client) (hq : s'.queues = s.queues)
    (hflag : s.shutdownFlag = true → s'.shutdownFlag = true)
    (hw : ∀ u, s'.worker u = s.worker u ∨ s.worker u = .waiting ∧ s'.worker u = .lock)
    (hjoined : ∀ k, pc = .join k → ∀ w : Fin N, w.1 < k → s.worker w = .exited)
    (hreturned : pc = .returned → ∀ w, s.worker w = .exited) : Drained L s' := by
  have hexit : ∀ u, s.worker u = .exited → s'.worker u = .exited := fun u hu => by
    rcases hw u with h | ⟨h, -⟩
    · rw [h, hu]
    · rw [hu] at h
      exact absurd h (by simp)
  refine ⟨hd.workers, fun _ => hcl ▸ hd.clients hidle, fun _ => hcon ▸ hpc, fun u hu => ?_,
    fun u hu => ?_, fun k hk u hu => ?_, fun hr u => ?_⟩
  · rcases hw u with h | ⟨-, h⟩
    · exact hflag (hd.leaving u (h ▸ hu))
    · simp [h] at hu
  · rw [hq]
    refine hd.empty u fun v hv => ?_
    rcases hw v with h | ⟨-, h⟩
    · exact h.symm.trans (hu v hv)
    · exact absurd (h.symm.trans (hu v hv)) (by simp)
  · exact hexit u (hjoined k (hcon.symm.trans hk) u hu)
  · exact hexit u (hreturned (hcon.symm.trans hr) u)

end Drained

theorem joinNext_eq_join {k k' : ℕ} (h : joinNext N k = .join k') : k' = k := by
  unfold joinNext at h
  split_ifs at h
  exact (ControlPc.join.inj h).symm

theorem joinNext_eq_returned {k : ℕ} (h : joinNext N k = .returned) : N ≤ k := by
  unfold joinNext at h
  split_ifs at h with hk
  omega

theorem joinNext_ne_idle (k : ℕ) : joinNext N k ≠ .idle := by
  unfold joinNext
  split_ifs <;> simp

/-- Before the joins nobody is joined. -/
theorem notifyNext_joins {j : ℕ} (hN : N ≠ 0) :
    (∀ k, notifyNext N K j = .join k → k = 0) ∧ notifyNext N K j ≠ .returned := by
  unfold notifyNext
  split_ifs
  · simp
  · exact ⟨fun _ h => joinNext_eq_join h, fun h => hN (Nat.le_zero.mp (joinNext_eq_returned h))⟩

/-- A step of `submit`. -/
theorem Submitting.drained {t : Thread N ω} {call : SubmitPc K} {call' : Option (SubmitPc K)}
    (h : Submitting L s t call s' call') (hd : Drained L s)
    (hserved : ∀ job k p, call = .push job k p → ∀ w, L.core w = k →
      ∃ u, L.core u = k ∧ s.worker u ≠ .exited) : Drained L s' := by
  obtain ⟨hwk, hcl, hcon, hflag, -⟩ := h.frame
  cases h with
  | push => exact hd.setQueues (hserved _ _ _ rfl) _ _
  | ticket | lock | unlock | notifyNone | notify | done =>
    exact hd.wake hcon (fun hc => hcl ▸ hd.clients hc) hflag rfl hwk

section Moves

variable [DecidableEq ω] {l : Label N ω}

/-- **Every step of a clean run in which no job is pushed to an abandoned core keeps `Drained`.** -/
theorem Move.drained (hl : Looked L s) (hd : Drained L s) (hok : Clean s l ∧ Served L s l)
    (h : Move L s l s') : Drained L s' := by
  cases h with
  | client hc =>
    have hidle : s.control = .idle := hok.1
    exact hd.wake rfl (fun h => absurd hidle h) rfl rfl fun _ => .inl rfl
  | @clientStep c wakes call call' s₁ hc hsub =>
    -- `shutdown` has not been called, so no worker has left
    have hidle : s.control = .idle := by
      by_contra h
      rw [hd.clients h c] at hc
      exact absurd hc (by simp)
    have hstay : ∀ w, s.worker w ≠ .exited := fun w hw => hd.flag (hd.leaving w (.inr hw)) hidle
    have hd₁ : Drained L s₁ := hsub.drained hd fun _ _ _ _ w hk => ⟨w, hk, hstay w⟩
    have hidle₁ : s₁.control = .idle := hsub.frame.2.2.1.trans hidle
    exact hd₁.wake rfl (fun h => absurd hidle₁ h) rfl rfl fun _ => .inl rfl
  | @nestedStep w wakes job call call' s₁ hpc hsub =>
    have hd₁ : Drained L s₁ := hsub.drained hd fun j k p hcall _ _ =>
      hok.2 k (by rw [hpc, hcall]; rfl)
    have hpc₁ : s₁.worker w ≠ .exited := by
      rcases hsub.frame.1 w with h | ⟨-, h⟩
      · simp [h, hpc]
      · simp [h]
    exact hd₁.worker rfl rfl rfl rfl rfl hpc₁ (by simp) (by simp)
  | @take w wakes job q hpc hq =>
    have hd₁ : Drained L (s.setQueues (L.core w) q (.dequeue w job)) :=
      hd.setQueues (fun _ _ => ⟨w, rfl, by simp [hpc]⟩) _ _
    exact hd₁.worker rfl rfl rfl rfl rfl (by simp [State.setQueues, hpc]) (by simp) (by simp)
  | nested hpc | finish hpc | lock hpc | unlock hpc | spurious hpc | noJob hpc | noFlag hpc
  | wait hpc =>
    exact hd.worker rfl rfl rfl rfl rfl (by simp [hpc]) (by simp) (by simp)
  | @flag w wakes hpc hf =>
    exact hd.worker rfl rfl rfl rfl rfl (by simp [hpc]) (fun _ => hf) fun _ =>
      hl w (by rw [hpc]; trivial)
  | @leave w wakes hpc =>
    exact hd.worker rfl rfl rfl rfl rfl (by simp [hpc]) (fun _ => hd.leaving w (.inl hpc)) fun _ =>
      hl w (by rw [hpc]; trivial)
  | shutdown hc =>
    exact ⟨hd.workers, fun _ => hok.1, fun _ => by simp, hd.leaving, hd.empty,
      fun _ h => absurd h (by simp), fun h => absurd h (by simp)⟩
  | store hc =>
    obtain ⟨hj, hr⟩ := notifyNext_joins (K := K) (j := 0) hd.workers
    exact hd.control (by simp [hc]) (notifyNext_flag 0).1 rfl rfl rfl (fun _ => rfl)
      (fun _ => .inl rfl) (fun k hk w hw => absurd hw (by simp [hj k hk])) fun h => absurd h hr
  | @notifyAll k hk hc =>
    obtain ⟨hj, hr⟩ := notifyNext_joins (K := K) (j := k + 1) hd.workers
    exact hd.control (by simp [hc]) (notifyNext_flag (k + 1)).1 rfl rfl rfl id
      (notifyAll_worker s _) (fun k hk w hw => absurd hw (by simp [hj k hk])) fun h => absurd h hr
  | @join k hk hc hw =>
    have hall : ∀ w : Fin N, w.1 < k + 1 → s.worker w = .exited := fun w hlt => by
      rcases Nat.lt_succ_iff_lt_or_eq.mp hlt with hlt | rfl
      · exact hd.joined k hc w hlt
      · exact hw
    exact hd.control (by simp [hc]) (joinNext_ne_idle _) rfl rfl rfl id (fun _ => .inl rfl)
      (fun _ h w hw => hall w (joinNext_eq_join h ▸ hw))
      fun h w => hall w (by have := joinNext_eq_returned h; omega)

theorem reachable_drained
    (h : (machine L ω).ReachableUnder (fun s l => Clean s l ∧ Served L s l) s) :
    Drained L s := by
  refine h.invariant (I := fun s => Drained L s) (fun s hs => ?_) fun _ _ _ hr hok hst hd =>
    (step_move hst).drained (reachable_looked hr.reachable) hd hok
  simp only [machine, construct] at hs
  split_ifs at hs with hN
  obtain rfl := Option.some.inj hs
  exact
    { workers := hN
      clients := fun _ _ => rfl
      flag := fun h => absurd h (by simp)
      leaving := fun _ h => absurd h (by simp)
      empty := fun w h => absurd (h w rfl) (by simp)
      joined := fun _ h => absurd h (by simp)
      returned := fun h => absurd h (by simp) }

end Moves

/-- **In a clean run in which no job is pushed to an abandoned core, when `shutdown` has returned
every job has run once and the queues are empty.** -/
theorem drained_run [Fintype ω] [DecidableEq ω] {items : Q → List ℕ} (hL : L.Lawful items)
    (hcore : Function.Surjective L.core)
    (h : (machine L ω).ReachableUnder (fun s l => Clean s l ∧ Served L s l) s)
    (hret : s.control = .returned) :
    (∀ job < s.submitted.length, (s.started.map Prod.snd).count job = 1 ∧
      (s.finished.map Prod.snd).count job = 1) ∧ ∀ k, items (s.queues k) = [] := by
  have hd := reachable_drained h
  have hexit := hd.returned hret
  have hempty : ∀ k, L.pop (s.queues k) = none := fun k => by
    obtain ⟨w, rfl⟩ := hcore k
    exact hd.empty w fun u _ => hexit u
  have hclient : ∀ c, s.client c = none := hd.clients (by simp [hret])
  exact ⟨fun job hjob => (reachable_account h.reachable).all_run hL
    (reachable_replay hL h.reachable) hclient hexit hempty hjob, fun k => hL.pop_none _ (hempty k)⟩

end Wss.Monitor
