import Wss.Fair.Account
import Mathlib.Algebra.Field.Rat
import Mathlib.Algebra.Order.Ring.Rat

/-!
# `FairScheduler` runs every job once, in the order of its class

`Clean` is what a caller owes `shutdown`: no thread outside the pool is inside `submit` when
`shutdown` is called, and none calls it later.

Results:
* `reachable_drain`: a worker that has left has seen the end.
* `exactly_once_in_order`: the jobs taken from a class are the first ones filed under it, in order,
  and none is taken twice. When `shutdown` has returned every job has run, no queue and no entry is
  left, and the accounts of every class are those of the jobs filed under it.
-/

namespace Wss.Fair

open Wss.Lib

variable {R : Type} {N : ℕ} {ω : Type}

/-- No thread outside the pool is inside `submit` at the call of `shutdown` or later. -/
def Clean (s : State R N ω) : Label R N ω → Prop
  | .client _ _ => s.control = .idle
  | .shutdown => ∀ c, s.client c = none
  | _ => True

instance [Fintype ω] (s : State R N ω) (l : Label R N ω) : Decidable (Clean s l) := by
  cases l <;> unfold Clean <;> infer_instance

/-- What `shutdown` depends on. -/
def State.pool (s : State R N ω) : Pool N where
  control := s.control
  shutdownFlag := s.shutdownFlag
  pending := s.pending
  checking w := ∃ gen, s.worker w = .loadPending gen
  exited w := s.worker w = .exited
  outside := ∃ c, s.client c ≠ none

variable {s s' : State R N ω} {w : Fin N} {pc : WorkerPc R}

/-- A step of worker `w` that leaves `pending_` at `0` if it is there. -/
theorem drain_worker (hd : Drain s.pool) (hw : s'.worker = Function.update s.worker w pc)
    (hcon : s'.control = s.control) (hcl : s'.client = s.client)
    (hflag : s'.shutdownFlag = s.shutdownFlag)
    (hpending : s.shutdownFlag = true → s.pending = 0 → s'.pending = 0)
    (hleft : s.worker w ≠ .exited)
    (hcheck : ∀ gen, pc = .loadPending gen → s.shutdownFlag = true)
    (hexit : pc = .exited → s.shutdownFlag = true ∧ s.pending = 0) : Drain s'.pool := by
  have hself : s'.worker w = pc := by rw [hw, Function.update_self]
  have hother : ∀ u, u ≠ w → s'.worker u = s.worker u := fun u hu => by
    rw [hw, Function.update_of_ne hu]
  refine hd.worker (w := w) hcon hflag (fun ⟨c, hc⟩ => ⟨c, hcl ▸ hc⟩) hpending hleft
    (fun u hu => ⟨fun ⟨gen, h⟩ => ⟨gen, hother u hu ▸ h⟩, ?_⟩) (fun ⟨gen, h⟩ => ?_) fun h => ?_
  · show s'.worker u = .exited ↔ s.worker u = .exited
    rw [hother u hu]
  · exact hcheck gen (hself.symm.trans h)
  · exact hexit (hself.symm.trans h)

section Moves

variable [Zero R] [One R] [Add R] [Div R] [LE R] [LT R] [DecidableLT R]
  [Fintype ω] [DecidableEq ω] {l : Label R N ω}

/-- **Every step of a clean run keeps `Drain`.** -/
theorem Move.drain (ha : Account s) (hd : Drain s.pool) (hok : Clean s l) (h : Move s l s') :
    Drain s'.pool := by
  cases h with
  | current hw | noJob hw | take hw | deliver hw | ring hw | account hw | noFlag hw | pending hw
  | wake hw | nested hw | finish hw =>
    exact drain_worker hd rfl rfl rfl rfl (fun _ h => h) (by simp [hw]) (by simp) (by simp)
  | flag hw hf =>
    exact drain_worker hd rfl rfl rfl rfl (fun _ h => h) (by simp [hw]) (fun _ _ => hf) (by simp)
  | noPending hw hp =>
    exact drain_worker hd rfl rfl rfl rfl (fun _ h => h) (by simp [hw]) (by simp)
      fun _ => ⟨hd.checked _ ⟨_, hw⟩, hp⟩
  | uncount hw =>
    exact drain_worker hd rfl rfl rfl rfl
      (fun _ (h : s.pending = 0) => by show s.pending - 1 = 0; omega) (by simp [hw]) (by simp)
      (by simp)
  | @nestedStep w id job call call' s₁ hw hsub =>
    -- a job that runs is pending
    have hpos := ha.pending_pos (w := w) (by rw [hw]; rfl)
    obtain ⟨hwk, hcl, hcon, hfl, -⟩ := hsub.frame
    exact drain_worker hd (congrArg (Function.update · w _) hwk) hcon hcl hfl
      (fun _ h => absurd h hpos.ne') (by simp [hw]) (by simp) (by simp)
  | client => exact hd.early hok rfl rfl (fun _ h => h) fun _ h => h
  | @clientStep c call call' s₁ hc hsub =>
    -- `shutdown` has not been called
    have hidle : s.control = .idle := by
      by_contra h
      exact hd.clients h ⟨c, by simp [hc]⟩
    obtain ⟨hwk, -, hcon, hfl, -⟩ := hsub.frame
    exact hd.early hidle hcon hfl (fun w ⟨gen, h⟩ => ⟨gen, hwk ▸ h⟩)
      fun w h => (congrFun hwk w).symm.trans h
  | register | join => exact ⟨hd.1, hd.2, hd.3, hd.4, hd.5, hd.6, hd.7⟩
  | shutdown => exact hd.shutdown fun ⟨c, hc⟩ => hc (hok c)
  | store hc => exact hd.store hc
  | controlRing hc => exact hd.ring hc
  | joinWorker hk hc hw => exact hd.join hk hc hw

omit [One R] [Add R] [Div R] [LE R] [LT R] [DecidableLT R] [Fintype ω] [DecidableEq ω] in
theorem construct_drain (h : construct R N ω = some s) : Drain s.pool := by
  unfold construct at h
  split_ifs at h with hN
  obtain rfl := Option.some.inj h
  exact
    { workers := hN
      clients := fun h => absurd rfl h
      flag := fun h => absurd h (by simp [State.pool])
      checked := fun _ h => absurd h (by simp [State.pool])
      drained := fun _ h => absurd h (by simp [State.pool])
      joined := fun _ h => absurd h (by simp [State.pool])
      returned := fun h => absurd h (by simp [State.pool]) }

theorem reachable_drain [DecidableLE R] (h : (machine R N ω).ReachableUnder Clean s) :
    Drain s.pool :=
  h.invariant (I := fun s => Drain s.pool) (fun _ => construct_drain)
    fun _ _ _ hr hok hst hd => (step_move hst).drain (reachable_account hr.reachable) hd hok

end Moves

/-! ## Nothing is left -/

section Settled

variable [Zero R] [Add R] [Fintype ω]

theorem Account.enqueued_nodup (ha : Account s) : (s.enqueued.map Prod.snd).Nodup :=
  nodup_of_mass (n := s.next) fun μ => by
    have := ha.jobs μ
    omega

/-- No job is taken twice. -/
theorem Account.dispatched_nodup (ha : Account s) : (s.dispatched.map Prod.snd).Nodup := by
  obtain ⟨l, hperm, hsub⟩ := ha.dispatched_subperm
  exact (hperm.map Prod.snd).nodup_iff.mp ((hsub.map Prod.snd).nodup ha.enqueued_nodup)

/-- With no worker left and nothing pending, all that was filed has run and is accounted for. -/
theorem Account.settled_perm (ha : Account s) (hexit : ∀ w, s.worker w = .exited)
    (hclient : ∀ c, s.client c = none) (hpending : s.pending = 0) :
    s.dispatched.Perm s.enqueued ∧ s.settled.Perm s.dispatched ∧
      s.finished.Perm (s.dispatched.map Prod.snd) ∧
      (s.enqueued.map Prod.snd).Perm (List.range s.next) := by
  refine ⟨ha.dispatched_subperm.perm_of_length_le ?_, perm_of_mass fun μ => ?_,
    perm_of_mass fun μ => ?_, perm_of_mass fun μ => ?_⟩
  · have h := ha.pending
    simp only [State.counted, hexit, hclient, counted, WorkerPc.call, WorkerPc.uncounted,
      Finset.sum_const_zero] at h
    omega
  · have h := ha.flight μ
    simp only [hexit, WorkerPc.flight, WorkerPc.flying, Option.elim_none,
      Finset.sum_const_zero] at h
    omega
  · have h := ha.bodies μ
    simp only [hexit, WorkerPc.running, Finset.sum_const_zero] at h
    omega
  · have h := ha.jobs μ
    simp only [State.unfiled, hexit, hclient, unfiled, WorkerPc.call, Finset.sum_const_zero] at h
    omega

end Settled

/-- **`FairScheduler` runs every job exactly once, first-in first-out within its class, and its
accounts balance at shutdown.** In every reachable state the jobs taken from a class are a prefix of
those filed under it, and no job has been taken twice. In a clean run, when `shutdown` has returned,
every job `submit` was called with has run once, `ready_` and every queue are empty, and for each
class `completed` and `total_busy_seconds` are the number and the times of the jobs filed under
it. -/
theorem exactly_once_in_order [Fintype ω] [DecidableEq ω] {s : State ℚ N ω}
    (h : (machine ℚ N ω).Reachable s) :
    (∀ id, valuesAt id s.dispatched <+: valuesAt id s.enqueued) ∧
      (s.dispatched.map Prod.snd).Nodup ∧
      ((machine ℚ N ω).ReachableUnder Clean s → s.control = .returned →
        (∀ job < s.next, (s.enqueued.map Prod.snd).count job = 1 ∧ s.finished.count job = 1) ∧
        s.tables.ready = [] ∧ ∀ id c, s.tables.classes[id]? = some c →
          c.runnable = [] ∧ c.completed = (valuesAt id s.enqueued).length ∧
          ((valuesAt id s.accounted).map Prod.fst).Perm (valuesAt id s.enqueued) ∧
          c.totalBusySeconds = ((valuesAt id s.accounted).map Prod.snd).sum) := by
  have ha := reachable_account h
  have ht := reachable_ok h
  refine ⟨fun id => ⟨s.tables.runnable id, (ha.fifo id).symm⟩, ha.dispatched_nodup,
    fun hclean hret => ?_⟩
  have hd := reachable_drain hclean
  have hclient : ∀ c, s.client c = none := fun c => by
    by_contra hc
    exact hd.clients (by simp [State.pool, hret]) ⟨c, hc⟩
  obtain ⟨h1, h2, h3, h4⟩ := ha.settled_perm (hd.returned hret) hclient (hd.pending_zero hret)
  have hone : ∀ {l : List ℕ}, l.Perm (List.range s.next) → ∀ job < s.next, l.count job = 1 :=
    fun hl job hjob => by
      rw [hl.count_eq]
      exact List.count_eq_one_of_mem List.nodup_range (List.mem_range.mpr hjob)
  have hrunnable : ∀ id, s.tables.runnable id = [] := fun id => by
    have hlen := (perm_valuesAt h1 (k := id)).length_eq
    rw [ha.fifo id, List.length_append] at hlen
    exact List.length_eq_zero_iff.mp (by omega)
  have hclass : ∀ (id : ClassId) c, s.tables.classes[id]? = some c → c.runnable = [] :=
    fun id c hc => by
      have := hrunnable id
      rwa [Tables.runnable, hc, Option.elim_some] at this
  refine ⟨fun job hjob => ⟨hone h4 job hjob, hone (h3.trans ((h1.map _).trans h4)) job hjob⟩, ?_,
    fun id c hc => ⟨hclass id c hc, ?_, ?_, ?_⟩⟩
  · refine List.eq_nil_iff_forall_not_mem.mpr fun entry hmem => ?_
    obtain ⟨c, hc, -, hne⟩ := ht.mem_ready hmem
    exact hne (hclass entry.2 c hc)
  · have hcomp := ha.completed id
    have hsettled : (valuesAt id s.settled).length = (valuesAt id s.times).length := by
      rw [State.settled, State.times, valuesAt_map (f := Prod.fst), valuesAt_map (f := Prod.snd),
        List.length_map, List.length_map]
    rw [Tables.completed, hc, Option.elim_some, ← hsettled,
      (perm_valuesAt (h2.trans h1) (k := id)).length_eq] at hcomp
    exact hcomp
  · rw [← valuesAt_map (f := Prod.fst)]
    exact perm_valuesAt (h2.trans h1)
  · have hbusy := ha.busy id
    rw [Tables.totalBusySeconds, hc, Option.elim_some, State.times,
      valuesAt_map (f := Prod.snd), ← List.sum_eq_foldl] at hbusy
    exact hbusy

/-- Two jobs of the default class are submitted and worker `0` takes the first, which submits a job
of a class of weight `2`. Worker `1` takes the second; both finish and are accounted for, and worker
`1` runs the last one. Then `shutdown` is called and the workers leave. -/
def nestedThenDrain : List (Label ℚ 2 Unit) :=
  let one : Fin 2 := ⟨0, Nat.two_pos⟩
  let other : Fin 2 := ⟨1, Nat.one_lt_two⟩
  let submit : List (Label ℚ 2 Unit) := .client () ⟨"", 1⟩ :: List.replicate 4 (.clientStep ())
  List.flatten [submit, submit, [.worker one, .worker one, .nested one ⟨"bulk", 2⟩],
    List.replicate 4 (.worker one), [.worker other, .worker other, .finish one, .finish other],
    List.replicate 3 (.worker one), [.account one 3],
    List.replicate 3 (.worker other), [.account other (1 / 2)],
    [.worker other, .worker other, .finish other],
    List.replicate 3 (.worker other), [.account other 1], [.shutdown, .control, .control],
    List.replicate 4 (.worker one), List.replicate 4 (.worker other), [.control, .control]]

theorem exactly_once_in_order_nested : ∃ s : State ℚ 2 Unit,
    (machine ℚ 2 Unit).ReachableUnder Clean s ∧ s.control = .returned ∧ s.next = 3 ∧
      s.enqueued = [(0, 0), (0, 1), (1, 2)] ∧
      (∀ id, valuesAt id s.dispatched <+: valuesAt id s.enqueued) ∧
      (s.dispatched.map Prod.snd).Nodup ∧ (∀ job < 3, s.finished.count job = 1) ∧
      s.tables.ready = [] ∧ ∀ c, s.tables.classes[0]? = some c →
        c.runnable = [] ∧ c.completed = 2 ∧ c.totalBusySeconds = 7 / 2 := by
  let s₀ : State ℚ 2 Unit := (construct ℚ 2 Unit).get (by decide)
  have h₀ : construct ℚ 2 Unit = some s₀ := (Option.some_get _).symm
  let s := ((machine ℚ 2 Unit).execUnder Clean s₀ nestedThenDrain).get (by decide +kernel)
  have hex : (machine ℚ 2 Unit).execUnder Clean s₀ nestedThenDrain = some s :=
    (Option.some_get _).symm
  have hclean : (machine ℚ 2 Unit).ReachableUnder Clean s :=
    ⟨nestedThenDrain, s₀, h₀, Machine.execUnder_path hex⟩
  have hret : s.control = .returned := by decide +kernel
  have hnext : s.next = 3 := by decide +kernel
  have henqueued : s.enqueued = [(0, 0), (0, 1), (1, 2)] := by decide +kernel
  have haccounted : valuesAt 0 s.accounted = [(0, 3), (1, 1 / 2)] := by decide +kernel
  obtain ⟨hfifo, hnodup, hdone⟩ := exactly_once_in_order hclean.reachable
  obtain ⟨hjobs, hready, hclass⟩ := hdone hclean hret
  refine ⟨s, hclean, hret, hnext, henqueued, hfifo, hnodup, fun job h => (hjobs job (hnext ▸ h)).2,
    hready, fun c hc => ?_⟩
  obtain ⟨hrunnable, hcompleted, -, hbusy⟩ := hclass 0 c hc
  refine ⟨hrunnable, ?_, ?_⟩
  · rw [hcompleted, henqueued]
    rfl
  · rw [hbusy, haccounted]
    decide +kernel

end Wss.Fair
