import Wss.ChaseLev.Failure
import Wss.ChaseLev.Retained
import Wss.ChaseLev.WaitFree
import Wss.WorkStealing.Own

/-!
# The local deques never grow

A worker pulls a batch only into deques that it has found empty (`Own.lean`), and the batch it pulls
leaves `kInjectorBatchSize - 1` jobs there at most.

Results:
* `reachable_ungrown`: the first buffer of a local deque, of `256` slots, is its only one.
* `local_deques`: so `grow` is never run, a batch pull always gets through, and what a worker has
  for itself is less than one batch.
-/

namespace Wss.ChaseLev

open Wss.Lib Atomic

variable {ι T : Type} {d d' : State ι T} {c : ℕ}

/-- The deque has its first buffer, of `c` slots. -/
structure Ungrown (c : ℕ) (d : State ι T) : Prop where
  allocated : d.allocated = 1
  buffer : d.buffer = 0
  capacity : (d.heap 0).capacity = c

theorem Ungrown.congr (h : Ungrown c d) (halloc : d'.allocated = d.allocated)
    (hbuf : d'.buffer = d.buffer) (hheap : d'.heap = d.heap) : Ungrown c d' :=
  ⟨halloc.trans h.allocated, hbuf.trans h.buffer, by rw [hheap]; exact h.capacity⟩

/-- A `push` with room for it. -/
theorem Ungrown.push (h : Ungrown c d) (hroom : d.bottom - d.top < c) (item : T) :
    ∃ d', push d item = some d' ∧ Ungrown c d' ∧ d'.top = d.top ∧ d'.bottom = d.bottom + 1 ∧
      d'.thief = d.thief ∧ d'.owner = d.owner := by
  have hfull : ¬ d.full := by
    unfold State.full
    rw [h.buffer, h.capacity]
    omega
  refine ⟨_, push_roomy hfull, ⟨h.allocated, h.buffer, ?_⟩, rfl, rfl, rfl, rfl⟩
  exact (store_capacity d _ _ _ 0).trans h.capacity

/-- What a `pop` leaves alone. -/
theorem stepOwner_ungrown (h : Ungrown c d) (hpc : ∀ x, (toAtomic d).owner ≠ .pushing x)
    (hst : stepOwner d = some d') : Ungrown c d' := by
  have hpc : ∀ x, ownerStatus d d.owner ≠ .pushing x := hpc
  unfold stepOwner at hst
  cases hown : d.owner with
  | idle | pushReturn | popTake _ | popNone => simp [hown] at hst
  | popTop | popSlot | popCas =>
    simp only [hown] at hst
    split_ifs at hst <;> obtain rfl := Option.some.inj hst <;> exact h.congr rfl rfl rfl
  | popBottom | popBuffer | popLower | popRestore | popRaise =>
    simp only [hown, Option.some.injEq] at hst
    subst hst
    exact h.congr rfl rfl rfl
  | pushBottom item | pushTop item | pushBuffer item | growLoad item | growStore item
  | growPublish item | growRetire item | pushSlot item | pushPublish item =>
    rw [hown] at hpc
    exact absurd rfl (hpc item)

variable [DecidableEq ι] [DecidableEq T] {r : Option (Option T)} {i : ι}

theorem step_buffers {l : Label ι T} (h : step d l = some d') (ho : l ≠ .owner)
    (ht : ∀ i, l ≠ .thief i) :
    d'.allocated = d.allocated ∧ d'.buffer = d.buffer ∧ d'.heap = d.heap :=
  have hc := step_called h ho ht
  ⟨hc.allocated, hc.keeps.buffer, hc.heap⟩

theorem popStep_ungrown (h : Ungrown c d) (hpc : ∀ x, (toAtomic d).owner ≠ .pushing x)
    (hst : popStep d = some (d', r)) : Ungrown c d' := by
  unfold popStep at hst
  split at hst
  all_goals
    obtain ⟨e, he, hq⟩ := Option.map_eq_some_iff.mp hst
    obtain ⟨rfl, -⟩ := Prod.mk.inj hq
    first
      | exact stepOwner_ungrown h hpc he
      | (obtain ⟨halloc, hbuf, hheap⟩ := step_buffers he (by simp) (by simp)
         exact h.congr halloc hbuf hheap)

theorem stealStep_ungrown (h : Ungrown c d) (hst : stealStep d i = some (d', r)) :
    Ungrown c d' := by
  have hcall : ∀ {l : Label ι T} {q : Option (Option T)}, l ≠ .owner → (∀ i, l ≠ .thief i) →
      (step d l).map (·, q) = some (d', r) → Ungrown c d' := by
    intro l q ho ht hst
    obtain ⟨e, he, hq⟩ := Option.map_eq_some_iff.mp hst
    obtain ⟨rfl, -⟩ := Prod.mk.inj hq
    obtain ⟨halloc, hbuf, hheap⟩ := step_buffers he ho ht
    exact h.congr halloc hbuf hheap
  unfold stealStep at hst
  split at hst
  · exact hcall (by simp) (by simp) hst
  · exact hcall (by simp) (by simp) hst
  · exact hcall (by simp) (by simp) hst
  · exact hcall (by simp) (by simp) hst
  · exact hcall (by simp) (by simp) hst
  · obtain ⟨e, he, hq⟩ := Option.map_eq_some_iff.mp hst
    obtain ⟨rfl, -⟩ := Prod.mk.inj hq
    obtain ⟨hheap, halloc, -, hbuf, -⟩ := stepThief_buffers he
    exact h.congr halloc hbuf hheap

end Wss.ChaseLev

namespace Wss.WorkStealing

open Wss.Lib ChaseLev ChaseLev.Atomic

section Batch

variable {ι T : Type} {d : ChaseLev.State ι T} {c : ℕ}

theorem moveBatch_ungrown : ∀ {n : ℕ} (queue : List T) {d : ChaseLev.State ι T}, Ungrown c d →
    d.bottom - d.top + n ≤ c → ∃ queue' d', moveBatch n queue d = some (queue', d') ∧
      Ungrown c d' ∧ d'.thief = d.thief ∧ d'.owner = d.owner
  | 0, queue, d, h, _ => ⟨queue, d, rfl, h, rfl, rfl⟩
  | _ + 1, [], d, h, _ => ⟨[], d, rfl, h, rfl, rfl⟩
  | n + 1, job :: queue, d, h, hroom => by
    obtain ⟨d₁, h₁, hu₁, htop, hbot, hthief₁, ho₁⟩ := h.push (by omega) job
    obtain ⟨queue', d', h', hu', hthief, ho⟩ := moveBatch_ungrown (n := n) queue hu₁
      (by rw [htop, hbot]; push_cast at hroom; omega)
    refine ⟨queue', d', ?_, hu', hthief.trans hthief₁, ho.trans ho₁⟩
    unfold moveBatch
    rw [h₁]
    exact h'

/-- A batch for which there is room. -/
theorem popBatchInto_ungrown {n : ℕ} (h : Ungrown c d) (hroom : d.bottom - d.top + (n - 1 : ℕ) ≤ c)
    (queue : List T) : ∃ r queue' d', popBatchInto queue d n = some (r, queue', d') ∧
      Ungrown c d' ∧ d'.thief = d.thief ∧ d'.owner = d.owner := by
  cases queue with
  | nil => exact ⟨none, [], d, rfl, h, rfl, rfl⟩
  | cons first queue =>
    obtain ⟨queue', d', hm, hu, hthief, ho⟩ := moveBatch_ungrown queue h hroom
    refine ⟨some first, queue', d', ?_, hu, hthief, ho⟩
    simp only [popBatchInto, hm, Option.map_some]

end Batch

variable {N : ℕ} {ω : Type} {s s' : State N ω} {w v : Fin N} {p : Priority} {c : ℕ}

/-! ## The steps on a deque -/

/-- What a worker does to deque `(v, p)` in a step of its search. -/
inductive DequeStep (s : State N ω) (w v : Fin N) (p : Priority) :
    ChaseLev.State (Fin N) ℕ → Prop
  | pop {gen ps d r} : s.worker w = .own gen (p :: ps) → v = w →
      popStep (s.deque w p) = some (d, r) → DequeStep s w v p d
  | batch {gen ps r queue d} : s.worker w = .inject gen (p :: ps) → v = w →
      popBatchInto (s.injector p) (s.deque w p) kInjectorBatchSize = some (r, queue, d) →
      DequeStep s w v p d
  | steal {gen ts d r} : s.worker w = .steal gen ((p, v) :: ts) →
      stealStep (s.deque v p) w = some (d, r) → DequeStep s w v p d

theorem stepSubmit_deque (s : State N ω) (call : SubmitPc) :
    (stepSubmit s call).1.deque = s.deque := by
  cases call <;> rfl

/-- The deques after a step of a worker. -/
theorem stepWorker_deque (h : stepWorker s w = some s') :
    s'.deque = s.deque ∨
      ∃ v p d, s'.deque = (s.setDeque w v p d).deque ∧ DequeStep s w v p d := by
  unfold stepWorker at h
  cases hpc : s.worker w with
  | own gen ps =>
    cases ps with
    | nil =>
      simp only [hpc, Option.some.injEq] at h
      subst h
      exact .inl rfl
    | cons p ps =>
      simp only [hpc] at h
      obtain ⟨⟨d, r⟩, hd, rfl⟩ := Option.map_eq_some_iff.mp h
      exact .inr ⟨w, p, d, by rcases r with _ | _ | job <;> rfl, .pop hpc rfl hd⟩
  | inject gen ps =>
    cases ps with
    | nil =>
      simp only [hpc, Option.some.injEq] at h
      subst h
      exact .inl rfl
    | cons p ps =>
      simp only [hpc] at h
      obtain ⟨⟨r, queue, d⟩, hd, rfl⟩ := Option.map_eq_some_iff.mp h
      exact .inr ⟨w, p, d, by cases r <;> rfl, .batch hpc rfl hd⟩
  | steal gen ts =>
    cases ts with
    | nil =>
      simp only [hpc, Option.some.injEq] at h
      subst h
      exact .inl rfl
    | cons t ts =>
      obtain ⟨p, v⟩ := t
      simp only [hpc] at h
      obtain ⟨⟨d, r⟩, hd, rfl⟩ := Option.map_eq_some_iff.mp h
      exact .inr ⟨v, p, d, by rcases r with _ | _ | job <;> rfl, .steal hpc hd⟩
  | body job call =>
    cases call with
    | none => simp [hpc] at h
    | some call =>
      simp only [hpc, Option.some.injEq] at h
      subst h
      exact .inl (stepSubmit_deque s call)
  | loadFlag gen | loadPending gen =>
    simp only [hpc] at h
    split_ifs at h <;> obtain rfl := Option.some.inj h <;> exact .inl rfl
  | wait gen =>
    simp only [hpc] at h
    split_ifs at h
    obtain rfl := Option.some.inj h
    exact .inl rfl
  | exited => simp [hpc] at h
  | current | uncount | ring =>
    simp only [hpc, Option.some.injEq] at h
    subst h
    exact .inl rfl

theorem step_deque [DecidableEq ω] {l : Label N ω} (h : step s l = some s') :
    s'.deque = s.deque ∨
      ∃ w v p d, s'.deque = (s.setDeque w v p d).deque ∧ DequeStep s w v p d := by
  cases l with
  | worker w =>
    rcases stepWorker_deque h with hd | ⟨v, p, d, hd, hst⟩
    · exact .inl hd
    · exact .inr ⟨w, v, p, d, hd, hst⟩
  | client | nested | finish | shutdown =>
    simp only [step] at h
    split at h
    all_goals first
      | (obtain rfl := Option.some.inj h; exact .inl rfl)
      | exact absurd h (by simp)
  | clientStep c =>
    simp only [step] at h
    split at h
    · exact absurd h (by simp)
    · rename_i call _
      obtain rfl := Option.some.inj h
      exact .inl (stepSubmit_deque s call)
  | control =>
    simp only [step, stepControl] at h
    split at h
    · exact absurd h (by simp)
    · exact absurd h (by simp)
    · obtain rfl := Option.some.inj h
      exact .inl rfl
    · obtain rfl := Option.some.inj h
      exact .inl rfl
    · split_ifs at h
      obtain rfl := Option.some.inj h
      exact .inl rfl

/-! ## No deque grows -/

/-- A worker that pulls a batch has empty deques. -/
theorem Linked.inject_room (hl : Linked s) (ho : Own s) {gen : ℕ} {ps : List Priority}
    (hpc : s.worker w = .inject gen ps) (p : Priority) :
    (s.deque w p).bottom - (s.deque w p).top = 0 := by
  have hi := hl.sound w p
  have hidle : (s.deque w p).owner = .idle := hl.own_idle (by simp [hpc])
  have hitems : ChaseLev.items (s.deque w p) = [] := by
    have he := ho.emptied w
    rw [hpc] at he
    exact he p
  have hlen := length_items hi
  have hlb : (s.deque w p).lb = (s.deque w p).bottom := by simp only [State.lb, hidle]
  rw [hitems, hlb] at hlen
  simp only [List.length_nil, Nat.cast_zero] at hlen
  omega

theorem DequeStep.ungrown {d : ChaseLev.State (Fin N) ℕ} (h : DequeStep s w v p d) (hl : Linked s)
    (ho : Own s) (hc : kInjectorBatchSize - 1 ≤ c) (hu : Ungrown c (s.deque v p)) :
    Ungrown c d := by
  cases h with
  | pop hpc hv hst =>
    subst hv
    exact popStep_ungrown hu (hl.not_pushing v p) hst
  | steal hpc hst => exact stealStep_ungrown hu hst
  | batch hpc hv hst =>
    subst hv
    have hroom := hl.inject_room ho hpc p
    obtain ⟨r, queue, d', hd, hu', -⟩ := popBatchInto_ungrown hu (n := kInjectorBatchSize)
      (by omega) (s.injector p)
    rw [hst] at hd
    simp only [Option.some.injEq, Prod.mk.injEq] at hd
    exact hd.2.2 ▸ hu'

theorem reachable_ungrown [DecidableEq ω] (h : (machine N ω).Reachable s) (v : Fin N)
    (p : Priority) : Ungrown defaultCapacity (s.deque v p) := by
  refine h.invariant (I := fun s => ∀ v p, Ungrown defaultCapacity (s.deque v p))
    (fun s h₀ v p => ?_)
    (fun s l s' hr _ hst hu v p => ?_) v p
  · have h₀ : construct N ω = some s := h₀
    unfold construct at h₀
    split at h₀
    · exact absurd h₀ (by simp)
    · obtain ⟨d, hd, rfl⟩ := Option.map_eq_some_iff.mp h₀
      unfold ChaseLev.construct at hd
      split at hd
      · exact absurd hd (by simp)
      · rename_i cap hcap
        obtain ⟨buf, hbuf, rfl⟩ := Option.map_eq_some_iff.mp hd
        have hcap' : roundUpPow2 defaultCapacity = some defaultCapacity := by decide
        obtain rfl := Option.some.inj (hcap.symm.trans hcap')
        exact ⟨rfl, rfl, (Buffer.make_eq_some hbuf).1⟩
  · rcases step_deque hst with hd | ⟨w, v', p', d, hd, hds⟩
    · rw [hd]
      exact hu v p
    · rw [hd]
      by_cases hv : v = v'
      · by_cases hp : p = p'
        · rw [hv, hp]
          simp only [State.setDeque, Function.update_self]
          exact hds.ungrown (reachable_linked hr.reachable) (reachable_own hr.reachable)
            (by decide) (hu v' p')
        · rw [hv]
          simp only [State.setDeque, Function.update_self, Function.update_of_ne hp]
          exact hu v' p
      · simp only [State.setDeque, Function.update_of_ne hv]
        exact hu v p

/-- **The local deques never grow.** In every reachable state each of them has its first buffer, of
`256` slots, and those of one worker hold at most `kInjectorBatchSize - 1` jobs together, so
whatever an injector holds, the batch pull a worker is before gets through without a `grow`. -/
theorem local_deques [DecidableEq ω] (h : (machine N ω).Reachable s) :
    (∀ v p, (s.deque v p).allocated = 1 ∧
      ((s.deque v p).heap (s.deque v p).buffer).capacity = defaultCapacity) ∧
    (∀ v, ∑ p, (remaining (s.deque v p)).length ≤ kInjectorBatchSize - 1) ∧
    ∀ w gen p ps, s.worker w = .inject gen (p :: ps) →
      (popBatchInto (s.injector p) (s.deque w p) kInjectorBatchSize).isSome := by
  have hl := reachable_linked h
  have ho := reachable_own h
  have hu := reachable_ungrown h
  refine ⟨fun v p => ⟨(hu v p).allocated, ?_⟩, fun v => ?_, fun w gen p ps hpc => ?_⟩
  · rw [(hu v p).buffer]
    exact (hu v p).capacity
  · refine (Finset.sum_le_sum fun p _ => ?_).trans (ho.batch v)
    have hlen : ((s.adeque v p).items.length : ℤ) = (s.deque v p).lb - (s.deque v p).top :=
      length_items (hl.sound v p)
    have hnear := (hl.sound v p).bottom_near
    rw [remaining, length_slice]
    unfold stock
    omega
  · have hroom := hl.inject_room ho hpc p
    have hsize : kInjectorBatchSize - 1 ≤ defaultCapacity := by decide
    obtain ⟨r, queue, d, hd, -⟩ := popBatchInto_ungrown (hu w p) (n := kInjectorBatchSize)
      (by omega) (s.injector p)
    rw [hd]
    rfl

/-- `33` jobs are submitted, then the only worker takes the first of them. -/
def pullBatch : List (Label 1 Unit) :=
  (List.replicate 33 (.client () .normal :: List.replicate 4 (.clientStep ()))).flatten ++
    List.replicate (1 + (3 * 7 + 1) + 2) (.worker ⟨0, Nat.one_pos⟩)

/-- The bound is met: `31` jobs in the deque, and one that the batch has left in the injector. -/
theorem local_deques_full : ∃ s : State 1 Unit, (remaining (s.deque 0 .normal)).length = 31 ∧
    s.injector .normal = [32] ∧ (s.deque 0 .normal).allocated = 1 ∧
    ∑ p, (remaining (s.deque 0 p)).length ≤ 31 := by
  let s₀ : State 1 Unit := (construct 1 Unit).get (by decide)
  let s := ((machine 1 Unit).exec s₀ pullBatch).get (by decide +kernel)
  have hreach : (machine 1 Unit).Reachable s :=
    Machine.reachable_of_exec (s := s₀) (Option.some_get _).symm (Option.some_get _).symm
  obtain ⟨hfirst, hbatch, -⟩ := local_deques hreach
  exact ⟨s, by decide +kernel, by decide +kernel, (hfirst 0 .normal).1, hbatch 0⟩

end Wss.WorkStealing
