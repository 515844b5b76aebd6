import Wss.ChaseLev.Failure
import Wss.WorkStealing.Injector

/-!
# `Injector::pop_batch_into` with a failing allocation

`popBatchInto` of `Injector.lean` as a program that may throw, on the queue and the deque it moves
jobs to. A `Job` can be moved from, and is empty (`none`) afterwards. The argument of `dest.push` is
moved out of the front of the queue before `push` allocates, and the front is popped after it.

Results:
* `popBatchIntoOrThrow_returns`: a call that returns is that of `Injector.lean`.
* `popBatchIntoOrThrow_throws`: where the push of a job throws, the job is lost, an empty one is
  left at the front of the queue, and the job that was popped first is lost with the call.
* `batch_loses_jobs`: so a call that throws never keeps the jobs.
-/

namespace Wss.WorkStealing

open Wss.Lib ChaseLev

variable {ι T : Type}

/-- A `Job`, `none` where it is empty. -/
abbrev Job (T : Type) := Option T

/-- The queue of the injector, and the deque its jobs are moved to. -/
structure Batch (ι T : Type) where
  queue : List (Job T)
  dest : Memory ι (Job T)

/-- A part of `pop_batch_into`. -/
abbrev Pulling (ι T α : Type) := ExceptT BadAlloc (StateT (Batch ι T) Option) α

/-- `dest.push`. -/
def pushDest (fail : Option ChaseLev.Site) (job : Job T) : Pulling ι T Unit :=
  zoom Batch.dest (fun dest s => { s with dest }) (pushOrThrow fail job)

/-- The loop of `pop_batch_into`, with `n` jobs left to move. In the `j`-th push the allocation at
`fail j` throws. -/
def moveBatchOrThrow (fail : ℕ → Option ChaseLev.Site) : ℕ → ℕ → Pulling ι T Unit
  | 0, _ => pure ()
  | n + 1, j => do
    let s ← get
    match s.queue with
    | [] => pure ()
    | job :: queue =>
      modify fun s => { s with queue := none :: queue }
      pushDest (fail j) job
      modify fun s => { s with queue := s.queue.tail }
      moveBatchOrThrow fail n (j + 1)

/-- `Injector::pop_batch_into`. -/
def popBatchIntoOrThrow (fail : ℕ → Option ChaseLev.Site) (maxBatch : ℕ) :
    Pulling ι T (Option (Job T)) := do
  let s ← get
  match s.queue with
  | [] => pure none
  | first :: queue =>
    modify fun s => { s with queue }
    moveBatchOrThrow fail (maxBatch - 1) 1
    pure (some first)

variable {s s' : Batch ι T} {fail : ℕ → Option ChaseLev.Site} {n j : ℕ} {e : BadAlloc}

/-! ## What the program does -/

theorem run_pushDest (f : Option ChaseLev.Site) (job : Job T) (s : Batch ι T) :
    (pushDest f job).run.run s = ((pushOrThrow f job).run.run s.dest).map fun p =>
      (p.1, { s with dest := p.2 }) := by
  rw [pushDest, run_zoom, Option.map_eq_bind]
  rfl

/-- One round of the loop. -/
theorem run_moveBatchOrThrow {job : Job T} {queue : List (Job T)} (hq : s.queue = job :: queue) :
    (moveBatchOrThrow fail (n + 1) j).run.run s = (pushDest (fail j) job >>= fun _ =>
      modify (fun s => { s with queue := s.queue.tail }) >>= fun _ =>
        moveBatchOrThrow fail n (j + 1)).run.run { s with queue := none :: queue } := by
  rw [moveBatchOrThrow, run_bind_ok run_get, hq]
  exact run_bind_ok (run_modify _)

theorem run_popBatchIntoOrThrow {first : Job T} {queue : List (Job T)}
    (hq : s.queue = first :: queue) :
    (popBatchIntoOrThrow fail n).run.run s = (moveBatchOrThrow fail (n - 1) 1 >>= fun _ =>
      pure (some first)).run.run { s with queue } := by
  rw [popBatchIntoOrThrow, run_bind_ok run_get, hq]
  exact run_bind_ok (run_modify _)

/-- A push that returns, and the pop of the front after it. -/
theorem pushDest_returns {f : Option ChaseLev.Site} {job : Job T}
    (h : (pushDest f job).run.run s = some (.ok (), s')) :
    push s.dest.deque job = some s'.dest.deque ∧ s'.queue = s.queue := by
  rw [run_pushDest] at h
  obtain ⟨⟨r, dest⟩, hrun, heq⟩ := Option.map_eq_some_iff.mp h
  obtain ⟨rfl, rfl⟩ := Prod.mk.inj heq
  exact ⟨(pushOrThrow_returns hrun).1, rfl⟩

/-- A push that throws. -/
theorem pushDest_throws {f : Option ChaseLev.Site} {job : Job T}
    (h : (pushDest f job).run.run s = some (.error e, s')) :
    (∃ site, Thrown s.dest site s'.dest) ∧ s'.queue = s.queue := by
  rw [run_pushDest] at h
  obtain ⟨⟨r, dest⟩, hrun, heq⟩ := Option.map_eq_some_iff.mp h
  obtain ⟨rfl, rfl⟩ := Prod.mk.inj heq
  cases f with
  | none =>
    rw [pushOrThrow_completes] at hrun
    obtain ⟨_, -, heq⟩ := Option.map_eq_some_iff.mp hrun
    exact absurd heq nofun
  | some site => exact ⟨⟨site, pushOrThrow_throws hrun⟩, rfl⟩

theorem moveBatchOrThrow_returns : ∀ {n j : ℕ} {s : Batch ι T},
    (moveBatchOrThrow fail n j).run.run s = some (.ok (), s') →
    moveBatch n s.queue s.dest.deque = some (s'.queue, s'.dest.deque)
  | 0, _, s, h => by
    obtain ⟨-, rfl⟩ := Prod.mk.inj (Option.some.inj h)
    rfl
  | n + 1, j, s, h => by
    cases hq : s.queue with
    | nil =>
      rw [moveBatchOrThrow, run_bind_ok run_get, hq] at h
      obtain ⟨-, rfl⟩ := Prod.mk.inj (Option.some.inj h)
      rw [hq]
      rfl
    | cons job queue =>
      rw [run_moveBatchOrThrow hq] at h
      obtain ⟨_, s₁, hpush, h⟩ := run_bind_eq_ok h
      rw [run_bind_ok (run_modify _)] at h
      obtain ⟨hdeque, hqueue⟩ := pushDest_returns hpush
      have hrest := moveBatchOrThrow_returns h
      rw [hqueue] at hrest
      rw [moveBatch, hdeque]
      exact hrest

/-- **A call that returns is the call of `Injector.lean`.** -/
theorem popBatchIntoOrThrow_returns {r : Option (Job T)}
    (h : (popBatchIntoOrThrow fail n).run.run s = some (.ok r, s')) :
    popBatchInto s.queue s.dest.deque n = some (r, s'.queue, s'.dest.deque) := by
  cases hq : s.queue with
  | nil =>
    rw [popBatchIntoOrThrow, run_bind_ok run_get, hq] at h
    obtain ⟨hr, rfl⟩ := Prod.mk.inj (Option.some.inj h)
    obtain rfl := Except.ok.inj hr
    rw [hq]
    rfl
  | cons first queue =>
    rw [run_popBatchIntoOrThrow hq] at h
    obtain ⟨_, s₁, hmove, h⟩ := run_bind_eq_ok h
    obtain ⟨hr, rfl⟩ := Prod.mk.inj (Option.some.inj h)
    obtain rfl := Except.ok.inj hr
    rw [popBatchInto, moveBatchOrThrow_returns hmove]
    rfl

/-! ## A call that throws -/

section Throws

variable [DecidableEq ι] [DecidableEq T]

/-- Where a push throws, the jobs before it are in the deque, and its own is in neither. -/
theorem moveBatchOrThrow_throws : ∀ {n j : ℕ} {s : Batch ι T}, Inv s.dest.deque →
    s.dest.deque.owner = .idle →
    (moveBatchOrThrow fail n j).run.run s = some (.error e, s') →
    ∃ moved job rest, s.queue = moved ++ job :: rest ∧ s'.queue = none :: rest ∧
      items s'.dest.deque = items s.dest.deque ++ moved
  | 0, _, s, _, _, h => absurd h nofun
  | n + 1, j, s, hi, hpc, h => by
    cases hq : s.queue with
    | nil =>
      rw [moveBatchOrThrow, run_bind_ok run_get, hq] at h
      exact absurd h nofun
    | cons job queue =>
      rw [run_moveBatchOrThrow hq] at h
      rcases run_bind_eq_error h with hpush | ⟨_, s₁, hpush, h⟩
      · obtain ⟨⟨site, ht⟩, hqueue⟩ := pushDest_throws hpush
        refine ⟨[], job, queue, rfl, hqueue, ?_⟩
        rw [List.append_nil]
        exact (ht.same hi hpc).items
      · rw [run_bind_ok (run_modify _)] at h
        obtain ⟨hdeque, hqueue⟩ := pushDest_returns hpush
        obtain ⟨hi₁, hpc₁, ha⟩ := push_refines hi hpc hdeque
        have hitems : items s₁.dest.deque = items s.dest.deque ++ [job] :=
          congrArg Atomic.Deque.items ha
        obtain ⟨moved, lost, rest, hrest, hs', hmoved⟩ :=
          moveBatchOrThrow_throws (s := { s₁ with queue := s₁.queue.tail }) hi₁ hpc₁ h
        rw [hqueue] at hrest
        refine ⟨job :: moved, lost, rest, congrArg (job :: ·) hrest, hs', ?_⟩
        rw [hmoved, hitems, List.append_assoc, List.singleton_append]

/-- **A call that throws loses two jobs, and leaves an empty one at the front of the queue.** -/
theorem popBatchIntoOrThrow_throws (hi : Inv s.dest.deque) (hpc : s.dest.deque.owner = .idle)
    (h : (popBatchIntoOrThrow fail n).run.run s = some (.error e, s')) :
    ∃ first moved job rest, s.queue = first :: (moved ++ job :: rest) ∧
      s'.queue = none :: rest ∧ items s'.dest.deque = items s.dest.deque ++ moved := by
  cases hq : s.queue with
  | nil =>
    rw [popBatchIntoOrThrow, run_bind_ok run_get, hq] at h
    exact absurd h nofun
  | cons first queue =>
    rw [run_popBatchIntoOrThrow hq] at h
    rcases run_bind_eq_error h with hmove | ⟨_, _, -, h⟩
    · obtain ⟨moved, job, rest, hqueue, hs', hitems⟩ :=
        moveBatchOrThrow_throws (s := { s with queue }) hi hpc hmove
      exact ⟨first, moved, job, rest, congrArg (first :: ·) hqueue, hs', hitems⟩
    · exact absurd h nofun

end Throws

/-- Every job of the queue is still there or has been appended to the deque, in order, and the queue
has no empty one. -/
structure KeepsJobs (s s' : Batch ι T) : Prop where
  kept : ∃ moved, items s'.dest.deque = items s.dest.deque ++ moved ∧ moved.Sublist s.queue ∧
    (moved ++ s'.queue).Perm s.queue
  order : s'.queue.Sublist s.queue
  full : ∀ job ∈ s'.queue, job.isSome

variable [DecidableEq ι] [DecidableEq T] {c : ℕ}

/-- **A call that throws never keeps the jobs of the queue.** -/
theorem batch_loses_jobs (hd : (ChaseLev.failing ι (Job T) c).ReachableUnder Spared s.dest)
    (hpc : s.dest.deque.owner = .idle)
    (h : (popBatchIntoOrThrow fail n).run.run s = some (.error e, s')) : ¬ KeepsJobs s s' := by
  rintro ⟨⟨moved', hitems', -, hperm⟩, -, -⟩
  obtain ⟨first, moved, job, rest, hqueue, hs', hitems⟩ :=
    popBatchIntoOrThrow_throws (reachable_sound hd).inv hpc h
  obtain rfl := List.append_cancel_left (hitems'.symm.trans hitems)
  have hlen := hperm.length_eq
  rw [hqueue, hs'] at hlen
  simp only [List.length_append, List.length_cons] at hlen
  omega

theorem batch_loses_jobs_two : ∃ s s' : Batch Unit ℕ, s.queue = [some 1, some 2] ∧
    s'.queue = [none] ∧ items s'.dest.deque = [] ∧ ¬ KeepsJobs s s' := by
  let d₀ : State Unit (Job ℕ) := (construct 256).get (by decide +kernel)
  have h₀ : construct 256 = some d₀ := (Option.some_get _).symm
  let s : Batch Unit ℕ := ⟨[some 1, some 2], ⟨d₀, []⟩⟩
  let r := ((popBatchIntoOrThrow (fun _ => some .box) 32).run.run s).get (by decide +kernel)
  have hd : (ChaseLev.failing Unit (Job ℕ) 256).ReachableUnder Spared s.dest :=
    ⟨[], s.dest, ⟨h₀, rfl⟩, .nil⟩
  have hr : r = (.error .badAlloc, r.2) := Prod.ext (by decide +kernel) rfl
  have hrun : (popBatchIntoOrThrow (fun _ => some .box) 32).run.run s = some r :=
    (Option.some_get _).symm
  exact ⟨s, r.2, rfl, by decide +kernel, by decide +kernel,
    batch_loses_jobs hd (by rfl) (hrun.trans (congrArg some hr))⟩

/-- The second push of a batch of four throws: an empty job is left in the queue. -/
theorem not_keeps_jobs : ¬ ∀ (s s' : Batch Unit ℕ) (fail : ℕ → Option ChaseLev.Site) (n : ℕ)
    (e : BadAlloc), (ChaseLev.failing Unit (Job ℕ) 256).ReachableUnder Spared s.dest →
    s.dest.deque.owner = .idle → (∀ job ∈ s.queue, job.isSome) →
    (popBatchIntoOrThrow fail n).run.run s = some (.error e, s') → KeepsJobs s s' := by
  intro hall
  let d₀ : State Unit (Job ℕ) := (construct 256).get (by decide +kernel)
  have h₀ : construct 256 = some d₀ := (Option.some_get _).symm
  let s : Batch Unit ℕ := ⟨[some 1, some 2, some 3, some 4], ⟨d₀, []⟩⟩
  let fail : ℕ → Option ChaseLev.Site := fun j => if j = 2 then some .box else none
  let r := ((popBatchIntoOrThrow fail 32).run.run s).get (by decide +kernel)
  have hd : (ChaseLev.failing Unit (Job ℕ) 256).ReachableUnder Spared s.dest :=
    ⟨[], s.dest, ⟨h₀, rfl⟩, .nil⟩
  have hr : r = (.error .badAlloc, r.2) := Prod.ext (by decide +kernel) rfl
  have hrun : (popBatchIntoOrThrow fail 32).run.run s = some r := (Option.some_get _).symm
  have hkeeps := hall s r.2 fail 32 .badAlloc hd (by rfl) (by decide)
    (hrun.trans (congrArg some hr))
  have hqueue : r.2.queue = [none, some 4] := by decide +kernel
  exact absurd (hkeeps.full none (hqueue ▸ List.mem_cons_self)) nofun

end Wss.WorkStealing
