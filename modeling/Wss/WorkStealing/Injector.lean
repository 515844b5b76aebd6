import Wss.ChaseLev.Sequential

/-!
# `Injector`

Model of `src/injector.cpp`. The injector is a queue under a mutex, so `push` and `pop_batch_into`
are one critical section, one step, each. `push` appends to the queue. `popBatchInto` is
`pop_batch_into`, whose pushes into the caller's deque fall into its critical section.

Results:
* `popBatchInto_refines`: the jobs taken from the front of the queue are, in order, the caller's and
  those appended to its deque.
-/

namespace Wss.WorkStealing

open Wss.Lib ChaseLev

variable {ι T : Type}

/-- The loop of `pop_batch_into`, with `n` jobs left to move: the queue and the deque after it. -/
def moveBatch : ℕ → List T → State ι T → Option (List T × State ι T)
  | 0, queue, dest => some (queue, dest)
  | _ + 1, [], dest => some ([], dest)
  | n + 1, job :: queue, dest => (push dest job).bind fun dest => moveBatch n queue dest

/-- `Injector::pop_batch_into`: the job for the caller, the queue and the deque after it, `none`
where a push fails. -/
def popBatchInto (queue : List T) (dest : State ι T) (maxBatch : ℕ) :
    Option (Option T × List T × State ι T) :=
  match queue with
  | [] => some (none, [], dest)
  | first :: queue =>
    (moveBatch (maxBatch - 1) queue dest).map fun (queue, dest) => (some first, queue, dest)

variable [DecidableEq ι] [DecidableEq T] {dest dest' : State ι T} {queue queue' : List T}

theorem moveBatch_refines : ∀ {n : ℕ} {queue : List T} {dest : State ι T}, Inv dest →
    dest.owner = .idle → moveBatch n queue dest = some (queue', dest') →
      Inv dest' ∧ dest'.owner = .idle ∧ ∃ moved, queue = moved ++ queue' ∧ moved.length ≤ n ∧
        toAtomic dest' = { toAtomic dest with items := (toAtomic dest).items ++ moved }
  | 0, queue, dest, hi, hpc, h => by
    obtain ⟨rfl, rfl⟩ := Prod.mk.inj (Option.some.inj h)
    exact ⟨hi, hpc, [], rfl, le_rfl, by rw [List.append_nil]⟩
  | _ + 1, [], dest, hi, hpc, h => by
    obtain ⟨rfl, rfl⟩ := Prod.mk.inj (Option.some.inj h)
    exact ⟨hi, hpc, [], rfl, Nat.zero_le _, by rw [List.append_nil]⟩
  | n + 1, job :: queue, dest, hi, hpc, h => by
    obtain ⟨d₁, h₁, h⟩ := Option.bind_eq_some_iff.mp h
    obtain ⟨hi₁, hpc₁, ha₁⟩ := push_refines hi hpc h₁
    obtain ⟨hi', hpc', moved, rfl, hlen, ha'⟩ := moveBatch_refines hi₁ hpc₁ h
    refine ⟨hi', hpc', job :: moved, rfl, Nat.succ_le_succ hlen, ?_⟩
    rw [ha', ha₁]
    simp only [List.append_assoc, List.singleton_append]

/-- **A batch loses no job and keeps their order.** -/
theorem popBatchInto_refines {n : ℕ} {r : Option T} (hi : Inv dest) (hpc : dest.owner = .idle)
    (h : popBatchInto queue dest n = some (r, queue', dest')) :
    Inv dest' ∧ dest'.owner = .idle ∧
      ((r = none ∧ queue = [] ∧ queue' = [] ∧ dest' = dest) ∨
        ∃ job moved, r = some job ∧ queue = job :: (moved ++ queue') ∧ moved.length ≤ n - 1 ∧
          toAtomic dest' = { toAtomic dest with items := (toAtomic dest).items ++ moved }) := by
  unfold popBatchInto at h
  split at h
  · simp only [Option.some.injEq, Prod.mk.injEq] at h
    obtain ⟨rfl, rfl, rfl⟩ := h
    exact ⟨hi, hpc, .inl ⟨rfl, rfl, rfl, rfl⟩⟩
  · rename_i first queue
    obtain ⟨⟨q, d⟩, hm, h⟩ := Option.map_eq_some_iff.mp h
    simp only [Prod.mk.injEq] at h
    obtain ⟨rfl, rfl, rfl⟩ := h
    obtain ⟨hi', hpc', moved, rfl, hlen, ha⟩ := moveBatch_refines hi hpc hm
    exact ⟨hi', hpc', .inr ⟨first, moved, rfl, rfl, hlen, ha⟩⟩

end Wss.WorkStealing
