import Wss.Fair.Account
import Mathlib.Algebra.Field.Rat
import Mathlib.Algebra.Order.Ring.Rat

/-!
# What a `join` says about the accounts of a class

The result of a job is delivered inside the job, its class accounts for it in a later critical
section of the worker. A `join` that returns in between is ahead of `fairness_snapshot`, unlike for
the counter `tasks_completed`, which `spawn` bumps before it delivers.

Results:
* `join_ahead`: a `join` can be ahead of the accounts.
* `join_visible`: this window is the only way for it.
-/

namespace Wss.Fair

open Wss.Lib

variable {R : Type} {N : ℕ} {ω : Type}

/-- `fairness_snapshot` reports for every class at least the tasks that were joined. -/
def JoinVisible (s : State R N ω) : Prop :=
  ∀ id, (valuesAt id s.joined).length ≤ ((fairnessSnapshot s.tables)[id]?).elim 0 (·.completed)

/-- A `join` returns only when no worker has the task in flight. -/
def JoinSettled (s : State R N ω) : Label R N ω → Prop
  | .join id job => ∀ w, (s.worker w).flying ≠ some (id, job)
  | _ => True

instance (s : State R N ω) (l : Label R N ω) : Decidable (JoinSettled s l) :=
  match l with
  | .join id job => inferInstanceAs (Decidable (∀ w, (s.worker w).flying ≠ some (id, job)))
  | .client .. | .clientStep .. | .register .. | .nested .. | .finish .. | .worker .. | .account ..
  | .shutdown | .control => inferInstanceAs (Decidable True)

/-- What was joined is accounted for. -/
structure Joins (s : State R N ω) : Prop where
  delivered : ∀ x ∈ s.delivered, (∃ w, (s.worker w).flying = some x) ∨ x ∈ s.settled
  joined : ∀ x ∈ s.joined, x ∈ s.settled
  nodup : s.joined.Nodup

variable {s s' : State R N ω} {w : Fin N} {pc : WorkerPc R}

/-- A step of worker `w` that keeps the job it has in flight. -/
theorem Joins.worker (hj : Joins s) (hw : s'.worker = Function.update s.worker w pc)
    (hfly : ∀ x, (s.worker w).flying = some x → pc.flying = some x)
    (hdel : ∀ x ∈ s'.delivered, x ∈ s.delivered ∨ pc.flying = some x)
    (hacc : s'.accounted = s.accounted) (hjoined : s'.joined = s.joined) : Joins s' where
  delivered x hx := by
    have hself : s'.worker w = pc := by rw [hw, Function.update_self]
    rcases hdel x hx with h | h
    · rcases hj.delivered x h with ⟨u, hu⟩ | h
      · refine .inl ?_
        by_cases huw : u = w
        · exact ⟨w, hself ▸ hfly x (huw ▸ hu)⟩
        · exact ⟨u, by rw [hw, Function.update_of_ne huw, hu]⟩
      · exact .inr (by rw [State.settled, hacc]; exact h)
    · exact .inl ⟨w, hself ▸ h⟩
  joined x hx := by
    rw [State.settled, hacc]
    exact hj.joined x (hjoined ▸ hx)
  nodup := hjoined ▸ hj.nodup

theorem Joins.congr (hj : Joins s) (hw : s'.worker = s.worker) (hdel : s'.delivered = s.delivered)
    (hacc : s'.accounted = s.accounted) (hjoined : s'.joined = s.joined) : Joins s' where
  delivered := by rw [hdel, hw, State.settled, hacc]; exact hj.delivered
  joined := by rw [hjoined, State.settled, hacc]; exact hj.joined
  nodup := hjoined ▸ hj.nodup

section Moves

variable [Zero R] [One R] [Add R] [Div R] [LE R] [LT R] [DecidableLT R] [DecidableEq ω]
  {l : Label R N ω}

/-- **Every step keeps `Joins`, if its `join` is settled.** -/
theorem Move.joins (hj : Joins s) (hok : JoinSettled s l) (h : Move s l s') : Joins s' := by
  cases h with
  | client | register | shutdown | store | controlRing | joinWorker =>
    exact hj.congr rfl rfl rfl rfl
  | clientStep hc hsub =>
    obtain ⟨hw, -, -, -, -, -, -, hdel, hjoined, hacc⟩ := hsub.frame
    exact hj.congr hw hdel hacc hjoined
  | @nestedStep w id job call call' s₁ hw hsub =>
    obtain ⟨hwk, -, -, -, -, -, -, hdel, hjoined, hacc⟩ := hsub.frame
    refine hj.worker (congrArg (Function.update · w _) hwk) (fun x h => ?_)
      (fun x h => .inl (hdel ▸ h)) hacc hjoined
    rw [hw] at h
    exact h
  | nested hw | finish hw | uncount hw | ring hw =>
    exact hj.worker rfl (fun x h => by rw [hw] at h; exact h) (fun x h => .inl h) rfl rfl
  | current hw | noJob hw | take hw | flag hw | noFlag hw | noPending hw | pending hw | wake hw =>
    exact hj.worker rfl (fun x h => by rw [hw] at h; exact absurd h (by simp [WorkerPc.flying]))
      (fun x h => .inl h) rfl rfl
  | deliver hw =>
    refine hj.worker rfl (fun x h => by rw [hw] at h; exact h) (fun x h => ?_) rfl rfl
    rcases List.mem_append.mp h with h | h
    · exact .inl h
    · exact .inr (by rw [List.mem_singleton.mp h]; rfl)
  | @account w id job elapsed t hw hc =>
    have hset : ∀ x, x ∈ s.settled ∨ x = (id, job) →
        x ∈ (s.accounted ++ [(id, job, elapsed)]).map fun x => (x.1, x.2.1) := fun x h => by
      rw [List.map_append]
      exact List.mem_append.mpr (h.imp_right fun h => by simp [h])
    refine ⟨fun x hx => ?_, fun x hx => hset x (.inl (hj.joined x hx)), hj.nodup⟩
    rcases hj.delivered x hx with ⟨u, hu⟩ | h
    · by_cases huw : u = w
      · rw [huw, hw] at hu
        exact .inr (hset x (.inr (Option.some.inj hu).symm))
      · exact .inl ⟨u, by rw [setWorker_of_ne _ _ huw]; exact hu⟩
    · exact .inr (hset x (.inl h))
  | @join id job hdel hnot =>
    refine ⟨hj.delivered, fun x hx => ?_, ?_⟩
    · rcases List.mem_append.mp hx with h | h
      · exact hj.joined x h
      · rw [List.mem_singleton.mp h]
        rcases hj.delivered _ hdel with ⟨w, hw⟩ | h
        · exact absurd hw (hok w)
        · exact h
    · have := hj.nodup.concat hnot
      rwa [List.concat_eq_append] at this

theorem reachable_joins [DecidableLE R] (h : (machine R N ω).ReachableUnder JoinSettled s) :
    Joins s := by
  refine h.invariant (fun s hs => ?_) fun _ _ _ _ hok hst hj => (step_move hst).joins hj hok
  simp only [machine, construct] at hs
  split_ifs at hs
  obtain rfl := Option.some.inj hs
  exact ⟨by simp, by simp, List.nodup_nil⟩

end Moves

/-- **A completed join is visible in the accounts of its class, if no join returns while a worker
still has the task in flight.** -/
theorem join_visible [Fintype ω] [DecidableEq ω] {s : State ℚ N ω}
    (h : (machine ℚ N ω).ReachableUnder JoinSettled s) : JoinVisible s := fun id => by
  have hj := reachable_joins h
  have ha := reachable_account h.reachable
  have hsub : s.joined.Subperm s.settled := List.subperm_of_subset hj.nodup hj.joined
  have hsnap : ((fairnessSnapshot s.tables)[id]?).elim 0 (·.completed) = s.tables.completed id := by
    rw [fairnessSnapshot, List.getElem?_map, Tables.completed]
    cases s.tables.classes[id]? <;> rfl
  have hlen : (valuesAt id s.settled).length = (valuesAt id s.times).length := by
    rw [State.settled, State.times, valuesAt_map (f := Prod.fst), valuesAt_map (f := Prod.snd),
      List.length_map, List.length_map]
  rw [hsnap, ha.completed, ← hlen, length_valuesAt, length_valuesAt]
  exact hsub.countP_le _

/-- One worker runs a task and delivers its result. -/
def deliverOne : List (Label ℚ 1 Unit) :=
  let w : Fin 1 := ⟨0, Nat.one_pos⟩
  [.client () ⟨"", 1⟩] ++ List.replicate 4 (.clientStep ()) ++
    [.worker w, .worker w, .finish w, .worker w]

/-- The worker accounts for the task before it is joined. -/
def joinLate : List (Label ℚ 1 Unit) :=
  let w : Fin 1 := ⟨0, Nat.one_pos⟩
  deliverOne ++ [.worker w, .worker w, .account w (1 / 2), .join 0 0]

theorem join_visible_one : ∃ s : State ℚ 1 Unit,
    (machine ℚ 1 Unit).ReachableUnder JoinSettled s ∧ s.joined = [(0, 0)] ∧ JoinVisible s := by
  let s₀ : State ℚ 1 Unit := (construct ℚ 1 Unit).get (by decide)
  let s := ((machine ℚ 1 Unit).execUnder JoinSettled s₀ joinLate).get (by decide +kernel)
  have hex : (machine ℚ 1 Unit).execUnder JoinSettled s₀ joinLate = some s :=
    (Option.some_get _).symm
  have hreach : (machine ℚ 1 Unit).ReachableUnder JoinSettled s :=
    ⟨joinLate, s₀, (Option.some_get _).symm, Machine.execUnder_path hex⟩
  exact ⟨s, hreach, by decide +kernel, join_visible hreach⟩

theorem join_ahead : ¬ ∀ s : State ℚ 1 Unit, (machine ℚ 1 Unit).Reachable s → JoinVisible s := by
  intro h
  let s₀ : State ℚ 1 Unit := (construct ℚ 1 Unit).get (by decide)
  let s := ((machine ℚ 1 Unit).exec s₀ (deliverOne ++ [.join 0 0])).get (by decide +kernel)
  have hs := h s (Machine.reachable_of_exec (s := s₀) (Option.some_get _).symm
    (Option.some_get _).symm)
  exact absurd (hs 0) (by decide +kernel)

end Wss.Fair
