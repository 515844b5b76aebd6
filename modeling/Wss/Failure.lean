import Wss.WorkStealing.Failure
import Wss.Fair.Failure
import Mathlib.Algebra.Field.Rat
import Mathlib.Algebra.Order.Ring.Rat

/-!
# A failed `submit`

`pending` is raised before anything that may throw, and nothing lowers it again where something
does.

Results:
* `failed_submit_restores`: a call of which an allocation fails leaves its scheduler as it was
  exactly if it does not make that allocation, so no call that throws does. A call of
  `WorkStealingScheduler` wraps its job in any case, and its queue may have room; one of
  `FairScheduler` allocates for a new class and for the entry of a class only where it needs them,
  and elsewhere what `Library` says.
* `not_failed_submit_restores`: in a new scheduler of either kind there is such a call that throws.
-/

namespace Wss

open Lib

variable {N : ℕ} {ω : Type} [DecidableEq ω]

/-- **A call of `submit` leaves the scheduler as it was exactly if it does not make the failing
allocation.** -/
theorem failed_submit_restores (R : Type) [Field R] [LinearOrder R] [IsStrictOrderedRing R] :
    (∀ s, (WorkStealing.failing N ω).Reachable s → ∀ room job p site,
      WorkStealing.Restores room s job p site ↔ ¬ WorkStealing.Allocates room site) ∧
    ∀ s, (Fair.failing R N ω).Reachable s → ∀ lib job opts site,
      Fair.Restores lib s job opts site ↔ ¬ Fair.Allocates lib s.tables opts site :=
  ⟨fun _ _ _ _ _ _ => WorkStealing.restores_iff, fun _ hs _ _ _ _ =>
    Fair.restores_iff (Fair.reachable_named hs)⟩

/-- A library that stores a short name in place and begins a deque with a node, in a call that finds
no capacity left in `classes_`. -/
def shortName : Fair.Library ℚ := ⟨true, false, false, true, fun _ c => c⟩

/-- In a new scheduler, with room in the queue for the first job: only its closure is allocated. In
the other one the name of the default class is short, and the node of `name_to_id_` is allocated. -/
theorem failed_submit_restores_new :
    (∃ s : WorkStealing.State 1 Unit, (WorkStealing.failing 1 Unit).Reachable s ∧
      WorkStealing.Restores true s 0 .normal .queue ∧
      ¬ WorkStealing.Restores true s 0 .normal .wrap) ∧
    ∃ s : Fair.State ℚ 1 Unit, (Fair.failing ℚ 1 Unit).Reachable s ∧
      Fair.Restores shortName s 0 ⟨"", 1⟩ .className ∧
      ¬ Fair.Restores shortName s 0 ⟨"", 1⟩ .nameToId := by
  have hall := failed_submit_restores (N := 1) (ω := Unit) ℚ
  constructor
  · let s : WorkStealing.State 1 Unit := (WorkStealing.construct 1 Unit).get (by decide)
    have hs : (WorkStealing.failing 1 Unit).Reachable s := ⟨[], s, (Option.some_get _).symm, .nil⟩
    refine ⟨s, hs, (hall.1 s hs true 0 .normal .queue).mpr ?_, fun h => ?_⟩
    · exact fun h => Bool.noConfusion h
    · exact (hall.1 s hs true 0 .normal .wrap).mp h trivial
  · let s : Fair.State ℚ 1 Unit := (Fair.construct ℚ 1 Unit).get (by decide)
    have hs : (Fair.failing ℚ 1 Unit).Reachable s := ⟨[], s, (Option.some_get _).symm, .nil⟩
    refine ⟨s, hs, (hall.2 s hs shortName 0 ⟨"", 1⟩ .className).mpr ?_, fun h => ?_⟩
    · exact fun h => Bool.noConfusion h
    · exact (hall.2 s hs shortName 0 ⟨"", 1⟩ .nameToId).mp h rfl

/-- In a new scheduler, the closure of the first job cannot be made; in the other one, the first
class gets no name. -/
theorem not_failed_submit_restores :
    (¬ ∀ s : WorkStealing.State 1 Unit, (WorkStealing.failing 1 Unit).Reachable s →
      ∀ room job p site, WorkStealing.Restores room s job p site) ∧
    ¬ ∀ s : Fair.State ℚ 1 Unit, (Fair.failing ℚ 1 Unit).Reachable s →
      ∀ lib job opts site, Fair.Restores lib s job opts site := by
  constructor
  · intro h
    let s : WorkStealing.State 1 Unit := (WorkStealing.construct 1 Unit).get (by decide)
    have hs : (WorkStealing.failing 1 Unit).Reachable s := ⟨[], s, (Option.some_get _).symm, .nil⟩
    have ha : WorkStealing.Allocates true .wrap := trivial
    have hrun := WorkStealing.submit_throws s 0 .normal ha
    exact absurd (h s hs true 0 .normal .wrap _ hrun).1 (Nat.succ_ne_self _)
  · intro h
    let s : Fair.State ℚ 1 Unit := (Fair.construct ℚ 1 Unit).get (by decide)
    have hs : (Fair.failing ℚ 1 Unit).Reachable s := ⟨[], s, (Option.some_get _).symm, .nil⟩
    have ha : Fair.Allocates shortName s.tables ⟨"", 1⟩ .nameToId := rfl
    obtain ⟨t, ht, hrun⟩ := Fair.submit_throws 0 (Fair.reachable_named hs) ha
    obtain rfl := Option.some.inj ht
    have hclasses := (h s hs shortName 0 ⟨"", 1⟩ .nameToId _ hrun).2.2.1
    exact absurd (congrArg List.length hclasses) (by decide +kernel)

end Wss
