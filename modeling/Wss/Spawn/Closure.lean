import Wss.Lib.Throwing
import Mathlib.Data.Nat.Notation
import Mathlib.Data.List.Basic

/-!
# The closure that `spawn` submits

Model of the lambda in `spawn` of `include/wss/scheduler.hpp`, with `include/wss/result.hpp` and
`ResultSetter::set` of `include/wss/join_handle.hpp`. It runs the user's code: the body of the task
and, where the task returns a value, the move constructor of its type. Both may throw. The closure
is a program in a monad of exceptions over what it does that others can see.

* The value of a task goes through four moves: into the parameter of `Result::ok`, into that of the
  constructor, into the variant, and in `set` into the handle. The first three come after
  `record_completed` and before the handle is touched; where the last one throws, the handle stays
  empty. The results of calls are constructed in place.
* The error result is built without throwing: its parts are a string and an `exception_ptr`.

Results:
* `run_ok`: what the closure of a task does that behaves.
* `accounted_iff`: every task is accounted for once exactly if none of the four moves throws. If one
  does, the handler records a second completion.
-/

namespace Wss.Spawn

open Wss.Lib

/-- `JoinError`. -/
structure JoinError (E : Type) where
  message : String
  original : E
  deriving DecidableEq

/-- `Result<T>`. A `Result<void>` is one without a value. -/
inductive Result (E V : Type)
  | ok (value : Option V)
  | err (error : JoinError E)
  deriving DecidableEq

/-- `is_ok`. -/
def Result.isOk {E V : Type} : Result E V → Bool
  | .ok _ => true
  | .err _ => false

/-- What others can see of a closure. -/
inductive Effect (E V : Type)
  | recordPanic
  | recordCompleted
  /-- The result is put into the handle. -/
  | deliver (result : Result E V)

/-- The user's code in a task: what the body returns or throws and, unless it returns `void`, what
each call of the move constructor throws, if it throws. -/
inductive Task (E V : Type)
  | void (body : Except E Unit)
  | value (body : Except E V) (move : ℕ → Option E)

/-- What a closure has done so far. -/
structure Trace (E V : Type) where
  /-- The number of calls of the move constructor. -/
  moves : ℕ
  effects : List (Effect E V)

/-- Code that may throw. -/
abbrev Exec (E V α : Type) := ExceptT E (StateM (Trace E V)) α

variable {E V : Type}

/-- The closure does what others can see. -/
def perform (e : Effect E V) : Exec E V Unit :=
  modify fun t => { t with effects := t.effects ++ [e] }

/-- A call of the move constructor. -/
def moveValue (move : ℕ → Option E) (value : V) : Exec E V V := do
  let t ← get
  set { t with moves := t.moves + 1 }
  match move t.moves with
  | some e => throw e
  | none => pure value

/-- `Result<T>::ok`. -/
def resultOk (move : ℕ → Option E) (value : V) : Exec E V (Result E V) := do
  let value ← moveValue move value
  let value ← moveValue move value
  let value ← moveValue move value
  pure (.ok (some value))

/-- The move constructor of `Result<T>`. -/
def moveResult (move : ℕ → Option E) : Result E V → Exec E V (Result E V)
  | .ok (some value) => do
    let value ← moveValue move value
    pure (.ok (some value))
  | .ok none => pure (.ok none)
  | .err error => pure (.err error)

/-- `ResultSetter::set`. -/
def setResult (move : ℕ → Option E) (result : Result E V) : Exec E V Unit := do
  let result ← moveResult move result
  perform (.deliver result)

section Code

variable (what : E → Option String)

/-- `current_exception_message`: `what` is the text of a `std::exception`. -/
def currentExceptionMessage (e : E) : String :=
  match what e with
  | some text => text
  | none => "non-standard exception"

/-- The `catch (...)` block. -/
def handler (move : ℕ → Option E) (e : E) : Exec E V Unit := do
  perform .recordPanic
  perform .recordCompleted
  setResult move (.err ⟨currentExceptionMessage what e, e⟩)

/-- The closure. -/
def closure : Task E V → Exec E V Unit
  | .void body =>
    tryCatch
      (do
        liftExcept body
        perform .recordCompleted
        setResult (fun _ => none) (.ok none))
      (handler what fun _ => none)
  | .value body move =>
    tryCatch
      (do
        let value ← liftExcept body
        perform .recordCompleted
        let result ← resultOk move value
        setResult move result)
      (handler what move)

/-- A run of the closure: whether it throws, and what it has done. -/
def run (task : Task E V) : Except E Unit × Trace E V := (closure what task).run.run ⟨0, []⟩

/-- What the closure of a task does, in order. -/
def effects (task : Task E V) : List (Effect E V) := (run what task).2.effects

end Code

/-! ## What a task leaves behind -/

/-- What the four moves of a value throw. -/
def thrown (move : ℕ → Option E) : Option E := (List.range 4).findSome? move

/-- The effects of the handler. -/
def handled (what : E → Option String) (e : E) : List (Effect E V) :=
  [.recordPanic, .recordCompleted, .deliver (.err ⟨currentExceptionMessage what e, e⟩)]

variable {what : E → Option String} {move : ℕ → Option E} {value : V}

variable {t : Trace E V} {e : E}

theorem run_moveValue : (moveValue move value).run.run t =
    (match move t.moves with
      | some e => .error e
      | none => .ok value, { t with moves := t.moves + 1 }) := by
  have hmatch : (moveValue move value).run.run t =
      (match move t.moves with
        | some e => throw e
        | none => pure value : Exec E V V).run.run { t with moves := t.moves + 1 } := rfl
  rw [hmatch]
  cases move t.moves <;> rfl

theorem moveValue_ok (h : move t.moves = none) :
    (moveValue move value).run.run t = (.ok value, { t with moves := t.moves + 1 }) := by
  rw [run_moveValue, h]

theorem moveValue_error (h : move t.moves = some e) :
    (moveValue move value).run.run t = (.error e, { t with moves := t.moves + 1 }) := by
  rw [run_moveValue, h]

/-- What comes after `record_completed` in the `try` block of a task with a value. -/
def publish (move : ℕ → Option E) (value : V) : Exec E V Unit := do
  let result ← resultOk move value
  setResult move result

/-- The value arrives, or the first of its moves that throws stops it. -/
theorem run_publish (move : ℕ → Option E) (value : V) (l : List (Effect E V)) :
    ∃ moves, (publish move value).run.run ⟨0, l⟩ =
    match thrown move with
    | none => (.ok (), ⟨moves, l ++ [.deliver (.ok (some value))]⟩)
    | some e => (.error e, ⟨moves, l⟩) := by
  have hthrown : thrown move = (move 0).or ((move 1).or ((move 2).or (move 3))) := by
    cases h0 : move 0 <;> cases h1 : move 1 <;> cases h2 : move 2 <;> cases h3 : move 3 <;>
      simp [thrown, List.range_succ, h0, h1, h2, h3]
  rw [hthrown]
  cases h0 : move 0 with
  | some e => exact ⟨1, run_bind_error (run_bind_error (moveValue_error h0))⟩
  | none =>
  cases h1 : move 1 with
  | some e =>
    refine ⟨2, run_bind_error ((run_bind_ok (moveValue_ok h0)).trans ?_)⟩
    exact run_bind_error (moveValue_error h1)
  | none =>
  cases h2 : move 2 with
  | some e =>
    refine ⟨3, run_bind_error ((run_bind_ok (moveValue_ok h0)).trans ?_)⟩
    refine (run_bind_ok (moveValue_ok h1)).trans ?_
    exact run_bind_error (moveValue_error h2)
  | none =>
  -- the first three moves are those of `Result::ok`
  have hresult : (resultOk move value).run.run ⟨0, l⟩ = (.ok (.ok (some value)), ⟨3, l⟩) :=
    (run_bind_ok (moveValue_ok h0)).trans <| (run_bind_ok (moveValue_ok h1)).trans <|
      run_bind_ok (moveValue_ok h2)
  cases h3 : move 3 with
  | some e =>
    refine ⟨4, (run_bind_ok hresult).trans (run_bind_error (run_bind_error ?_))⟩
    exact moveValue_error h3
  | none =>
    have hmoved : (moveResult move (.ok (some value))).run.run ⟨3, l⟩ =
        (.ok (.ok (some value)), ⟨4, l⟩) := run_bind_ok (moveValue_ok h3)
    exact ⟨4, (run_bind_ok hresult).trans (run_bind_ok hmoved)⟩

theorem run_value_ok (what : E → Option String) (move : ℕ → Option E) (value : V) :
    ∃ moves, run what (.value (.ok value) move) =
    (.ok (), ⟨moves,
      match thrown move with
      | none => [.recordCompleted, .deliver (.ok (some value))]
      | some e => .recordCompleted :: handled what e⟩) := by
  obtain ⟨moves, h⟩ := run_publish move value [.recordCompleted]
  refine ⟨moves, ?_⟩
  cases ht : thrown move with
  | none =>
    rw [ht] at h
    exact run_tryCatch_ok h
  | some e =>
    rw [ht] at h
    exact run_tryCatch_error h

/-! ## Accounted for once -/

namespace Effect

/-- A completion is recorded. -/
def isCompleted : Effect E V → Bool
  | .recordCompleted => true
  | .recordPanic | .deliver _ => false

/-- A panic is recorded. -/
def isPanic : Effect E V → Bool
  | .recordPanic => true
  | .recordCompleted | .deliver _ => false

/-- The result that arrives in the handle. -/
def delivered : Effect E V → Option (Result E V)
  | .deliver result => some result
  | .recordPanic | .recordCompleted => none

end Effect

/-- One result is delivered, after the one completion, and there is one panic if it is an error and
none otherwise. -/
structure Accounted (l : List (Effect E V)) : Prop where
  delivered : ∃ result, l.filterMap Effect.delivered = [result] ∧
    l.countP Effect.isPanic = if result.isOk then 0 else 1
  completed : l.countP Effect.isCompleted = 1
  order : ∃ l₁ l₂, l = l₁ ++ l₂ ∧ l₁.countP Effect.isCompleted = 1 ∧
    l₁.filterMap Effect.delivered = []

/-- The task returns `void`, its body throws, or no move of its value throws. -/
def Behaves : Task E V → Prop
  | .void _ => True
  | .value (.error _) _ => True
  | .value (.ok _) move => ∀ k < 4, move k = none

theorem handled_accounted (what : E → Option String) (e : E) :
    Accounted (handled what e : List (Effect E V)) where
  delivered := ⟨_, rfl, rfl⟩
  completed := rfl
  order := ⟨[.recordPanic, .recordCompleted], _, rfl, rfl, rfl⟩

theorem returned_accounted (value : Option V) :
    Accounted ([.recordCompleted, .deliver (.ok value)] : List (Effect E V)) where
  delivered := ⟨_, rfl, rfl⟩
  completed := rfl
  order := ⟨[.recordCompleted], _, rfl, rfl, rfl⟩

/-- No closure throws. -/
theorem run_ok (what : E → Option String) (task : Task E V) : (run what task).1 = .ok () := by
  cases task with
  | void body => cases body <;> rfl
  | value body move =>
    cases body with
    | error e => rfl
    | ok value =>
      obtain ⟨moves, h⟩ := run_value_ok what move value
      rw [h]

theorem thrown_eq_none : thrown move = none ↔ ∀ k < 4, move k = none := by
  rw [thrown, List.findSome?_eq_none_iff]
  simp only [List.mem_range]

/-- **Each spawned job is accounted for exactly once, whatever throws, if and only if no move of a
value throws.** A move that does is caught after the completion was recorded, and the handler
records another one. -/
theorem accounted_iff (what : E → Option String) (task : Task E V) :
    (run what task).1 = .ok () ∧ Accounted (effects what task) ↔ Behaves task := by
  refine ⟨fun ⟨_, h⟩ => ?_, fun h => ⟨run_ok what task, ?_⟩⟩
  · cases task with
    | void body => trivial
    | value body move =>
      cases body with
      | error e => trivial
      | ok value =>
        obtain ⟨moves, hrun⟩ := run_value_ok what move value
        rw [effects, hrun] at h
        cases ht : thrown move with
        | none => exact thrown_eq_none.mp ht
        | some e =>
          rw [ht] at h
          have htwo : 2 = 1 := h.completed
          omega
  · cases task with
    | void body => cases body with
      | ok _ => exact returned_accounted none
      | error e => exact handled_accounted what e
    | value body move =>
      cases body with
      | error e => exact handled_accounted what e
      | ok value =>
        obtain ⟨moves, hrun⟩ := run_value_ok what move value
        rw [effects, hrun, thrown_eq_none.mpr h]
        exact returned_accounted (some value)

/-- A value is returned, and its first move throws. -/
theorem counted_twice : ¬ ∀ task : Task Unit ℕ, (run (fun _ => none) task).1 = .ok () ∧
    Accounted (effects (fun _ => none) task) := by
  intro h
  have htwice := (h (.value (.ok 7) fun _ => some ())).2.completed
  exact absurd htwice (by decide)

end Wss.Spawn
