import Wss.ChaseLev.Sequential
import Wss.Lib.Throwing

/-!
# `push` with a failing allocation

`push` makes up to four allocations: in `grow` a `Buffer`, its slots and room in `retired_`, and
then the box. `growOrThrow` and `pushOrThrow` are `grow` and `push` as programs that may throw, on
the deque and the buffers that were freed (`Memory`); `none` is where `Buffer(capacity * 2)` throws
`std::length_error`. `failing` is the deque whose allocations may fail in the middle of any
interleaving.

`grow` stores the new buffer in `buffer_` before `retired_` owns it. Where `retired_.push_back`
cannot allocate, it changes nothing, and `new_buf` frees the buffer that `buffer_` points to.

Results:
* `pushOrThrow_returns`: a `push` that returns is the `push` of the deque.
* `pushOrThrow_throws`: what one leaves that throws, site by site (`Thrown`).
* `reachable_sound`: the current buffer is owned as long as no `push` has failed at `retired_`.
* `failed_push_usable`: this is the one allocation whose failure does harm.
* `not_failed_push_usable`: there it does.
-/

namespace Wss.ChaseLev

open Wss.Lib

variable {ι T : Type}

/-- The allocations of `push`. -/
inductive Site
  | buffer
  | slots
  | retire
  | box
  deriving DecidableEq

/-- A deque, and the buffers that were freed before its destruction. -/
structure Memory (ι T : Type) where
  deque : State ι T
  freed : List ℕ

namespace State

variable (d : State ι T)

/-- `push` has to `grow`. -/
def full : Prop := d.bottom - d.top > ((d.heap d.buffer).capacity : ℤ) - 1

instance : Decidable d.full := inferInstanceAs (Decidable (_ < _))

/-- `grow` up to its store of `buffer_`, where `new` is the buffer allocated. -/
def published (t b : ℤ) (new : Buffer) : State ι T :=
  { d with
    heap := Function.update d.heap d.allocated
      (copySlots (d.heap d.buffer) (b - t).toNat t new)
    allocated := d.allocated + 1
    buffer := d.allocated }

/-- `retired_.push_back` of the current buffer. -/
def retire : State ι T := { d with retired := d.retired ++ [d.buffer] }

/-- `push` after its `grow`, once there is a box. -/
def store (item : T) (b : ℤ) : State ι T :=
  { d with
    boxes := d.boxes ++ [item]
    heap := Function.update d.heap d.buffer ((d.heap d.buffer).store b (some d.boxes.length))
    bottom := b + 1 }

end State

/-- A part of `push`. -/
abbrev Pushing (ι T α : Type) := ExceptT BadAlloc (StateT (Memory ι T) Option) α

/-- A change of the deque. -/
def modifyDeque (f : State ι T → State ι T) : Pushing ι T Unit :=
  modify fun m => { m with deque := f m.deque }

/-- `grow`. -/
def growOrThrow (fail : Option Site) (t b : ℤ) : Pushing ι T Unit := do
  let m ← get
  alloc fail .buffer
  let new ← (liftM (m.deque.heap m.deque.buffer).twice : Pushing ι T Buffer)
  alloc fail .slots
  modifyDeque (·.published t b new)
  -- `new_buf` still owns the buffer
  tryCatch (alloc fail .retire) fun e => do
    modify fun m => { m with freed := m.freed ++ [m.deque.buffer] }
    throw e
  modifyDeque (·.retire)

/-- `push`. -/
def pushOrThrow (fail : Option Site) (item : T) : Pushing ι T Unit := do
  let m ← get
  let b := m.deque.bottom
  let t := m.deque.top
  if m.deque.full then growOrThrow fail t b
  alloc fail .box
  modifyDeque (·.store item b)

variable {d : State ι T} {m m' : Memory ι T} {fail : Option Site} {site : Site} {item : T} {t b : ℤ}
  {new : Buffer}

/-! ## What the programs do -/

theorem run_modifyDeque (f : State ι T → State ι T) (m : Memory ι T) :
    (modifyDeque f).run.run m = pure (.ok (), { m with deque := f m.deque }) :=
  run_modify _

theorem growOrThrow_completes (hnew : (m.deque.heap m.deque.buffer).twice = some new)
    (hb : fail ≠ some .buffer) (hs : fail ≠ some .slots) (hr : fail ≠ some .retire) :
    (growOrThrow fail t b).run.run m =
      some (.ok (), { m with deque := (m.deque.published t b new).retire }) := by
  unfold growOrThrow
  rw [run_bind_ok run_get, run_bind_ok (run_alloc_ok hb _), hnew, run_bind_ok (run_liftM _),
    run_bind_ok (run_alloc_ok hs _), run_bind_ok (run_modifyDeque _ _),
    run_bind_ok (run_tryCatch_ok (run_alloc_ok hr _)), run_modifyDeque]
  rfl

theorem growOrThrow_buffer :
    (growOrThrow (some .buffer) t b).run.run m = some (.error .badAlloc, m) := by
  unfold growOrThrow
  rw [run_bind_ok run_get]
  exact run_bind_error (run_alloc_fail _)

/-- Where the new buffer would be too large no allocation of its slots is tried. -/
theorem growOrThrow_length (hnew : (m.deque.heap m.deque.buffer).twice = none)
    (hb : fail ≠ some .buffer) : (growOrThrow fail t b).run.run m = none := by
  unfold growOrThrow
  rw [run_bind_ok run_get, run_bind_ok (run_alloc_ok hb _), hnew, ExceptT.run_bind, StateT.run_bind,
    run_liftM]
  rfl

theorem growOrThrow_slots (hnew : (m.deque.heap m.deque.buffer).twice = some new) :
    (growOrThrow (some .slots) t b).run.run m = some (.error .badAlloc, m) := by
  unfold growOrThrow
  rw [run_bind_ok run_get, run_bind_ok (run_alloc_ok (by decide) _), hnew,
    run_bind_ok (run_liftM _)]
  exact run_bind_error (run_alloc_fail _)

/-- **The buffer that `buffer_` points to is freed.** -/
theorem growOrThrow_retire (hnew : (m.deque.heap m.deque.buffer).twice = some new) :
    (growOrThrow (some .retire) t b).run.run m = some (.error .badAlloc,
      { deque := m.deque.published t b new, freed := m.freed ++ [m.deque.allocated] }) := by
  unfold growOrThrow
  rw [run_bind_ok run_get, run_bind_ok (run_alloc_ok (by decide) _), hnew,
    run_bind_ok (run_liftM _), run_bind_ok (run_alloc_ok (by decide) _),
    run_bind_ok (run_modifyDeque _ _)]
  refine run_bind_error ?_
  rw [run_tryCatch_error (run_alloc_fail _), run_bind_ok (run_modify _)]
  rfl

/-- What a `push` that throws leaves behind. -/
inductive Thrown (m : Memory ι T) : Site → Memory ι T → Prop
  | buffer : m.deque.full → Thrown m .buffer m
  | slots : m.deque.full → (m.deque.heap m.deque.buffer).twice.isSome → Thrown m .slots m
  | roomy : ¬ m.deque.full → Thrown m .box m
  | grown {new : Buffer} : m.deque.full → (m.deque.heap m.deque.buffer).twice = some new →
      Thrown m .box
        { m with deque := (m.deque.published m.deque.top m.deque.bottom new).retire }
  | dangling {new : Buffer} : m.deque.full → (m.deque.heap m.deque.buffer).twice = some new →
      Thrown m .retire
        { deque := m.deque.published m.deque.top m.deque.bottom new
          freed := m.freed ++ [m.deque.allocated] }

theorem pushOrThrow_growThrows {e : BadAlloc} {m₁ : Memory ι T} (hfull : m.deque.full)
    (h : (growOrThrow fail m.deque.top m.deque.bottom).run.run m = some (.error e, m₁)) :
    (pushOrThrow fail item).run.run m = some (.error e, m₁) := by
  unfold pushOrThrow
  rw [run_bind_ok run_get, if_pos hfull]
  exact run_bind_error h

theorem pushOrThrow_growNone (hfull : m.deque.full)
    (h : (growOrThrow fail m.deque.top m.deque.bottom).run.run m = none) :
    (pushOrThrow fail item).run.run m = none := by
  unfold pushOrThrow
  rw [run_bind_ok run_get, if_pos hfull, ExceptT.run_bind, StateT.run_bind, h]
  rfl

/-- `push` from its box on. -/
theorem pushOrThrow_box {m₁ : Memory ι T} (hm : ¬ m.deque.full ∧ m₁ = m ∨ m.deque.full ∧
      (growOrThrow fail m.deque.top m.deque.bottom).run.run m = some (.ok (), m₁)) :
    (pushOrThrow fail item).run.run m =
      if fail = some .box then some (.error .badAlloc, m₁)
      else some (.ok (), { m₁ with deque := m₁.deque.store item m.deque.bottom }) := by
  have hbox : ∀ b, (alloc fail .box >>= fun _ => modifyDeque (·.store item b) :
      Pushing ι T Unit).run.run m₁ = if fail = some .box then some (.error .badAlloc, m₁)
        else some (.ok (), { m₁ with deque := m₁.deque.store item b }) := by
    intro b
    split_ifs with hf
    · rw [hf]
      exact run_bind_error (run_alloc_fail _)
    · exact run_bind_ok (run_alloc_ok hf _)
  unfold pushOrThrow
  rw [run_bind_ok run_get]
  rcases hm with ⟨hfull, rfl⟩ | ⟨hfull, h⟩
  · rw [if_neg hfull]
    exact hbox _
  · rw [if_pos hfull, run_bind_ok h]
    exact hbox _

/-- **A `push` that throws has done nothing, or has grown the deque, or has left it with a freed
buffer.** -/
theorem pushOrThrow_throws {e : BadAlloc}
    (h : (pushOrThrow (some site) item).run.run m = some (.error e, m')) : Thrown m site m' := by
  have hsame : ∀ {e' : BadAlloc} {m₁ : Memory ι T}, (pushOrThrow (some site) item).run.run m =
      some (.error e', m₁) → m₁ = m' := fun h₁ =>
    (Prod.mk.inj (Option.some.inj (h₁.symm.trans h))).2
  by_cases hfull : m.deque.full
  · cases hnew : (m.deque.heap m.deque.buffer).twice with
    | none =>
      by_cases hb : site = .buffer
      · subst hb
        obtain rfl := hsame (pushOrThrow_growThrows hfull growOrThrow_buffer)
        exact .buffer hfull
      · have hnone : (growOrThrow (some site) m.deque.top m.deque.bottom).run.run m = none :=
          growOrThrow_length hnew fun hs => hb (Option.some.inj hs)
        exact absurd ((pushOrThrow_growNone hfull hnone).symm.trans h) nofun
    | some new =>
      cases site with
      | buffer =>
        obtain rfl := hsame (pushOrThrow_growThrows hfull growOrThrow_buffer)
        exact .buffer hfull
      | slots =>
        obtain rfl := hsame (pushOrThrow_growThrows hfull (growOrThrow_slots hnew))
        exact .slots hfull (Option.isSome_iff_exists.mpr ⟨new, hnew⟩)
      | retire =>
        obtain rfl := hsame (pushOrThrow_growThrows hfull (growOrThrow_retire hnew))
        exact .dangling hfull hnew
      | box =>
        have hgrow := growOrThrow_completes (t := m.deque.top) (b := m.deque.bottom) hnew
          (by decide : some Site.box ≠ _) (by decide) (by decide)
        obtain rfl := hsame ((pushOrThrow_box (.inr ⟨hfull, hgrow⟩)).trans (if_pos rfl))
        exact .grown hfull hnew
  · rw [pushOrThrow_box (.inl ⟨hfull, rfl⟩)] at h
    split_ifs at h with hbox
    · obtain ⟨-, rfl⟩ := Prod.mk.inj (Option.some.inj h)
      obtain rfl := Option.some.inj hbox
      exact .roomy hfull
    · exact absurd h nofun

theorem push_eq (d : State ι T) (item : T) : push d item =
    (if d.full then grow d d.top d.bottom else some d).map (State.store · item d.bottom) :=
  rfl

theorem push_full (hfull : d.full) : push d item = (d.heap d.buffer).twice.map fun new =>
    (d.published d.top d.bottom new).retire.store item d.bottom := by
  rw [push_eq, if_pos hfull, grow, Option.map_map]
  rfl

theorem push_roomy (hfull : ¬ d.full) : push d item = some (d.store item d.bottom) := by
  rw [push_eq, if_neg hfull, Option.map_some]

/-- **A `push` that returns is the `push` of the deque.** -/
theorem pushOrThrow_returns (h : (pushOrThrow fail item).run.run m = some (.ok (), m')) :
    push m.deque item = some m'.deque ∧ m'.freed = m.freed := by
  by_cases hfull : m.deque.full
  · have hne : ∀ {e : BadAlloc} {m₁ : Memory ι T},
        (growOrThrow fail m.deque.top m.deque.bottom).run.run m ≠ some (.error e, m₁) :=
      fun h₁ => absurd ((pushOrThrow_growThrows hfull h₁).symm.trans h) nofun
    have hb : fail ≠ some .buffer := fun hf => hne (hf ▸ growOrThrow_buffer)
    cases hnew : (m.deque.heap m.deque.buffer).twice with
    | none =>
      have hnone : (pushOrThrow fail item).run.run m = none :=
        pushOrThrow_growNone hfull (growOrThrow_length hnew hb)
      exact absurd (hnone.symm.trans h) nofun
    | some new =>
      have hs : fail ≠ some .slots := fun hf => hne (hf ▸ growOrThrow_slots hnew)
      have hr : fail ≠ some .retire := fun hf => hne (hf ▸ growOrThrow_retire hnew)
      rw [pushOrThrow_box (.inr ⟨hfull, growOrThrow_completes hnew hb hs hr⟩)] at h
      split_ifs at h
      · exact absurd h nofun
      · obtain ⟨-, rfl⟩ := Prod.mk.inj (Option.some.inj h)
        exact ⟨(push_full hfull).trans (congrArg _ hnew), rfl⟩
  · rw [pushOrThrow_box (.inl ⟨hfull, rfl⟩)] at h
    split_ifs at h
    · exact absurd h nofun
    · obtain ⟨-, rfl⟩ := Prod.mk.inj (Option.some.inj h)
      exact ⟨push_roomy hfull, rfl⟩

/-- Without a failing allocation it is the `push` of the deque. -/
theorem pushOrThrow_completes (m : Memory ι T) (item : T) : (pushOrThrow none item).run.run m =
    (push m.deque item).map fun d => (.ok (), { m with deque := d }) := by
  have hsite : ∀ site : Site, none ≠ some site := fun _ => nofun
  by_cases hfull : m.deque.full
  · rw [push_full hfull]
    cases hnew : (m.deque.heap m.deque.buffer).twice with
    | none => exact pushOrThrow_growNone hfull (growOrThrow_length hnew (hsite _))
    | some new =>
      have hgrow := growOrThrow_completes (t := m.deque.top) (b := m.deque.bottom) hnew (hsite _)
        (hsite _) (hsite _)
      exact (pushOrThrow_box (.inr ⟨hfull, hgrow⟩)).trans (if_neg (hsite _))
  · rw [push_roomy hfull]
    exact (pushOrThrow_box (.inl ⟨hfull, rfl⟩)).trans (if_neg (hsite _))

/-! ## The deque afterwards -/

/-- The copy of a slot is the slot. -/
theorem load_copySlots (old : Buffer) : ∀ {n : ℕ} {i j : ℤ} {new : Buffer},
    i + n ≤ j + new.capacity → (j < i → new.load j = old.load j) → j < i + n →
    (copySlots old n i new).load j = old.load j
  | 0, i, j, new, _, hlow, hj => hlow (by simpa using hj)
  | n + 1, i, j, new, hcap, hlow, hj => by
    rw [copySlots]
    refine load_copySlots old (by rw [Buffer.store_capacity]; push_cast at hcap; omega)
      (fun hji => ?_) (by push_cast at hj; omega)
    by_cases he : j = i
    · rw [he, Buffer.load_store_self]
    · rw [Buffer.load_store_of_near (by omega) (by push_cast at hcap; omega)]
      exact hlow (by omega)

/-- The deque is as it was before, but perhaps for its size. -/
structure Same (d d' : State ι T) : Prop where
  top : d'.top = d.top
  bottom : d'.bottom = d.bottom
  slots : ∀ i, d.top ≤ i → i < d.bottom → d'.slot i = d.slot i
  boxes : d'.boxes = d.boxes
  items : items d' = items d

/-- `buffer_` points to a buffer that `retired_` owns. -/
def Owns (m : Memory ι T) : Prop := m.deque.buffer ∈ m.deque.retired ∧ m.deque.buffer ∉ m.freed

theorem Same.refl (d : State ι T) : Same d d := ⟨rfl, rfl, fun _ _ _ => rfl, rfl, rfl⟩

/-- A deque that has grown is the same. -/
theorem published_same (hi : Inv d) (hpc : d.owner = .idle)
    (hnew : (d.heap d.buffer).twice = some new) : Same d (d.published d.top d.bottom new) := by
  have hlb : d.lb = d.bottom := by simp only [State.lb, hpc]
  have hcap := (Buffer.make_eq_some hnew).1
  have hle := hi.le_cap
  have htop := hi.top_le
  have hslot : ∀ i, d.top ≤ i → i < d.bottom →
      (d.published d.top d.bottom new).slot i = d.slot i := by
    intro i h h'
    have hload : (copySlots (d.heap d.buffer) (d.bottom - d.top).toNat d.top new).load i =
        (d.heap d.buffer).load i :=
      load_copySlots _ (by unfold State.cap at hle; omega) (fun hlt => absurd h hlt.not_ge)
        (by omega)
    rw [State.slot, State.slot, ← hload]
    exact congrArg (Buffer.load · i) (Function.update_self _ _ _)
  refine ⟨rfl, rfl, hslot, rfl, items_congr rfl ?_ fun i h h' => ?_⟩
  · simp only [State.lb, State.published, hpc]
  · rw [State.valueAt, State.valueAt, hslot i h (hlb ▸ h')]
    rfl

/-- **Whatever allocation fails, the deque is the same; it has lost its buffer where `retired_`
could not grow.** -/
theorem Thrown.same (h : Thrown m site m') (hi : Inv m.deque) (hpc : m.deque.owner = .idle) :
    Same m.deque m'.deque := by
  cases h with
  | buffer | slots | roomy => exact .refl _
  | grown hfull hnew | dangling hfull hnew =>
    have hs := published_same hi hpc hnew
    exact ⟨hs.top, hs.bottom, hs.slots, hs.boxes, hs.items⟩

theorem Thrown.owns (h : Thrown m site m') (ho : Owns m) (hf : m.freed = []) :
    Owns m' ↔ site ≠ .retire := by
  cases h with
  | buffer | slots | roomy => exact iff_of_true ho nofun
  | grown hfull hnew =>
    refine iff_of_true ⟨List.mem_append_right _ (List.mem_singleton_self _), ?_⟩ nofun
    rw [hf]
    exact List.not_mem_nil
  | dangling hfull hnew =>
    refine iff_of_false (fun h => h.2 ?_) (fun h => h rfl)
    exact List.mem_append_right _ (List.mem_singleton_self _)

/-! ## Allocations that fail in the middle of a run -/

/-- What the threads do where allocations may fail. -/
inductive FailLabel (ι T : Type)
  | run (l : Label ι T)
  /-- The `push` of the owner throws: its allocation at `site` fails. -/
  | throw (site : Site)

/-- The owner has left its call. -/
def State.leave (d : State ι T) : State ι T := { d with owner := .idle }

/-- `push` throws in the next step of it. -/
def throwPush (m : Memory ι T) (site : Site) : Option (Memory ι T) :=
  let buf := m.deque.heap m.deque.buffer
  match m.deque.owner, site with
  | .pushBuffer _ b t, .buffer =>
    if b - t > (buf.capacity : ℤ) - 1 then some { m with deque := m.deque.leave } else none
  | .pushBuffer _ b t, .slots =>
    if b - t > (buf.capacity : ℤ) - 1 ∧ buf.twice.isSome then
      some { m with deque := m.deque.leave }
    else none
  | .growRetire _ _ new, .retire =>
    some { deque := m.deque.leave, freed := m.freed ++ [new] }
  | .pushSlot _ _ _, .box => some { m with deque := m.deque.leave }
  | _, _ => none

section Machine

variable [DecidableEq ι] [DecidableEq T]

/-- One step, in which the allocation at a site may fail. -/
def stepFailing (m : Memory ι T) : FailLabel ι T → Option (Memory ι T)
  | .run l => (step m.deque l).map fun d => { m with deque := d }
  | .throw site => throwPush m site

/-- A deque whose allocations may fail. -/
def failing (ι T : Type) [DecidableEq ι] [DecidableEq T] (initialCapacity : ℕ) :
    Machine (Memory ι T) (FailLabel ι T) where
  init m := construct initialCapacity = some m.deque ∧ m.freed = []
  step := stepFailing

/-- `retired_` can grow. -/
def Spared (_ : Memory ι T) : FailLabel ι T → Prop
  | .throw site => site ≠ .retire
  | .run _ => True

instance (m : Memory ι T) : DecidablePred (Spared m)
  | .throw site => inferInstanceAs (Decidable (site ≠ .retire))
  | .run _ => isTrue trivial

end Machine

/-- The current buffer is owned by `retired_`, or about to be. -/
def Published (d : State ι T) : Prop :=
  d.buffer ∈ d.retired ∨ ∃ item b, d.owner = .growRetire item b d.buffer

/-- How a step of the owner changes the buffer and its owners. -/
theorem stepOwner_buffer {d' : State ι T} (h : stepOwner d = some d') :
    (d'.buffer = d.buffer ∧ d'.retired = d.retired ∧
      ∀ item b new, d.owner ≠ .growRetire item b new) ∨
    (∃ item b, d'.owner = .growRetire item b d'.buffer) ∨
      ∃ item b new, d.owner = .growRetire item b new ∧ d'.buffer = d.buffer ∧
        d'.retired = d.retired ++ [new] := by
  unfold stepOwner at h
  cases hpc : d.owner with
  | idle | pushReturn | popTake _ | popNone => simp [hpc] at h
  | growPublish item b new =>
    simp only [hpc, Option.some.injEq] at h
    subst h
    exact .inr (.inl ⟨item, b, rfl⟩)
  | growRetire item b new =>
    simp only [hpc, Option.some.injEq] at h
    subst h
    exact .inr (.inr ⟨item, b, new, rfl, rfl, rfl⟩)
  | pushBuffer item b t =>
    simp only [hpc] at h
    split at h
    · obtain ⟨nb, -, rfl⟩ := Option.map_eq_some_iff.mp h
      exact .inl ⟨rfl, rfl, by simp⟩
    · obtain rfl := Option.some.inj h
      exact .inl ⟨rfl, rfl, by simp⟩
  | popTop | popSlot | popCas =>
    simp only [hpc] at h
    split at h <;> obtain rfl := Option.some.inj h <;> exact .inl ⟨rfl, rfl, by simp⟩
  | pushBottom | pushTop | growLoad | growStore | pushSlot | pushPublish | popBottom | popBuffer
  | popLower | popRestore | popRaise =>
    simp only [hpc, Option.some.injEq] at h
    subst h
    exact .inl ⟨rfl, rfl, by simp⟩

theorem Published.mem (h : Published d) (hpc : ∀ item b new, d.owner ≠ .growRetire item b new) :
    d.buffer ∈ d.retired :=
  h.resolve_right fun ⟨_, _, ho⟩ => hpc _ _ _ ho

theorem stepOwner_published {d' : State ι T} (hp : Published d) (h : stepOwner d = some d') :
    Published d' := by
  rcases stepOwner_buffer h with ⟨hbuf, hret, hpc⟩ | hnew | ⟨item, b, new, hpc, hbuf, hret⟩
  · left
    rw [hbuf, hret]
    exact hp.mem hpc
  · exact .inr hnew
  · left
    rw [hbuf, hret]
    rcases hp with hmem | ⟨_, _, ho⟩
    · exact List.mem_append_left _ hmem
    · obtain ⟨-, -, rfl⟩ := OwnerPc.growRetire.inj (hpc.symm.trans ho)
      exact List.mem_append_right _ (List.mem_singleton_self _)

/-- What holds where `retired_` has not failed to grow. -/
structure Sound (m : Memory ι T) : Prop where
  inv : Inv m.deque
  published : Published m.deque
  freed : m.freed = []

theorem Sound.owns (h : Sound m) (hpc : m.deque.owner = .idle) : Owns m := by
  refine ⟨h.published.mem fun _ _ _ ho => absurd (hpc.symm.trans ho) nofun, ?_⟩
  rw [h.freed]
  exact List.not_mem_nil

/-- A call that is over. -/
theorem Sound.leave (h : Sound m) (hlb : m.deque.leave.lb = m.deque.lb)
    (hho : m.deque.leave.heldOwner = m.deque.heldOwner)
    (hpc : ∀ item b new, m.deque.owner ≠ .growRetire item b new) :
    Sound { m with deque := m.deque.leave } where
  inv := h.inv.setOwner hlb hho trivial
  published := .inl (h.published.mem hpc)
  freed := h.freed

variable [DecidableEq ι] [DecidableEq T] {c : ℕ} {l : Label ι T} {fl : FailLabel ι T}

omit [DecidableEq T] in
/-- A step of a thief leaves the owner, the buffer and `retired_` alone. -/
theorem stepThief_published {d' : State ι T} {i : ι} (hp : Published d)
    (h : stepThief d i = some d') : Published d' := by
  unfold stepThief at h
  cases hpc : d.thief i with
  | idle | stealTake | stealEmpty | stealLost => simp [hpc] at h
  | stealTop | stealBuffer | stealSlot =>
    simp only [hpc, Option.some.injEq] at h
    subst h
    exact hp
  | stealBottom | stealCas =>
    simp only [hpc] at h
    split at h <;> obtain rfl := Option.some.inj h <;> exact hp

/-- **Every step keeps the current buffer owned, or about to be.** -/
theorem step_published {d' : State ι T} (hp : Published d) (h : step d l = some d') :
    Published d' := by
  -- a call or a return of the owner
  have hcall : ∀ {pc : OwnerPc T} {d' : State ι T}, d.owner = pc →
      (∀ item b new, pc ≠ .growRetire item b new) → d'.buffer = d.buffer →
      d'.retired = d.retired → Published d' := by
    intro pc d' hpc hne hbuf hret
    left
    rw [hbuf, hret]
    exact hp.mem fun item b new ho => hne item b new (hpc.symm.trans ho)
  cases l with
  | owner => exact stepOwner_published hp h
  | thief i => exact stepThief_published hp h
  | push item | pushed | pop =>
    simp only [step] at h
    split at h
    · rename_i hpc
      obtain rfl := Option.some.inj h
      exact hcall hpc (by simp) rfl rfl
    · exact absurd h (by simp)
  | popped r =>
    simp only [step] at h
    split at h
    · rename_i hpc
      split_ifs at h
      obtain rfl := Option.some.inj h
      exact hcall hpc (by simp) rfl rfl
    · rename_i hpc
      split_ifs at h
      obtain rfl := Option.some.inj h
      exact hcall hpc (by simp) rfl rfl
    · exact absurd h (by simp)
  | steal i =>
    simp only [step] at h
    split at h
    · obtain rfl := Option.some.inj h
      exact hp
    · exact absurd h (by simp)
  | stolen i r =>
    simp only [step] at h
    split at h
    all_goals first
      | (split_ifs at h; obtain rfl := Option.some.inj h; exact hp)
      | exact absurd h (by simp)

theorem step_sound (hs : Sound m) (hok : Spared m fl) (h : stepFailing m fl = some m') :
    Sound m' := by
  cases fl with
  | run l =>
    obtain ⟨d, hd, rfl⟩ := Option.map_eq_some_iff.mp h
    exact ⟨step_inv hs.inv hd, step_published hs.published hd, hs.freed⟩
  | throw site =>
    have hleave : ∀ {pc : OwnerPc T}, m.deque.owner = pc →
        (∀ item b new, pc ≠ .growRetire item b new) →
        m.deque.leave.lb = m.deque.lb → m.deque.leave.heldOwner = m.deque.heldOwner →
        Sound { m with deque := m.deque.leave } := fun hpc hne hlb hho =>
      hs.leave hlb hho fun item b new ho => hne item b new (hpc.symm.trans ho)
    simp only [stepFailing, throwPush] at h
    split at h
    · rename_i hpc
      split_ifs at h
      obtain rfl := Option.some.inj h
      exact hleave hpc (by simp) (by simp only [State.lb, hpc, State.leave])
        (by simp only [State.heldOwner, hpc, State.leave])
    · rename_i hpc
      split_ifs at h
      obtain rfl := Option.some.inj h
      exact hleave hpc (by simp) (by simp only [State.lb, hpc, State.leave])
        (by simp only [State.heldOwner, hpc, State.leave])
    · exact absurd rfl hok
    · rename_i hpc
      obtain rfl := Option.some.inj h
      exact hleave hpc (by simp) (by simp only [State.lb, hpc, State.leave])
        (by simp only [State.heldOwner, hpc, State.leave])
    · exact absurd h (by simp)

theorem reachable_sound (h : (failing ι T c).ReachableUnder Spared m) : Sound m := by
  refine h.invariant (fun m hm => ?_) fun _ _ _ _ hok hst hs => step_sound hs hok hst
  obtain ⟨hc, hf⟩ := hm
  refine ⟨construct_inv hc, .inl ?_, hf⟩
  unfold construct at hc
  split at hc
  · exact absurd hc nofun
  · obtain ⟨buf, -, hd⟩ := Option.map_eq_some_iff.mp hc
    rw [← hd]
    exact List.mem_singleton_self _

/-- **A `push` that runs out of memory leaves the deque usable, unless it is `retired_` that cannot
grow.** -/
theorem failed_push_usable {e : BadAlloc} (hm : (failing ι T c).ReachableUnder Spared m)
    (hpc : m.deque.owner = .idle)
    (h : (pushOrThrow (some site) item).run.run m = some (.error e, m')) :
    Same m.deque m'.deque ∧ Owns m' ↔ site ≠ .retire := by
  have hs := reachable_sound hm
  have ht := pushOrThrow_throws h
  rw [and_iff_right (ht.same hs.inv hpc)]
  exact ht.owns (hs.owns hpc) hs.freed

/-- A run of the deque is one where no allocation fails. -/
theorem run_path {d' : State ι T} {tr : List (Label ι T)} (freed : List ℕ)
    (h : (machine ι T c).Path Machine.Free d tr d') :
    (failing ι T c).Path Machine.Free ⟨d, freed⟩ (tr.map .run) ⟨d', freed⟩ := by
  induction h with
  | nil => exact .nil
  | @snoc tr t t' l _ _ hst ih =>
    have hst : step t l = some t' := hst
    rw [List.map_append]
    refine ih.snoc trivial ?_
    simp only [failing, stepFailing, hst, Option.map_some]

omit [DecidableEq ι] [DecidableEq T] in
theorem leave_of_idle (hpc : d.owner = .idle) : d.leave = d := by
  rw [State.leave, ← hpc]

/-- The calls that throw are runs of the deque. -/
theorem pushOrThrow_path {e : BadAlloc} (hs : Sound m) (hpc : m.deque.owner = .idle)
    (h : (pushOrThrow (some site) item).run.run m = some (.error e, m')) :
    ∃ k, (failing ι T c).Path Machine.Free m
      (.run (.push item) :: List.replicate k (.run .owner) ++ [.throw site]) m' := by
  set d₃ : State ι T :=
    { m.deque with owner := .pushBuffer item m.deque.bottom m.deque.top } with hd₃
  have hcall : step m.deque (.push item) = some { m.deque with owner := .pushBottom item } := by
    simp only [step, hpc]
  -- the loads of the indices, the steps of the owner from there, and the exception
  have hthrow : ∀ {k : ℕ} {d : State ι T} {m₁ : Memory ι T},
      (machine ι T c).Path Machine.Free d₃ (List.replicate k .owner) d →
      throwPush ⟨d, m.freed⟩ site = some m₁ → ∃ k, (failing ι T c).Path Machine.Free m
        (.run (.push item) :: List.replicate k (.run .owner) ++ [.throw site]) m₁ := by
    intro k d m₁ hp ht
    have hrun : (machine ι T c).Path Machine.Free m.deque
        (.push item :: List.replicate (k + 2) .owner) d :=
      .cons trivial hcall (.cons trivial rfl (.cons trivial rfl hp))
    have hrun := run_path m.freed hrun
    rw [List.map_cons, List.map_replicate] at hrun
    exact ⟨k + 2, hrun.snoc trivial ht⟩
  have hsame : d₃.leave = m.deque := leave_of_idle hpc
  -- the steps of `grow` up to its store of `buffer_`
  let d₄ (new : Buffer) : State ι T := { m.deque.published m.deque.top m.deque.bottom new with
    owner := .growRetire item m.deque.bottom m.deque.allocated }
  have hgrow : ∀ {new : Buffer}, m.deque.full → (m.deque.heap m.deque.buffer).twice = some new →
      ∃ k, (machine ι T c).Path Machine.Free d₃ (List.replicate k .owner) (d₄ new) :=
    fun hfull hnew => publish_path hs.inv hpc hfull hnew
  cases pushOrThrow_throws h with
  | buffer hfull =>
    refine hthrow (k := 0) .nil ((if_pos hfull).trans ?_)
    rw [hsame]
  | slots hfull hnew =>
    refine hthrow (k := 0) .nil ((if_pos ⟨hfull, hnew⟩).trans ?_)
    rw [hsame]
  | roomy hfull =>
    have hst : step d₃ .owner =
        some { m.deque with owner := .pushSlot item m.deque.bottom m.deque.buffer } :=
      if_neg hfull
    refine hthrow (k := 1) (.cons trivial hst .nil) ?_
    exact congrArg (fun d => some { m with deque := d }) hsame
  | @grown new hfull hnew =>
    have hsame : (m.deque.published m.deque.top m.deque.bottom new).retire.leave =
        (m.deque.published m.deque.top m.deque.bottom new).retire := leave_of_idle hpc
    obtain ⟨k, hk⟩ := hgrow hfull hnew
    have hst : (machine ι T c).step (d₄ new) .owner =
        some { (m.deque.published m.deque.top m.deque.bottom new).retire with
          owner := .pushSlot item m.deque.bottom m.deque.allocated } := rfl
    have hk := hk.snoc trivial hst
    rw [← List.replicate_succ'] at hk
    refine hthrow hk ?_
    exact congrArg (fun d => some { m with deque := d }) hsame
  | @dangling new hfull hnew =>
    have hsame : (m.deque.published m.deque.top m.deque.bottom new).leave =
        m.deque.published m.deque.top m.deque.bottom new := leave_of_idle hpc
    obtain ⟨k, hk⟩ := hgrow hfull hnew
    refine hthrow hk ?_
    rw [← hsame]
    rfl

/-- A deque of capacity one with an item in it. -/
def oneItem : List (FailLabel Unit ℕ) :=
  List.flatten [[.run (.push 5)], List.replicate 5 (.run .owner), [.run .pushed]]

theorem failed_push_usable_box : ∃ m m' : Memory Unit ℕ,
    (failing Unit ℕ 1).ReachableUnder Spared m ∧ m'.deque.buffer = 1 ∧
      Same m.deque m'.deque ∧ Owns m' := by
  let d₀ : State Unit ℕ := (construct 1).get (by decide +kernel)
  let m₀ : Memory Unit ℕ := ⟨d₀, []⟩
  have h₀ : construct 1 = some d₀ := (Option.some_get _).symm
  let m := ((failing Unit ℕ 1).execUnder Spared m₀ oneItem).get (by decide +kernel)
  let new := ((m.deque.heap m.deque.buffer).twice).get (by decide +kernel)
  have hm : (failing Unit ℕ 1).ReachableUnder Spared m :=
    ⟨oneItem, m₀, ⟨h₀, rfl⟩, Machine.execUnder_path (Option.some_get _).symm⟩
  have hfull : m.deque.full := by decide +kernel
  have hnew : (m.deque.heap m.deque.buffer).twice = some new := (Option.some_get _).symm
  let m' : Memory Unit ℕ :=
    { m with deque := (m.deque.published m.deque.top m.deque.bottom new).retire }
  have hgrow : (growOrThrow (some .box) m.deque.top m.deque.bottom).run.run m = some (.ok (), m') :=
    growOrThrow_completes hnew (by decide) (by decide) (by decide)
  have hrun : (pushOrThrow (some .box) 6).run.run m = some (.error .badAlloc, m') :=
    (pushOrThrow_box (.inr ⟨hfull, hgrow⟩)).trans (if_pos rfl)
  exact ⟨m, m', hm, by decide +kernel, (failed_push_usable hm (by rfl) hrun).mpr (by decide)⟩

/-- Where `retired_` cannot grow, `buffer_` is left with a freed buffer. -/
theorem not_failed_push_usable : ¬ ∀ (m m' : Memory Unit ℕ) (item : ℕ) (site : Site) (e : BadAlloc),
    (failing Unit ℕ 1).ReachableUnder Spared m → m.deque.owner = .idle →
    (pushOrThrow (some site) item).run.run m = some (.error e, m') →
    Same m.deque m'.deque ∧ Owns m' := by
  intro hall
  let d₀ : State Unit ℕ := (construct 1).get (by decide +kernel)
  let m₀ : Memory Unit ℕ := ⟨d₀, []⟩
  have h₀ : construct 1 = some d₀ := (Option.some_get _).symm
  let m := ((failing Unit ℕ 1).execUnder Spared m₀ oneItem).get (by decide +kernel)
  have hm : (failing Unit ℕ 1).ReachableUnder Spared m :=
    ⟨oneItem, m₀, ⟨h₀, rfl⟩, Machine.execUnder_path (Option.some_get _).symm⟩
  have hfull : m.deque.full := by decide +kernel
  obtain ⟨new, hnew⟩ := Option.isSome_iff_exists.mp
    (by decide +kernel : (m.deque.heap m.deque.buffer).twice.isSome = true)
  obtain ⟨-, howns⟩ := hall m _ 6 .retire _ hm (by rfl)
    (pushOrThrow_growThrows hfull (growOrThrow_retire hnew))
  exact howns.2 (List.mem_append_right _ (List.mem_singleton_self _))

end Wss.ChaseLev
