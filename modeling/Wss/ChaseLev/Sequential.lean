import Wss.ChaseLev.Refine

/-!
# Whole calls and single steps of the deque, for its callers

* `push`: a `push` that no other operation comes in between of, as the code computes it. The
  injector's batch transfer, one critical section, is made of these.
* `popStep`, `stealStep`: one step of a call of `pop` or `steal`: the call, its next atomic
  operation, or its return with the result.

Results:
* `push_path`: `push` is what the steps of the owner compute, so it keeps the invariant.
* `push_refines`: it appends the item.
* `popStep_refines`, `stealStep_refines`: a step of a call is one of the deque.
-/

namespace Wss.ChaseLev

open Wss.Lib Atomic

variable {ι T : Type}

/-- The copy loop of `grow`, with `n` indices from `i` on left. -/
def copySlots (old : Buffer) : ℕ → ℤ → Buffer → Buffer
  | 0, _, new => new
  | n + 1, i, new => copySlots old n (i + 1) (new.store i (old.load i))

/-- `grow`, `none` where the buffer cannot be allocated. -/
def grow (d : State ι T) (t b : ℤ) : Option (State ι T) :=
  let old := d.heap d.buffer
  old.twice.map fun new =>
    { d with
      heap := Function.update d.heap d.allocated (copySlots old (b - t).toNat t new)
      allocated := d.allocated + 1
      buffer := d.allocated
      retired := d.retired ++ [d.allocated] }

/-- `push`, `none` where `grow` fails. -/
def push (d : State ι T) (item : T) : Option (State ι T) :=
  let b := d.bottom
  let t := d.top
  (if b - t > ((d.heap d.buffer).capacity : ℤ) - 1 then grow d t b else some d).map fun d =>
    { d with
      boxes := d.boxes ++ [item]
      heap := Function.update d.heap d.buffer
        ((d.heap d.buffer).store b (some d.boxes.length))
      bottom := b + 1 }

variable [DecidableEq ι] [DecidableEq T]

/-- A step of a call of `pop`, with the result where the call returns. -/
def popStep (d : State ι T) : Option (State ι T × Option (Option T)) :=
  match d.owner with
  | .idle => (step d .pop).map (·, none)
  | .popNone => (step d (.popped none)).map (·, some none)
  | .popTake (some p) => (step d (.popped d.boxes[p]?)).map (·, some d.boxes[p]?)
  | _ => (step d .owner).map (·, none)

/-- A step of a call of `steal` by `i`, with the result where the call returns. -/
def stealStep (d : State ι T) (i : ι) : Option (State ι T × Option (Option T)) :=
  match d.thief i with
  | .idle => (step d (.steal i)).map (·, none)
  | .stealEmpty | .stealLost | .stealTake none => (step d (.stolen i none)).map (·, some none)
  | .stealTake (some p) => (step d (.stolen i d.boxes[p]?)).map (·, some d.boxes[p]?)
  | _ => (step d (.thief i)).map (·, none)

/-! ## `push` is a run of the owner -/

variable {d d' : State ι T} {c : ℕ} {item : T}

/-- The owner takes `n` steps with no other thread in between. -/
theorem copy_path {old new : ℕ} (hne : old ≠ new) {h : ℕ → Buffer} {b : ℤ} :
    ∀ {n : ℕ} {i : ℤ} {nb : Buffer} {e : State ι T}, i + n = b → e.heap = Function.update h new nb →
      e.owner = growNext item b old new i →
      ∃ k, (machine ι T c).Path Machine.Free e (List.replicate k .owner)
        { e with heap := Function.update h new (copySlots (h old) n i nb)
                 owner := .growPublish item b new }
  | 0, i, nb, e, hib, hheap, hpc => by
    have he : e.owner = .growPublish item b new := by
      rw [hpc]
      exact if_pos (by omega)
    refine ⟨0, ?_⟩
    have : ({ e with heap := Function.update h new (copySlots (h old) 0 i nb)
                     owner := .growPublish item b new } : State ι T) = e := by
      rw [← he, copySlots, ← hheap]
    rw [this]
    exact .nil
  | n + 1, i, nb, e, hib, hheap, hpc => by
    have he : e.owner = .growLoad item b old new i := by
      rw [hpc]
      exact if_neg (by omega)
    have hold : e.heap old = h old := by rw [hheap, Function.update_of_ne hne]
    have hnew : e.heap new = nb := by rw [hheap, Function.update_self]
    -- the load and the store of slot `i`
    have h1 : step e .owner =
        some { e with owner := .growStore item b old new i ((h old).load i) } := by
      simp only [step, stepOwner, he, hold]
    set e₁ : State ι T := { e with owner := .growStore item b old new i ((h old).load i) } with he₁
    have h2 : step e₁ .owner = some { e₁ with
        heap := Function.update h new (nb.store i ((h old).load i))
        owner := growNext item b old new (i + 1) } := by
      simp only [step, stepOwner, he₁, hnew]
      rw [hheap, Function.update_idem]
    obtain ⟨k, hk⟩ := copy_path hne (e := { e₁ with
      heap := Function.update h new (nb.store i ((h old).load i))
      owner := growNext item b old new (i + 1) })
      (by push_cast at hib ⊢; omega : i + 1 + (n : ℤ) = b) rfl rfl
    exact ⟨k + 2, .cons trivial h1 (.cons trivial h2 hk)⟩

/-- The owner allocates a buffer, copies the slots and publishes it. -/
theorem publish_path (hi : Inv d) (hpc : d.owner = .idle)
    (hfull : d.bottom - d.top > ((d.heap d.buffer).capacity : ℤ) - 1) {nb : Buffer}
    (hnb : (d.heap d.buffer).twice = some nb) :
    ∃ k, (machine ι T c).Path Machine.Free { d with owner := .pushBuffer item d.bottom d.top }
      (List.replicate k .owner)
      { d with
        heap := Function.update d.heap d.allocated
          (copySlots (d.heap d.buffer) (d.bottom - d.top).toNat d.top nb)
        allocated := d.allocated + 1
        buffer := d.allocated
        owner := .growRetire item d.bottom d.allocated } := by
  have hb : d.lb = d.bottom := by simp only [State.lb, hpc]
  have htop := hi.top_le
  set d₃ : State ι T := { d with owner := .pushBuffer item d.bottom d.top } with hd₃
  set d₄ : State ι T := { d₃ with
    heap := Function.update d.heap d.allocated nb
    allocated := d.allocated + 1
    owner := growNext item d.bottom d.buffer d.allocated d.top }
  have hst : step d₃ .owner = some d₄ := by
    simp only [step, stepOwner, hd₃, if_pos hfull, hnb, Option.map_some]
    rfl
  obtain ⟨k, hk⟩ := copy_path (T := T) (c := c) hi.buffer_lt.ne
    (by omega : d.top + ((d.bottom - d.top).toNat : ℤ) = d.bottom) (e := d₄) rfl rfl
  refine ⟨1 + (k + 1), ?_⟩
  rw [← List.replicate_append_replicate, ← List.replicate_append_replicate]
  exact (Machine.Path.cons trivial hst .nil : Machine.Path _ _ _ [_] _).trans
    (hk.trans (.cons trivial rfl .nil))

/-- **An undisturbed `push` is a run of the owner**: the call, its atomic operations, the
return. -/
theorem push_path (hi : Inv d) (hpc : d.owner = .idle) (h : push d item = some d') :
    ∃ e e' k, step d (.push item) = some e ∧
      (machine ι T c).Path Machine.Free e (List.replicate k .owner) e' ∧
      step e' .pushed = some d' := by
  have hb : d.lb = d.bottom := by simp only [State.lb, hpc]
  have htop := hi.top_le
  set d₃ : State ι T := { d with owner := .pushBuffer item d.bottom d.top } with hd₃
  -- the loads of the indices
  have hstart : (machine ι T c).Path Machine.Free { d with owner := .pushBottom item }
      (List.replicate 2 .owner) d₃ :=
    .cons trivial rfl (.cons trivial rfl .nil)
  -- from the load of the buffer to the slot store
  have hmid : ∃ k, ∃ e : State ι T,
      (machine ι T c).Path Machine.Free d₃ (List.replicate k .owner) e ∧
      e.owner = .pushSlot item d.bottom e.buffer ∧
      d' = { e with boxes := e.boxes ++ [item]
                    heap := Function.update e.heap e.buffer
                      ((e.heap e.buffer).store d.bottom (some e.boxes.length))
                    bottom := d.bottom + 1
                    owner := .idle } := by
    unfold push at h
    by_cases hfull : d.bottom - d.top > ((d.heap d.buffer).capacity : ℤ) - 1
    · simp only [if_pos hfull, grow, Option.map_map, Option.map_eq_some_iff] at h
      obtain ⟨nb, hnb, rfl⟩ := h
      obtain ⟨k, hk⟩ := publish_path hi hpc hfull hnb
      refine ⟨k + 1, { d with
        heap := Function.update d.heap d.allocated
          (copySlots (d.heap d.buffer) (d.bottom - d.top).toNat d.top nb)
        allocated := d.allocated + 1
        buffer := d.allocated
        retired := d.retired ++ [d.allocated]
        owner := .pushSlot item d.bottom d.allocated }, ?_, rfl, ?_⟩
      · rw [← List.replicate_append_replicate]
        exact hk.trans (.cons trivial rfl .nil)
      · rw [← hpc]
        rfl
    · simp only [if_neg hfull, Option.map_some, Option.some.injEq] at h
      refine ⟨1, { d with owner := .pushSlot item d.bottom d.buffer }, ?_, rfl, ?_⟩
      · refine .cons trivial ?_ .nil
        simp only [machine, step, stepOwner, hd₃, if_neg hfull]
      · rw [← h, ← hpc]
  obtain ⟨k, e, hp, he, rfl⟩ := hmid
  have hend : (machine ι T c).Path Machine.Free e (List.replicate 2 .owner)
      { e with boxes := e.boxes ++ [item]
               heap := Function.update e.heap e.buffer
                 ((e.heap e.buffer).store d.bottom (some e.boxes.length))
               bottom := d.bottom + 1
               owner := .pushReturn } :=
    .cons trivial (by simp only [machine, step, stepOwner, he]; rfl) (.cons trivial rfl .nil)
  have hall := hstart.trans (hp.trans hend)
  rw [List.replicate_append_replicate, List.replicate_append_replicate] at hall
  have hcall : step d (.push item) = some { d with owner := .pushBottom item } := by
    simp only [step, hpc]
  exact ⟨_, _, _, hcall, hall, rfl⟩

/-- **An undisturbed `push` appends its item**, and changes nothing else in the abstract deque. -/
theorem push_refines (hi : Inv d) (hpc : d.owner = .idle) (h : push d item = some d') :
    Inv d' ∧ d'.owner = .idle ∧
      toAtomic d' = { toAtomic d with items := (toAtomic d).items ++ [item] } := by
  obtain ⟨e, e', k, hcall, hpath, hret⟩ := push_path (c := 1) hi hpc h
  have hcall' := (step_refines hi hcall).of_push
  -- the call takes effect at one of the steps
  have hmid : Inv e' ∧ (toAtomic e' = { toAtomic d with owner := .pushing item } ∨
      toAtomic e' = { toAtomic d with
        items := (toAtomic d).items ++ [item], owner := .pushed }) := by
    refine hpath.mem.preserves (I := fun e => Inv e ∧
      (toAtomic e = { toAtomic d with owner := .pushing item } ∨
        toAtomic e = { toAtomic d with items := (toAtomic d).items ++ [item], owner := .pushed }))
      (fun t l t' hl hst ht => ?_) ⟨step_inv hi hcall, .inl hcall'⟩
    obtain rfl := List.eq_of_mem_replicate hl.2
    have hst : step t .owner = some t' := hst
    refine ⟨step_inv ht.1 hst, ?_⟩
    have hr := step_refines ht.1 hst
    rcases ht.2 with he | he
    · rcases hr.of_pushing (by rw [he]) with h' | h'
      · exact .inl (h'.trans he)
      · exact .inr (by rw [h', he])
    · exact .inr ((hr.of_owner_pushed (by rw [he])).trans he)
  have hi' := step_inv hmid.1 hret
  obtain ⟨hstat, hret'⟩ := (step_refines hmid.1 hret).of_pushed
  have hidle : d'.owner = .idle := by
    simp only [step] at hret
    split at hret
    · rw [← Option.some.inj hret]
    · exact absurd hret (by simp)
  have hidle₀ : (toAtomic d).owner = .idle := by simp only [toAtomic, hpc, ownerStatus]
  refine ⟨hi', hidle, ?_⟩
  rcases hmid.2 with he | he
  · rw [he] at hstat
    exact absurd hstat (by simp)
  · rw [hret', he, ← hidle₀]

/-! ## Steps of `pop` and `steal` -/

variable {i : ι} {r : Option (Option T)}

theorem mapped_refines {l : Label ι T} {q : Option (Option T)} (hi : Inv d)
    (h : (step d l).map (·, q) = some (d', r)) :
    r = q ∧ Inv d' ∧ Step (toAtomic d) l (toAtomic d') := by
  obtain ⟨e, he, hq⟩ := Option.map_eq_some_iff.mp h
  obtain ⟨rfl, rfl⟩ := Prod.mk.inj hq
  exact ⟨rfl, step_inv hi he, step_refines hi he⟩

/-- **A step of a call of `pop`** is one of the deque, a return if it has a result. -/
theorem popStep_refines (hi : Inv d) (h : popStep d = some (d', r)) :
    Inv d' ∧ ((∃ x, r = some x ∧ Step (toAtomic d) (.popped x) (toAtomic d')) ∨
      (r = none ∧
        (Step (toAtomic d) .pop (toAtomic d') ∨ Step (toAtomic d) .owner (toAtomic d')))) := by
  unfold popStep at h
  split at h
  · obtain ⟨hr, hi', hst⟩ := mapped_refines hi h
    exact ⟨hi', .inr ⟨hr, .inl hst⟩⟩
  · obtain ⟨hr, hi', hst⟩ := mapped_refines hi h
    exact ⟨hi', .inl ⟨_, hr, hst⟩⟩
  · obtain ⟨hr, hi', hst⟩ := mapped_refines hi h
    exact ⟨hi', .inl ⟨_, hr, hst⟩⟩
  · obtain ⟨hr, hi', hst⟩ := mapped_refines hi h
    exact ⟨hi', .inr ⟨hr, .inr hst⟩⟩

/-- **A step of a call of `steal`** is one of the deque, a return if it has a result. -/
theorem stealStep_refines (hi : Inv d) (h : stealStep d i = some (d', r)) :
    Inv d' ∧ ((∃ x, r = some x ∧ Step (toAtomic d) (.stolen i x) (toAtomic d')) ∨
      (r = none ∧
        (Step (toAtomic d) (.steal i) (toAtomic d') ∨
          Step (toAtomic d) (.thief i) (toAtomic d')))) := by
  unfold stealStep at h
  cases hpc : d.thief i with
  | idle =>
    rw [hpc] at h
    obtain ⟨hr, hi', hst⟩ := mapped_refines hi h
    exact ⟨hi', .inr ⟨hr, .inl hst⟩⟩
  | stealTop | stealBottom | stealBuffer | stealSlot | stealCas =>
    rw [hpc] at h
    obtain ⟨hr, hi', hst⟩ := mapped_refines hi h
    exact ⟨hi', .inr ⟨hr, .inr hst⟩⟩
  | stealEmpty | stealLost =>
    rw [hpc] at h
    obtain ⟨hr, hi', hst⟩ := mapped_refines hi h
    exact ⟨hi', .inl ⟨_, hr, hst⟩⟩
  | stealTake ptr =>
    rw [hpc] at h
    cases ptr with
    | none | some p =>
      obtain ⟨hr, hi', hst⟩ := mapped_refines hi h
      exact ⟨hi', .inl ⟨_, hr, hst⟩⟩

end Wss.ChaseLev
