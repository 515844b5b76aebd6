import Wss.ChaseLev.Ordered
import Mathlib.Algebra.BigOperators.Group.Finset.Basic

/-!
# The memory a deque retains

`grow` frees no buffer before the destructor runs, so a thief may go on with one that has been
replaced. What this costs: capacities double, so all buffers together have less than twice the slots
of the newest, and the newest is twice a number of items the deque once held.

`Retained c₀ H`: what holds in the runs of a deque that starts with `c₀` slots and never holds more
than `H` items.

Results:
* `reachable_retained`: it holds in every such run.
* `retained`: the bounds, and who owns the buffers that thieves may still read.
-/

namespace Wss.ChaseLev

open Wss.Lib

variable {ι T : Type}

/-- `grow` has allocated a buffer that `retired_` does not own yet. -/
def OwnerPc.growing : OwnerPc T → Bool
  | .growLoad _ _ _ _ _ | .growStore _ _ _ _ _ _ | .growPublish _ _ _ | .growRetire _ _ _ => true
  | _ => false

theorem growNext_growing (item : T) (b : ℤ) (old new : ℕ) (i : ℤ) :
    (growNext item b old new i).growing = true := by
  rcases growNext_cases item b old new i with h | h <;> rw [h] <;> rfl

theorem growNext_ne (item item' : T) (b b' t : ℤ) (old new : ℕ) (i : ℤ) :
    growNext item b old new i ≠ .pushBuffer item' b' t := by
  rcases growNext_cases item b old new i with h | h <;> rw [h] <;> simp

/-- The slots of all buffers. -/
def State.slotsRetained (d : State ι T) : ℕ :=
  ∑ k ∈ Finset.range d.allocated, (d.heap k).capacity

/-- The buffers that `retired_` owns. -/
def State.owned (d : State ι T) : List ℕ :=
  List.range (if d.owner.growing then d.allocated - 1 else d.allocated)

/-- Each buffer is twice as large as the one before it, all are owned, and the last one is no larger
than `H` items need. -/
structure Retained (c₀ H : ℕ) (d : State ι T) : Prop where
  capacity : ∀ k, k < d.allocated → (d.heap k).capacity = c₀ * 2 ^ k
  retired : d.retired = d.owned
  peak : (d.heap (d.allocated - 1)).capacity ≤ max c₀ (2 * H)
  full : ∀ item b t, d.owner = .pushBuffer item b t → b - t ≤ H

variable {d d' : State ι T} {c₀ H c : ℕ}

theorem store_capacity (d : State ι T) (buf : ℕ) (i : ℤ) (ptr : Option ℕ) (k : ℕ) :
    (Function.update d.heap buf ((d.heap buf).store i ptr) k).capacity = (d.heap k).capacity := by
  by_cases hk : k = buf
  · rw [hk, Function.update_self, Buffer.store_capacity]
  · rw [Function.update_of_ne hk]

/-- A step that allocates nothing. -/
theorem Retained.keep (h : Retained c₀ H d) (hcap : ∀ k, (d'.heap k).capacity = (d.heap k).capacity)
    (halloc : d'.allocated = d.allocated) (hret : d'.retired = d.retired)
    (hgrow : d'.owner.growing = d.owner.growing)
    (hfull : ∀ item b t, d'.owner = .pushBuffer item b t → b - t ≤ H) : Retained c₀ H d' where
  capacity k hk := (hcap k).trans (h.capacity k (halloc ▸ hk))
  retired := by
    unfold State.owned
    rw [hret, hgrow, halloc]
    exact h.retired
  peak := by
    rw [halloc, hcap]
    exact h.peak
  full := hfull

/-- The new buffer of `grow` is twice as large as a number of items the deque holds. -/
theorem Retained.alloc (h : Retained c₀ H d) (hn : Numbered d) {item : T} {b t : ℤ}
    (hpc : d.owner = .pushBuffer item b t) (hfull : b - t > ((d.heap d.buffer).capacity : ℤ) - 1)
    {new : Buffer} (hnew : (d.heap d.buffer).twice = some new) :
    Retained c₀ H { d with
      heap := Function.update d.heap d.allocated new
      allocated := d.allocated + 1
      owner := growNext item b d.buffer d.allocated t } := by
  have hcap : new.capacity = (d.heap d.buffer).capacity * 2 := (Buffer.make_eq_some hnew).1
  have halloc : d.allocated = d.buffer + 1 := by simpa only [Numbered, hpc] using hn
  have hle := h.full item b t hpc
  refine ⟨fun k hk => ?_, ?_, ?_, fun _ _ _ he => (growNext_ne _ _ _ _ _ _ _ _ he).elim⟩
  · have hk : k < d.allocated + 1 := hk
    by_cases hk' : k = d.allocated
    · show (Function.update d.heap d.allocated new k).capacity = _
      rw [hk', Function.update_self, hcap, h.capacity d.buffer (by omega), halloc, pow_succ,
        Nat.mul_assoc]
    · show (Function.update d.heap d.allocated new k).capacity = _
      rw [Function.update_of_ne hk']
      exact h.capacity k (by omega)
  · have hret := h.retired
    unfold State.owned at hret ⊢
    rw [hpc] at hret
    rw [growNext_growing]
    exact hret
  · show (Function.update d.heap d.allocated new (d.allocated + 1 - 1)).capacity ≤ _
    rw [Nat.add_sub_cancel, Function.update_self, hcap]
    omega

theorem stepOwner_retained (h : Retained c₀ H d) (ho : OwnerOk d) (hn : Numbered d)
    (hH : (remaining d).length ≤ H) (hst : stepOwner d = some d') : Retained c₀ H d' := by
  have hpeak : d.bottom - d.top ≤ H := by
    rw [remaining, length_slice] at hH
    omega
  unfold stepOwner at hst
  unfold OwnerOk at ho
  cases hpc : d.owner with
  | idle | pushReturn | popTake _ | popNone => simp [hpc] at hst
  | pushTop item b =>
    simp only [hpc, Option.some.injEq] at hst ho
    subst hst
    refine h.keep (fun _ => rfl) rfl rfl (by rw [hpc]; rfl) fun item' b' t' he => ?_
    obtain ⟨-, rfl, rfl⟩ := OwnerPc.pushBuffer.inj he
    exact ho ▸ hpeak
  | pushBuffer item b t =>
    simp only [hpc] at hst
    split_ifs at hst with hfull
    · obtain ⟨new, hnew, rfl⟩ := Option.map_eq_some_iff.mp hst
      exact h.alloc hn hpc hfull hnew
    · obtain rfl := Option.some.inj hst
      exact h.keep (fun _ => rfl) rfl rfl (by rw [hpc]; rfl) (by simp)
  | growStore item b old new i ptr =>
    simp only [hpc, Option.some.injEq] at hst
    subst hst
    exact h.keep (store_capacity d new i ptr) rfl rfl (by rw [hpc, growNext_growing]; rfl)
      fun _ _ _ he => (growNext_ne _ _ _ _ _ _ _ _ he).elim
  | pushSlot item b buf =>
    simp only [hpc, Option.some.injEq] at hst
    subst hst
    exact h.keep (store_capacity d buf b _) rfl rfl (by rw [hpc]; rfl) (by simp)
  | growRetire item b new =>
    simp only [hpc, Option.some.injEq] at hst ho
    subst hst
    have halloc : d.allocated = d.buffer + 1 := by simpa only [Numbered, hpc] using hn
    refine ⟨h.capacity, ?_, h.peak, by simp⟩
    have hret : d.retired = List.range (d.allocated - 1) := by
      have hret := h.retired
      unfold State.owned at hret
      rwa [hpc] at hret
    show d.retired ++ [new] = List.range d.allocated
    rw [hret, ho.2.1, halloc, Nat.add_sub_cancel, ← List.range_succ]
  | popTop | popSlot | popCas =>
    simp only [hpc] at hst
    split_ifs at hst <;> obtain rfl := Option.some.inj hst
    all_goals exact h.keep (fun _ => rfl) rfl rfl (by rw [hpc]; rfl) (by simp)
  | pushBottom | growLoad | growPublish | pushPublish | popBottom | popBuffer | popLower
  | popRestore
  | popRaise =>
    simp only [hpc, Option.some.injEq] at hst
    subst hst
    exact h.keep (fun _ => rfl) rfl rfl (by rw [hpc]; rfl) (by simp)

variable [DecidableEq ι]

/-- A thief leaves the buffers alone. -/
theorem stepThief_buffers {i : ι} (h : stepThief d i = some d') :
    d'.heap = d.heap ∧ d'.allocated = d.allocated ∧ d'.retired = d.retired ∧
      d'.buffer = d.buffer ∧ d'.owner = d.owner := by
  unfold stepThief at h
  cases hpc : d.thief i with
  | idle | stealTake _ | stealEmpty | stealLost => simp [hpc] at h
  | stealBottom | stealCas =>
    simp only [hpc] at h
    split_ifs at h <;> obtain rfl := Option.some.inj h <;> exact ⟨rfl, rfl, rfl, rfl, rfl⟩
  | stealTop | stealBuffer | stealSlot =>
    simp only [hpc, Option.some.injEq] at h
    subst h
    exact ⟨rfl, rfl, rfl, rfl, rfl⟩

variable [DecidableEq T] {l : Label ι T}

theorem step_retained (h : Retained c₀ H d) (ho : OwnerOk d) (hn : Numbered d)
    (hH : (remaining d).length ≤ H) (hst : step d l = some d') : Retained c₀ H d' := by
  cases l with
  | owner => exact stepOwner_retained h ho hn hH hst
  | thief i =>
    obtain ⟨hheap, halloc, hret, -, hpc⟩ := stepThief_buffers hst
    refine h.keep (fun k => by rw [hheap]) halloc hret (by rw [hpc]) ?_
    rw [hpc]
    exact h.full
  | push | pushed | pop =>
    simp only [step] at hst
    split at hst
    · rename_i hpc
      obtain rfl := Option.some.inj hst
      exact h.keep (fun _ => rfl) rfl rfl (by rw [hpc]; rfl) (by simp)
    · exact absurd hst (by simp)
  | popped r =>
    simp only [step] at hst
    split at hst
    · rename_i hpc
      split_ifs at hst
      obtain rfl := Option.some.inj hst
      exact h.keep (fun _ => rfl) rfl rfl (by rw [hpc]; rfl) (by simp)
    · rename_i hpc
      split_ifs at hst
      obtain rfl := Option.some.inj hst
      exact h.keep (fun _ => rfl) rfl rfl (by rw [hpc]; rfl) (by simp)
    · exact absurd hst (by simp)
  | steal i =>
    simp only [step] at hst
    split at hst
    · obtain rfl := Option.some.inj hst
      exact h.keep (fun _ => rfl) rfl rfl rfl h.full
    · exact absurd hst (by simp)
  | stolen i r =>
    simp only [step] at hst
    split at hst
    all_goals first
      | (split_ifs at hst; obtain rfl := Option.some.inj hst
         exact h.keep (fun _ => rfl) rfl rfl rfl h.full)
      | exact absurd hst (by simp)

theorem step_numbered (hn : Numbered d) (hst : step d l = some d') : Numbered d' := by
  cases l with
  | owner => exact stepOwner_numbered hn hst
  | thief i =>
    obtain ⟨-, halloc, -, hbuf, hpc⟩ := stepThief_buffers hst
    unfold Numbered
    rw [hbuf, halloc, hpc]
    exact hn
  | _ => exact (step_called hst (by simp) (by simp)).numbered hn

/-! ## Runs -/

/-- The deque never holds more than `H` items. -/
def Holds (H : ℕ) (d : State ι T) (_ : Label ι T) : Prop := (remaining d).length ≤ H

instance (d : State ι T) (l : Label ι T) : Decidable (Holds H d l) :=
  inferInstanceAs (Decidable ((remaining d).length ≤ H))

theorem reachable_retained (hc : roundUpPow2 c = some c₀)
    (h : (machine ι T c).ReachableUnder (Holds H) d) : Retained c₀ H d ∧ Numbered d := by
  refine h.invariant (I := fun d => Retained c₀ H d ∧ Numbered d) (fun d h₀ => ?_)
    fun d l d' hd hok hst hI => ?_
  · have h₀ : construct c = some d := h₀
    unfold construct at h₀
    split at h₀
    · exact absurd h₀ (by simp)
    · rename_i cap hcap
      obtain ⟨buf, hbuf, rfl⟩ := Option.map_eq_some_iff.mp h₀
      obtain rfl : cap = c₀ := Option.some.inj (hcap.symm.trans hc)
      have hsize := (Buffer.make_eq_some hbuf).1
      refine ⟨⟨fun k hk => ?_, rfl, hsize.trans_le (le_max_left _ _), by simp⟩, rfl⟩
      obtain rfl : k = 0 := by
        have hk : k < 1 := hk
        omega
      rw [pow_zero, Nat.mul_one]
      exact hsize
  · obtain ⟨hr, hn⟩ := hI
    exact ⟨step_retained hr (reachable_inv hd.reachable).owner hn hok hst, step_numbered hn hst⟩

/-- **What a deque retains is bounded by what it once held.** In the runs of a deque constructed
with `c₀` slots that never holds more than `H` items, every buffer is twice the one before, all of
them together have less than twice the slots of the newest, and the newest has `c₀` or at most
`2 * H`. `retired_` owns all buffers but one that `grow` is about to hand over. A buffer that a
thief may still read is owned, or is this one. -/
theorem retained (hc : roundUpPow2 c = some c₀)
    (h : (machine ι T c).ReachableUnder (Holds H) d) :
    (∀ k, k < d.allocated → (d.heap k).capacity = c₀ * 2 ^ k) ∧
    d.slotsRetained + c₀ = 2 * (d.heap (d.allocated - 1)).capacity ∧
    (d.heap (d.allocated - 1)).capacity ≤ max c₀ (2 * H) ∧
    d.retired = List.range (if d.owner.growing then d.allocated - 1 else d.allocated) ∧
    ∀ i t buf, d.thief i = .stealSlot t buf →
      buf ∈ d.retired ∨ ∃ item b, d.owner = .growRetire item b buf := by
  obtain ⟨hr, hn⟩ := reachable_retained hc h
  have hi := reachable_inv h.reachable
  have hpos : d.buffer < d.allocated := hi.buffer_lt
  have hsum : ∀ n, n ≤ d.allocated →
      ∑ k ∈ Finset.range n, (d.heap k).capacity + c₀ = c₀ * 2 ^ n := by
    intro n hle
    induction n with
    | zero => simp
    | succ n ih =>
      rw [Finset.sum_range_succ, Nat.add_right_comm, ih (by omega), hr.capacity n (by omega),
        pow_succ]
      ring
  refine ⟨hr.capacity, ?_, hr.peak, hr.retired, fun i t buf hpc => ?_⟩
  · obtain ⟨n, hn'⟩ : ∃ n, d.allocated = n + 1 := ⟨d.allocated - 1, by omega⟩
    unfold State.slotsRetained
    rw [hsum _ le_rfl, hn', Nat.add_sub_cancel, hr.capacity n (by omega), pow_succ]
    ring
  · have hle : buf ≤ d.buffer := by
      have ht := hi.thief i
      rw [hpc] at ht
      exact ht.2.1
    have hret := hr.retired
    unfold State.owned at hret
    by_cases hgrow : ∃ item b, d.owner = .growRetire item b buf
    · exact .inr hgrow
    · left
      rw [hret, List.mem_range]
      have ho := hi.owner
      unfold Numbered at hn
      unfold OwnerOk at ho
      cases hown : d.owner with
      | growRetire item b new =>
        simp only [hown] at hn ho
        have hne : buf ≠ new := fun he => hgrow ⟨item, b, by rw [hown, he]⟩
        simp only [OwnerPc.growing, if_true]
        omega
      | growLoad | growStore | growPublish =>
        simp only [hown] at hn
        simp only [OwnerPc.growing, if_true]
        omega
      | _ =>
        simp only [OwnerPc.growing]
        exact hle.trans_lt hpos

/-- Three items in a deque constructed with one slot: `7` slots in three buffers. -/
theorem retained_three : ∃ d : State (Fin 1) ℕ,
    d.allocated = 3 ∧ d.slotsRetained + 1 = 2 * (d.heap 2).capacity ∧
      (d.heap 2).capacity ≤ max 1 (2 * 3) ∧ (d.heap 2).capacity = 4 := by
  let d₀ : State (Fin 1) ℕ := (construct 1).get (by decide)
  let pushes (item steps : ℕ) : List (Label (Fin 1) ℕ) :=
    .push item :: List.replicate steps .owner ++ [.pushed]
  let run := pushes 7 5 ++ pushes 8 9 ++ pushes 9 11
  let d := ((machine (Fin 1) ℕ 1).execUnder (Holds 3) d₀ run).get (by decide +kernel)
  have hd : (machine (Fin 1) ℕ 1).ReachableUnder (Holds 3) d :=
    ⟨run, d₀, (Option.some_get _).symm, Machine.execUnder_path (Option.some_get _).symm⟩
  have h := retained (by decide : roundUpPow2 1 = some 1) hd
  exact ⟨d, by decide +kernel, h.2.1, h.2.2.1, by decide +kernel⟩

end Wss.ChaseLev
