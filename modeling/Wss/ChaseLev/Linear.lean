import Wss.ChaseLev.Refine
import Mathlib.Data.List.Perm.Basic
import Mathlib.Data.List.Sort

/-!
# `ChaseLevDeque` is linearizable and loses nothing

Results:
* `history_linearizable`: the calls and returns of every run are those of the sequential object
  `Atomic.spec`.
* `deque_linearizable` adds what follows for the boxes, and that the indices stay in the range of
  `std::int64_t`.

`takes` is the list of the pointers that the callers of a run have taken, in order: a `pop` or a
`steal` takes at the step after which it goes on to move the item out and `delete` its box.
-/

namespace Wss.ChaseLev

open Wss.Lib Atomic

variable {ι T : Type} {d d' d₀ : State ι T} {K : List (Option ℕ)} {p : ℕ}

/-- The pointer a caller has taken and not deleted yet. -/
def taking (d : State ι T) : Holder ι → Option ℕ
  | .index _ => none
  | .owner =>
    match d.owner with
    | .popTake ptr => ptr
    | _ => none
  | .thief i => (d.thief i).held

/-- The pointer taken by the step that led to `d'`, none at most steps. -/
def taken (d' : State ι T) : Label ι T → List (Option ℕ)
  | .owner =>
    match d'.owner with
    | .popTake ptr => [ptr]
    | _ => []
  | .thief i =>
    match d'.thief i with
    | .stealTake ptr => [ptr]
    | _ => []
  | .push _ | .pushed | .pop | .popped _ | .steal _ | .stolen _ _ => []

/-- How many items a run pushes. -/
def pushes (tr : List (Label ι T)) : ℕ :=
  tr.countP fun
    | .push _ => true
    | _ => false

/-! ## The pointers taken so far -/

/-- `K` lists the pointers taken so far: each once, none of them null, and those that are not
deleted are in the hands of their takers. -/
structure Takes (d : State ι T) (K : List (Option ℕ)) : Prop where
  nodup : K.Nodup
  mem : ∀ {ptr}, ptr ∈ K ↔ ∃ p, ptr = some p ∧ (p ∈ d.deleted ∨ ∃ h, taking d h = some p)

theorem held_of_taking {h : Holder ι} (hp : taking d h = some p) : held d h = some p := by
  cases h with
  | index i => exact absurd hp (by simp [taking])
  | owner =>
    simp only [taking] at hp
    split at hp
    · rename_i ptr hpc
      simp only [held, State.heldOwner, hpc, hp]
    · exact absurd hp (by simp)
  | thief i => exact hp

theorem Takes.same (hK : Takes d K) (hdel : d'.deleted = d.deleted)
    (hsame : ∀ h, taking d' h = taking d h) : Takes d' K :=
  ⟨hK.nodup, by simp only [hdel, hsame]; exact hK.mem⟩

/-- A caller takes a pointer. -/
theorem Takes.take (hK : Takes d K) (hi' : Inv d') {h : Holder ι} (hp : taking d' h = some p)
    (hdel : d'.deleted = d.deleted) (hnone : taking d h = none)
    (hother : ∀ k, k ≠ h → taking d' k = taking d k) : Takes d' (K ++ [some p]) := by
  have hnew : some p ∉ K := fun hmem => by
    obtain ⟨q, hq, hc⟩ := hK.mem.mp hmem
    obtain rfl := Option.some.inj hq
    rcases hc with hc | ⟨k, hk⟩
    · exact (hi'.ledger.alive (held_of_taking hp)).2 (hdel ▸ hc)
    · by_cases hkh : k = h
      · rw [hkh, hnone] at hk
        exact absurd hk (by simp)
      · rw [← hother k hkh] at hk
        exact hkh (hi'.ledger.unique (held_of_taking hk) (held_of_taking hp))
  refine ⟨List.nodup_append.mpr ⟨hK.nodup, List.nodup_singleton _, fun a ha b hb e => ?_⟩,
    fun {ptr} => ?_⟩
  · rw [List.mem_singleton.mp hb] at e
    exact hnew (e ▸ ha)
  · rw [List.mem_append, List.mem_singleton, hK.mem, hdel]
    constructor
    · rintro (⟨q, rfl, hq | ⟨k, hk⟩⟩ | rfl)
      · exact ⟨q, rfl, .inl hq⟩
      · have hkh : k ≠ h := fun e => by rw [e, hnone] at hk; exact absurd hk (by simp)
        exact ⟨q, rfl, .inr ⟨k, (hother k hkh).trans hk⟩⟩
      · exact ⟨p, rfl, .inr ⟨h, hp⟩⟩
    · rintro ⟨q, rfl, hq | ⟨k, hk⟩⟩
      · exact .inl ⟨q, rfl, .inl hq⟩
      · by_cases hkh : k = h
        · rw [hkh, hp] at hk
          exact .inr hk.symm
        · exact .inl ⟨q, rfl, .inr ⟨k, (hother k hkh).symm.trans hk⟩⟩

/-- A caller deletes the box it has taken. -/
theorem Takes.delete (hK : Takes d K) {h : Holder ι} (hp : taking d h = some p)
    (hdel : d'.deleted = d.deleted ++ [p]) (hnone : taking d' h = none)
    (hother : ∀ k, k ≠ h → taking d' k = taking d k) : Takes d' K := by
  refine ⟨hK.nodup, fun {ptr} => hK.mem.trans ?_⟩
  rw [hdel]
  constructor
  · rintro ⟨q, rfl, hq | ⟨k, hk⟩⟩
    · exact ⟨q, rfl, .inl (List.mem_append_left _ hq)⟩
    · by_cases hkh : k = h
      · rw [hkh, hp] at hk
        have hq := List.mem_singleton.mpr (Option.some.inj hk).symm
        exact ⟨q, rfl, .inl (List.mem_append_right _ hq)⟩
      · exact ⟨q, rfl, .inr ⟨k, (hother k hkh).trans hk⟩⟩
  · rintro ⟨q, rfl, hq | ⟨k, hk⟩⟩
    · rcases List.mem_append.mp hq with hq | hq
      · exact ⟨q, rfl, .inl hq⟩
      · exact ⟨q, rfl, .inr ⟨h, by rw [hp, List.mem_singleton.mp hq]⟩⟩
    · have hkh : k ≠ h := fun e => by rw [e, hnone] at hk; exact absurd hk (by simp)
      exact ⟨q, rfl, .inr ⟨k, (hother k hkh).symm.trans hk⟩⟩

theorem stepOwner_frame (h : stepOwner d = some d') :
    d'.deleted = d.deleted ∧ d'.thief = d.thief ∧ taking d .owner = none := by
  unfold stepOwner at h
  cases hpc : d.owner with
  | idle | pushReturn | popTake _ | popNone => simp [hpc] at h
  | popTop _ _ | popCas _ _ | popSlot _ _ _ =>
    simp only [hpc] at h
    split at h <;> (obtain rfl := Option.some.inj h; exact ⟨rfl, rfl, by simp only [taking, hpc]⟩)
  | pushBuffer item b t =>
    simp only [hpc] at h
    split at h
    · obtain ⟨nb, -, rfl⟩ := Option.map_eq_some_iff.mp h
      exact ⟨rfl, rfl, by simp only [taking, hpc]⟩
    · obtain rfl := Option.some.inj h
      exact ⟨rfl, rfl, by simp only [taking, hpc]⟩
  | _ =>
    simp only [hpc, Option.some.injEq] at h
    subst h
    exact ⟨rfl, rfl, by simp only [taking, hpc]⟩

variable [DecidableEq ι]

theorem stepThief_frame {i : ι} (h : stepThief d i = some d') :
    d'.deleted = d.deleted ∧ d'.owner = d.owner ∧ (∀ j, j ≠ i → d'.thief j = d.thief j) ∧
      (d.thief i).held = none := by
  unfold stepThief at h
  cases hpc : d.thief i with
  | idle | stealTake _ | stealEmpty | stealLost => simp [hpc] at h
  | stealBottom _ | stealCas _ _ =>
    simp only [hpc] at h
    split at h <;>
      (obtain rfl := Option.some.inj h; exact ⟨rfl, rfl, fun j => setThief_of_ne _ _, rfl⟩)
  | _ =>
    simp only [hpc, Option.some.injEq] at h
    subst h
    exact ⟨rfl, rfl, fun j => setThief_of_ne _ _, rfl⟩

theorem taking_setThief {i : ι} {pc : ThiefPc} (hh : pc.held = (d.thief i).held) (k : Holder ι) :
    taking (d.setThief i pc) k = taking d k := by
  cases k with
  | thief j =>
    by_cases hj : j = i
    · simp only [taking, hj, setThief_self, hh]
    · simp only [taking, setThief_of_ne d pc hj]
  | _ => rfl

variable [DecidableEq T] {l : Label ι T}

/-- **Every step keeps the account of the pointers taken.** -/
theorem step_takes (hi : Inv d) (h : step d l = some d') (hK : Takes d K) :
    Takes d' (K ++ taken d' l) := by
  have hi' := step_inv hi h
  cases l with
  | owner =>
    obtain ⟨hdel, hthief, hnone⟩ := stepOwner_frame h
    have hother : ∀ k, k ≠ .owner → taking d' k = taking d k := fun k hk => by
      cases k with
      | index i => rfl
      | owner => exact absurd rfl hk
      | thief i => simp only [taking, hthief]
    cases hpc : d'.owner with
    | popTake ptr =>
      have ho := hi'.owner
      simp only [OwnerOk, hpc] at ho
      obtain ⟨p, rfl⟩ := Option.isSome_iff_exists.mp ho
      simp only [taken, hpc]
      exact hK.take hi' (h := .owner) (by simp only [taking, hpc]) hdel hnone hother
    | _ =>
      simp only [taken, hpc, List.append_nil]
      refine hK.same hdel fun k => ?_
      by_cases hk : k = .owner
      · rw [hk, hnone]
        simp only [taking, hpc]
      · exact hother k hk
  | thief i =>
    obtain ⟨hdel, howner, hthief, hnone⟩ := stepThief_frame h
    have hother : ∀ k, k ≠ .thief i → taking d' k = taking d k := fun k hk => by
      cases k with
      | index i => rfl
      | owner => simp only [taking, howner]
      | thief j => simp only [taking, hthief j (by simpa using hk)]
    cases hpc : d'.thief i with
    | stealTake ptr =>
      have ht := hi'.thief i
      rw [hpc] at ht
      obtain ⟨p, rfl⟩ := Option.isSome_iff_exists.mp ht
      simp only [taken, hpc]
      exact hK.take hi' (h := .thief i) (by simp only [taking, hpc, ThiefPc.held]) hdel hnone hother
    | _ =>
      simp only [taken, hpc, List.append_nil]
      refine hK.same hdel fun k => ?_
      by_cases hk : k = .thief i
      · rw [hk]
        show (d'.thief i).held = (d.thief i).held
        rw [hpc, hnone]
        rfl
      · exact hother k hk
  | push item | pushed | pop =>
    simp only [step] at h
    split at h
    · rename_i hpc
      obtain rfl := Option.some.inj h
      rw [taken, List.append_nil]
      refine hK.same rfl fun k => ?_
      cases k with
      | owner => simp only [taking, hpc]
      | _ => rfl
    · exact absurd h (by simp)
  | popped r =>
    rw [taken, List.append_nil]
    simp only [step] at h
    split at h
    · rename_i hpc
      split at h
      · obtain rfl := Option.some.inj h
        refine hK.same rfl fun k => ?_
        cases k with
        | owner => simp only [taking, hpc]
        | _ => rfl
      · exact absurd h (by simp)
    · rename_i p hpc
      split at h
      · obtain rfl := Option.some.inj h
        refine hK.delete (h := .owner) (by simp only [taking, hpc]) rfl rfl fun k hk => ?_
        cases k with
        | owner => exact absurd rfl hk
        | _ => rfl
      · exact absurd h (by simp)
    · exact absurd h (by simp)
  | steal i =>
    rw [taken, List.append_nil]
    simp only [step] at h
    split at h
    · rename_i hpc
      obtain rfl := Option.some.inj h
      exact hK.same rfl (taking_setThief (by rw [hpc]; rfl))
    · exact absurd h (by simp)
  | stolen i r =>
    rw [taken, List.append_nil]
    have ht := hi.thief i
    simp only [step] at h
    split at h
    · rename_i hpc
      split at h
      · obtain rfl := Option.some.inj h
        exact hK.same rfl (taking_setThief (by rw [hpc]; rfl))
      · exact absurd h (by simp)
    · rename_i hpc
      split at h
      · obtain rfl := Option.some.inj h
        exact hK.same rfl (taking_setThief (by rw [hpc]; rfl))
      · exact absurd h (by simp)
    · rename_i hpc
      rw [hpc] at ht
      exact absurd ht (by simp [ThiefOk])
    · rename_i p hpc
      split at h
      · obtain rfl := Option.some.inj h
        refine hK.delete (h := .thief i) (by simp only [taking, hpc, ThiefPc.held]) rfl ?_
          fun k hk => ?_
        · show ThiefPc.held ((d.setThief i .idle).thief i) = none
          rw [setThief_self]
          rfl
        · cases k with
          | thief j =>
            exact congrArg ThiefPc.held (setThief_of_ne d .idle (by simpa using hk))
          | _ => rfl
      · exact absurd h (by simp)
    · exact absurd h (by simp)

/-! ## Pushes -/

/-- The items the owner is pushing whose box is not allocated yet. -/
def OwnerPc.unboxed : OwnerPc T → ℕ
  | .pushBottom _ | .pushTop _ _ | .pushBuffer _ _ _ | .growLoad _ _ _ _ _
  | .growStore _ _ _ _ _ _ | .growPublish _ _ _ | .growRetire _ _ _ | .pushSlot _ _ _ => 1
  | .idle | .pushPublish _ _ | .pushReturn | .popBottom | .popBuffer _ | .popLower _ _
  | .popTop _ _ | .popRestore _ | .popSlot _ _ _ | .popRaise _ _ _ | .popCas _ _ | .popTake _
  | .popNone => 0

omit [DecidableEq ι] [DecidableEq T] in
theorem stepOwner_boxes (h : stepOwner d = some d') :
    d'.boxes.length + d'.owner.unboxed = d.boxes.length + d.owner.unboxed := by
  unfold stepOwner at h
  cases hpc : d.owner with
  | idle | pushReturn | popTake _ | popNone => simp [hpc] at h
  | popTop _ _ | popCas _ _ | popSlot _ _ _ =>
    simp only [hpc] at h
    split at h <;> (obtain rfl := Option.some.inj h; rfl)
  | pushBuffer item b t =>
    simp only [hpc] at h
    split at h
    · obtain ⟨nb, -, rfl⟩ := Option.map_eq_some_iff.mp h
      rcases growNext_cases item b d.buffer d.allocated t with hn | hn <;> simp only [hn] <;> rfl
    · obtain rfl := Option.some.inj h
      rfl
  | growStore item b old new i ptr =>
    simp only [hpc, Option.some.injEq] at h
    subst h
    rcases growNext_cases item b old new (i + 1) with hn | hn <;> simp only [hn] <;> rfl
  | pushSlot item b buf =>
    simp only [hpc, Option.some.injEq] at h
    subst h
    simp only [OwnerPc.unboxed, List.length_append, List.length_singleton]
  | _ =>
    simp only [hpc, Option.some.injEq] at h
    subst h
    rfl

omit [DecidableEq T] in
theorem stepThief_boxes {i : ι} (h : stepThief d i = some d') : d'.boxes = d.boxes := by
  unfold stepThief at h
  cases hpc : d.thief i with
  | idle | stealTake _ | stealEmpty | stealLost => simp [hpc] at h
  | stealBottom _ | stealCas _ _ =>
    simp only [hpc] at h
    split at h <;> (obtain rfl := Option.some.inj h; rfl)
  | _ =>
    simp only [hpc, Option.some.injEq] at h
    subst h
    rfl

/-- Every item pushed gets one box. -/
theorem step_boxes (h : step d l = some d') :
    d'.boxes.length + d'.owner.unboxed = d.boxes.length + d.owner.unboxed + pushes [l] := by
  cases l with
  | owner => exact stepOwner_boxes h
  | thief i =>
    have howner := (stepThief_frame h).2.1
    rw [stepThief_boxes h, howner]
    rfl
  | push _ | pushed | pop =>
    simp only [step] at h
    split at h
    · rename_i hpc
      obtain rfl := Option.some.inj h
      rw [hpc]
      rfl
    · exact absurd h (by simp)
  | popped r =>
    simp only [step] at h
    split at h
    · rename_i hpc
      split at h
      · obtain rfl := Option.some.inj h
        rw [hpc]
        rfl
      · exact absurd h (by simp)
    · rename_i p hpc
      split at h
      · obtain rfl := Option.some.inj h
        rw [hpc]
        rfl
      · exact absurd h (by simp)
    · exact absurd h (by simp)
  | steal i =>
    simp only [step] at h
    split at h
    · obtain rfl := Option.some.inj h
      rfl
    · exact absurd h (by simp)
  | stolen i r =>
    simp only [step] at h
    split at h
    · split at h
      · obtain rfl := Option.some.inj h
        rfl
      · exact absurd h (by simp)
    · split at h
      · obtain rfl := Option.some.inj h
        rfl
      · exact absurd h (by simp)
    · split at h
      · obtain rfl := Option.some.inj h
        rfl
      · exact absurd h (by simp)
    · split at h
      · obtain rfl := Option.some.inj h
        rfl
      · exact absurd h (by simp)
    · exact absurd h (by simp)

/-! ## Runs -/

/-- The pointers taken in the steps `tr` from `d`. -/
def takes (d : State ι T) : List (Label ι T) → List (Option ℕ)
  | [] => []
  | l :: ls =>
    match step d l with
    | none => []
    | some d' => taken d' l ++ takes d' ls

variable {cap : ℕ} {tr : List (Label ι T)}

theorem takes_snoc : ∀ {tr : List (Label ι T)} {d₀ : State ι T},
    (machine ι T cap).exec d₀ tr = some d → step d l = some d' →
      takes d₀ (tr ++ [l]) = takes d₀ tr ++ taken d' l
  | [], d₀, hd, h => by
    obtain rfl := Option.some.inj hd
    simp only [List.nil_append, takes, h, List.append_nil]
  | k :: ks, d₀, hd, h => by
    obtain ⟨d₁, hst, hd⟩ := Option.bind_eq_some_iff.mp hd
    have hst : step d₀ k = some d₁ := hst
    simp only [List.cons_append, takes, hst, List.append_assoc, takes_snoc hd h]

omit [DecidableEq ι] [DecidableEq T] in
theorem construct_takes (h : construct cap = some d) : Takes d [] := by
  unfold construct at h
  split at h
  · exact absurd h (by simp)
  · obtain ⟨buf, -, rfl⟩ := Option.map_eq_some_iff.mp h
    refine ⟨List.nodup_nil, fun {ptr} => ⟨fun hm => absurd hm (by simp), ?_⟩⟩
    rintro ⟨p, -, hp | ⟨k, hk⟩⟩
    · exact absurd hp (by simp)
    · cases k <;> exact absurd hk (by simp [taking, ThiefPc.held])

/-- **The account of the pointers taken**, over a run. -/
theorem path_takes (h₀ : construct cap = some d₀)
    (hp : (machine ι T cap).Path Machine.Free d₀ tr d) : Takes d (takes d₀ tr) := by
  induction hp with
  | nil => exact construct_takes h₀
  | @snoc tr t t' l hp _ hst ih =>
    rw [takes_snoc hp.exec hst]
    exact step_takes (reachable_inv ⟨tr, d₀, h₀, hp⟩) hst ih

theorem path_boxes (h₀ : construct cap = some d₀)
    (hp : (machine ι T cap).Path Machine.Free d₀ tr d) :
    d.boxes.length + d.owner.unboxed = pushes tr := by
  induction hp with
  | nil =>
    unfold construct at h₀
    split at h₀
    · exact absurd h₀ (by simp)
    · obtain ⟨buf, -, rfl⟩ := Option.map_eq_some_iff.mp h₀
      rfl
  | @snoc tr t t' l _ _ hst ih =>
    rw [step_boxes hst, ih]
    exact List.countP_append.symm

/-- **Linearizability.** The calls and returns of a run are those of the sequential object. -/
theorem history_linearizable (h : (machine ι T cap).Run Machine.Free tr d) :
    Linearizable spec (tr.filterMap event) := by
  have hinit : ∀ d : State ι T, construct cap = some d →
      view (toAtomic d) = Canonical.start spec := by
    intro d h₀
    rw [construct_toAtomic h₀]
    exact view_ext rfl rfl fun _ => rfl
  exact linearizable_of_simulation hinit
    (fun d l d' hd _ hst => linearize (step_refines (reachable_inv hd) hst)) h

/-! ## Quiescent states -/

section Quiescent

variable (hi : Inv d) (hq : d.Quiescent)

omit [DecidableEq ι] [DecidableEq T]

include hq in
theorem lb_of_quiescent : d.lb = d.bottom := by simp only [State.lb, hq.1]

include hi hq in
/-- In a quiescent state every box is deleted or held by an index. -/
theorem mem_index_iff : (∃ i, d.top ≤ i ∧ i < d.bottom ∧ d.slot i = some p) ↔
    p < d.boxes.length ∧ p ∉ d.deleted := by
  have hlb := lb_of_quiescent hq
  constructor
  · rintro ⟨i, h1, h2, hp⟩
    exact hi.ledger.alive (h := .index i) ((heldIndex_of_mem h1 (hlb ▸ h2)).trans hp)
  · rintro ⟨hlt, hdel⟩
    obtain ⟨h, hp⟩ := hi.ledger.accounted hlt hdel
    cases h with
    | owner => exact absurd hp (by simp [held, State.heldOwner, hq.1])
    | thief i => exact absurd hp (by simp [held, hq.2 i, ThiefPc.held])
    | index i =>
      have hm : d.top ≤ i ∧ i < d.lb := by
        by_contra hm
        rw [show held d (.index i) = none from heldIndex_of_not hm] at hp
        exact absurd hp (by simp)
      exact ⟨i, hm.1, hlb ▸ hm.2, (heldIndex_of_mem hm.1 hm.2).symm.trans hp⟩

include hi hq in
/-- **The boxes left in a quiescent state** are those not deleted, in push order. -/
theorem remaining_eq : remaining d =
    ((List.range d.boxes.length).filter fun p => p ∉ d.deleted).map some := by
  have hlb := lb_of_quiescent hq
  set g : ℤ → ℕ := fun i => (d.slot i).getD 0 with hg
  have hslot : ∀ i, d.top ≤ i → i < d.bottom → d.slot i = some (g i) := fun i h1 h2 => by
    obtain ⟨p, hp⟩ := Option.isSome_iff_exists.mp (hi.present i h1 (hlb ▸ h2))
    rw [hg]
    simp only [hp, Option.getD_some]
  have hmap : remaining d = (slice g d.top d.bottom).map some := by
    unfold remaining
    rw [slice_congr hslot]
    unfold slice
    rw [List.map_map]
    rfl
  rw [hmap]
  congr 1
  -- two increasing lists with the same members
  have hs : (slice g d.top d.bottom).Pairwise (· < ·) := pairwise_slice fun i j h1 h2 h3 =>
    hi.sorted i j _ _ h1 h2 (hlb ▸ h3) (hslot i h1 (h2.trans h3)) (hslot j (h1.trans h2.le) h3)
  have hr : ((List.range d.boxes.length).filter fun p => p ∉ d.deleted).Pairwise (· < ·) :=
    List.pairwise_lt_range.filter _
  refine List.Perm.eq_of_pairwise (fun a b _ _ h h' => absurd h h'.asymm) hs hr ?_
  refine (List.perm_ext_iff_of_nodup (hs.imp fun h => h.ne) (hr.imp fun h => h.ne)).mpr fun p => ?_
  rw [mem_slice, List.mem_filter, List.mem_range, decide_eq_true_iff, ← mem_index_iff hi hq]
  constructor
  · rintro ⟨i, h1, h2, rfl⟩
    exact ⟨i, h1, h2, hslot i h1 h2⟩
  · rintro ⟨i, h1, h2, hp⟩
    exact ⟨i, h1, h2, Option.some.inj ((hslot i h1 h2).symm.trans hp)⟩

include hi hq in
/-- **The destructor leaves every box deleted, and none twice.** -/
theorem destroy_perm : (destroy d).deleted.Perm (List.range d.boxes.length) := by
  have hrem : (remaining d).filterMap id =
      (List.range d.boxes.length).filter fun p => p ∉ d.deleted := by
    rw [remaining_eq hi hq, List.filterMap_map]
    exact List.filterMap_some
  have hdel : (destroy d).deleted =
      d.deleted ++ (List.range d.boxes.length).filter fun p => p ∉ d.deleted := by
    rw [← hrem]
    rfl
  have hnd : (d.deleted ++ (List.range d.boxes.length).filter fun p => p ∉ d.deleted).Nodup := by
    refine List.nodup_append.mpr ⟨hi.ledger.freed_nodup, List.nodup_range.filter _,
      fun a ha b hb e => ?_⟩
    have hb := (List.mem_filter.mp hb).2
    rw [decide_eq_true_iff] at hb
    exact hb (e ▸ ha)
  rw [hdel]
  refine (List.perm_ext_iff_of_nodup hnd List.nodup_range).mpr fun p => ?_
  rw [List.mem_append, List.mem_filter, List.mem_range, decide_eq_true_iff]
  constructor
  · rintro (h | h)
    · exact hi.ledger.freed_lt h
    · exact h.1
  · intro h
    by_cases hp : p ∈ d.deleted
    · exact .inl hp
    · exact .inr ⟨h, hp⟩

end Quiescent

/-! ## The result -/

/-- **`ChaseLevDeque` is a correct concurrent deque.** For every capacity it can be constructed
with and every interleaving with fewer than `2 ^ 63` pushes:

* the history is linearizable;
* every pointer taken is a box, taken once, and not deleted while its taker has it;
* the boxes not taken in a quiescent state are those of the slots `top_, …, bottom_ - 1`, in push
  order, and the destructor then leaves every box deleted exactly once;
* the indices are in the range of `std::int64_t`. -/
theorem deque_linearizable (h₀ : construct cap = some d₀)
    (hp : (machine ι T cap).Path Machine.Free d₀ tr d) (hpush : pushes tr < 2 ^ 63) :
    Linearizable spec (tr.filterMap event) ∧
    (takes d₀ tr).Nodup ∧
    (∀ ptr ∈ takes d₀ tr, ∃ p, ptr = some p ∧ p < d.boxes.length) ∧
    (∀ h ptr,
      d.owner = .popTake ptr ∧ h = .owner ∨ (∃ i, d.thief i = .stealTake ptr ∧ h = .thief i) →
      ∃ p, ptr = some p ∧ p ∉ d.deleted ∧ ∀ k : Holder ι, taking d k = some p → k = h) ∧
    (d.Quiescent →
      remaining d = ((List.range d.boxes.length).filter fun p => some p ∉ takes d₀ tr).map some ∧
      (destroy d).deleted.Perm (List.range d.boxes.length)) ∧
    (0 ≤ d.top ∧ d.top < 2 ^ 63 ∧ -1 ≤ d.bottom ∧ d.bottom < 2 ^ 63) := by
  have hrun : (machine ι T cap).Run Machine.Free tr d := ⟨d₀, h₀, hp⟩
  have hi : Inv d := reachable_inv ⟨tr, hrun⟩
  have hK := path_takes h₀ hp
  have hboxes := path_boxes h₀ hp
  refine ⟨history_linearizable hrun, hK.nodup, fun ptr hptr => ?_, fun h ptr ht => ?_,
    fun hq => ⟨?_, destroy_perm hi hq⟩, ?_⟩
  · obtain ⟨p, rfl, hdel | ⟨k, hk⟩⟩ := hK.mem.mp hptr
    · exact ⟨p, rfl, hi.ledger.freed_lt hdel⟩
    · exact ⟨p, rfl, (hi.ledger.alive (held_of_taking hk)).1⟩
  · have htaking : taking d h = ptr ∧ ptr.isSome := by
      rcases ht with ⟨hpc, rfl⟩ | ⟨i, hpc, rfl⟩
      · have ho := hi.owner
        simp only [OwnerOk, hpc] at ho
        exact ⟨by simp only [taking, hpc], ho⟩
      · have ho := hi.thief i
        rw [hpc] at ho
        exact ⟨by simp only [taking, hpc, ThiefPc.held], ho⟩
    obtain ⟨p, rfl⟩ := Option.isSome_iff_exists.mp htaking.2
    have hheld := held_of_taking htaking.1
    exact ⟨p, rfl, (hi.ledger.alive hheld).2, fun k hk =>
      hi.ledger.unique (held_of_taking hk) hheld⟩
  · rw [remaining_eq hi hq]
    congr 1
    refine List.filter_congr fun p _ => ?_
    rw [decide_eq_decide, not_iff_not]
    constructor
    · exact fun hdel => hK.mem.mpr ⟨p, rfl, .inl hdel⟩
    · intro hmem
      obtain ⟨q, hq', hdel | ⟨k, hk⟩⟩ := hK.mem.mp hmem
      · exact Option.some.inj hq' ▸ hdel
      · cases k with
        | index i => exact absurd hk (by simp [taking])
        | owner => exact absurd hk (by simp [taking, hq.1])
        | thief i => exact absurd hk (by simp [taking, hq.2 i, ThiefPc.held])
  · have h1 := hi.top_nonneg
    have h2 := hi.top_le
    have h3 := hi.le_count
    have h4 := hi.bottom_near
    omega

/-- A deque of capacity `1` grows twice. Both thieves are after `7` and read the first buffer before
`8` is pushed; thief `0` gets it after `9` is pushed, and thief `1` loses. A `pop` gets `9`, and `8`
is left. -/
def growAndRace : List (Label (Fin 2) ℕ) :=
  let one : Fin 2 := ⟨0, Nat.two_pos⟩
  let other : Fin 2 := ⟨1, Nat.one_lt_two⟩
  List.flatten [.push 7 :: List.replicate 5 .owner, [.pushed, .push 8, .owner, .owner],
    .steal one :: List.replicate 3 (.thief one), .steal other :: List.replicate 3 (.thief other),
    List.replicate 7 .owner, .pushed :: .push 9 :: List.replicate 11 .owner,
    List.replicate 2 (.thief one), [.pushed, .pop, .owner, .owner],
    List.replicate 2 (.thief other), [.stolen other none, .owner, .stolen one (some 7)],
    [.owner, .owner, .popped (some 9)]]

theorem deque_linearizable_growAndRace : ∃ d₀ d : State (Fin 2) ℕ,
    construct 1 = some d₀ ∧ (machine (Fin 2) ℕ 1).exec d₀ growAndRace = some d ∧
    takes d₀ growAndRace = [some 0, some 2] ∧ Linearizable spec (growAndRace.filterMap event) ∧
    d.buffer = 2 ∧ remaining d = [some 1] ∧ (destroy d).deleted.Perm (List.range 3) := by
  let d₀ : State (Fin 2) ℕ := (construct 1).get (by decide)
  have h₀ : construct 1 = some d₀ := (Option.some_get _).symm
  let d := ((machine (Fin 2) ℕ 1).exec d₀ growAndRace).get (by decide +kernel)
  have hex : (machine (Fin 2) ℕ 1).exec d₀ growAndRace = some d := (Option.some_get _).symm
  have htakes : takes d₀ growAndRace = [some 0, some 2] := by decide +kernel
  have hboxes : d.boxes.length = 3 := by decide +kernel
  have hquiescent : d.Quiescent := ⟨by decide +kernel, by decide +kernel⟩
  obtain ⟨hlin, -, -, -, hleft, -⟩ :=
    deque_linearizable h₀ (Machine.exec_path hex) (by decide +kernel)
  obtain ⟨hremaining, hdestroy⟩ := hleft hquiescent
  rw [htakes, hboxes] at hremaining
  rw [hboxes] at hdestroy
  exact ⟨d₀, d, h₀, hex, htakes, hlin, by decide +kernel, hremaining, hdestroy⟩

end Wss.ChaseLev
