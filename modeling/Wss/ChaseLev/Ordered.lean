import Wss.ChaseLev.InFlight

/-!
# What a `steal` gets under the memory orders as written

`push` stores the slot with release and `bottom_` relaxed, so `bottom_` may arrive first. A thief
that loads `bottom_` then takes the index before the box is in its slot: it loads a null pointer or
the box of an earlier index, and wins its compare-and-swap with it (`not_steals_its_item`).

`Ordered` is the condition: at the index `top_`, a thief loads the slot once the store of `push` has
arrived, and from the buffer it went to or a later one (`Landed`).

The proof maps a state to one of `Model.lean` in which every store has been performed and no thief
has loaded `buffer_` yet (`Relaxed.atomic`), and keeps the invariant there.

Results:
* `Lawful.load_iff`: the loads that give the box of the `push` are those that are `Ordered`.
* `steals_its_item`: in the runs where all are such, every compare-and-swap that moves `top_` is won
  with the box of its index.
* `not_steals_its_item`: otherwise one may be won with a null pointer.
-/

namespace Wss.ChaseLev

open Wss.Lib

variable {ι T : Type} {d d' : State ι T} {m arrived : Arrived} {flight ws ys : List Write}
  {pushed : ℤ → Option Pushed}

/-- The store of `push` to the slot of the index `t` has arrived, and `buf` is the buffer it went to
or a later one. -/
def Landed (s : Relaxed ι T) (t : ℤ) (buf : ℕ) : Prop :=
  ∃ r ∈ s.pushed t, r.write ∉ s.flight ∧ r.buf ≤ buf

instance (s : Relaxed ι T) (t : ℤ) (buf : ℕ) : Decidable (Landed s t buf) :=
  inferInstanceAs (Decidable (∃ r ∈ s.pushed t, r.write ∉ s.flight ∧ r.buf ≤ buf))

/-- A thief that is about to load the slot of `top_` does so once the store of `push` has landed. -/
def Timely (s : Relaxed ι T) : ThiefPc → Prop
  | .stealSlot t buf => s.deque.top = t → Landed s t buf
  | _ => True

instance (s : Relaxed ι T) : DecidablePred (Timely s)
  | .stealSlot t buf => inferInstanceAs (Decidable (s.deque.top = t → Landed s t buf))
  | .idle | .stealTop | .stealBottom _ | .stealBuffer _ | .stealCas _ _ | .stealTake _
  | .stealEmpty | .stealLost => isTrue trivial

/-- Every load of a slot by a thief is timely: the condition on the order in which stores arrive. -/
def Ordered (s : Relaxed ι T) : RelaxedLabel ι T → Prop
  | .run (.thief i) => Timely s (s.deque.thief i)
  | _ => True

instance (s : Relaxed ι T) : DecidablePred (Ordered s)
  | .run (.thief i) => inferInstanceAs (Decidable (Timely s (s.deque.thief i)))
  | .run .owner | .run (.push _) | .run .pushed | .run .pop | .run (.popped _) | .run (.steal _)
  | .run (.stolen _ _) | .arrive _ => isTrue trivial

/-! ## The invariant -/

/-- A thief that has loaded `buffer_` counts as one that is about to. -/
def ThiefPc.unloaded : ThiefPc → ThiefPc
  | .stealSlot t _ => .stealBuffer t
  | pc => pc

/-- The deque as the owner sees it, and thieves to which its current buffer is the one they load. -/
def Relaxed.atomic (s : Relaxed ι T) : State ι T :=
  { s.deque with thief := fun i => (s.deque.thief i).unloaded }

/-- The invariant. -/
structure Lawful (s : Relaxed ι T) : Prop where
  inv : Inv s.atomic
  numbered : Numbered s.deque
  logged : Logged s.deque s.pushed
  coherent : Coherent s.deque (stores.drain s.flight s.arrived)
  settled : stores.Along (Settled s.deque s.pushed) s.flight s.arrived
  bottom_le : s.arrived.bottom ≤ s.deque.lb
  bottoms : ∀ b, .bottom b ∈ s.flight → b ≤ s.deque.lb
  loaded : ∀ {i t buf}, s.deque.thief i = .stealSlot t buf → buf ≤ s.arrived.buffer

theorem lb_le_filled (ho : OwnerOk d) : d.lb ≤ d.filled := by
  unfold OwnerOk at ho
  unfold State.filled State.lb
  cases hpc : d.owner with
  | pushPublish item b =>
    simp only [hpc] at ho ⊢
    omega
  | _ => exact le_rfl

variable {s s' : Relaxed ι T} {i : ι} {t : ℤ}

theorem Lawful.thief (h : Lawful s) {pc : ThiefPc} (hpc : s.deque.thief i = pc) :
    ThiefOk s.atomic pc.unloaded := hpc ▸ h.inv.thief i

theorem Lawful.owner (h : Lawful s) : OwnerOk s.deque := h.inv.owner.taken le_rfl h.inv.top_le

/-- The slot of an index in the deque has the box of its `push`. -/
theorem Lawful.slot (h : Lawful s) (htop : s.deque.top ≤ t) (hlb : t < s.deque.lb) :
    ∃ r, s.pushed t = some r ∧ s.deque.slot t = some r.box := by
  have hfilled := hlb.trans_le (lb_le_filled h.owner)
  obtain ⟨r, hr⟩ := Option.isSome_iff_exists.mp (h.logged.isSome t htop hfilled)
  refine ⟨r, hr, ?_⟩
  rw [State.slot, ← h.coherent.load]
  exact h.settled.drained.settled htop hfilled hr List.not_mem_nil (h.logged.buf_le hr)
    h.coherent.buffer.ge

/-! ## The owner -/

theorem stepOwner_thief (f : ι → ThiefPc) (h : stepOwner d = some d') :
    stepOwner { d with thief := f } = some { d' with thief := f } ∧ d'.thief = d.thief := by
  unfold stepOwner at h ⊢
  cases hpc : d.owner with
  | idle | pushReturn | popTake _ | popNone => simp [hpc] at h
  | pushBuffer item b t =>
    simp only [hpc] at h ⊢
    split_ifs at h ⊢
    · obtain ⟨nb, hnb, rfl⟩ := Option.map_eq_some_iff.mp h
      rw [hnb]
      exact ⟨rfl, rfl⟩
    · obtain rfl := Option.some.inj h
      exact ⟨rfl, rfl⟩
  | popTop | popSlot | popCas =>
    simp only [hpc] at h ⊢
    split_ifs at h ⊢ <;> obtain rfl := Option.some.inj h <;> exact ⟨rfl, rfl⟩
  | pushBottom | pushTop | growLoad | growStore | growPublish | growRetire | pushSlot | pushPublish
  | popBottom | popBuffer | popLower | popRestore | popRaise =>
    simp only [hpc, Option.some.injEq] at h ⊢
    subst h
    exact ⟨rfl, rfl⟩

/-- The deque loses no index but where the owner has waited for its stores. -/
theorem stepOwner_lb (ho : OwnerOk d) (h : stepOwner d = some d') :
    d.lb ≤ d'.lb ∨ d.owner.fenced ∧ d'.bottom = d.bottom := by
  unfold OwnerOk at ho
  unfold stepOwner at h
  cases hpc : d.owner with
  | idle | pushReturn | popTake _ | popNone => simp [hpc] at h
  | pushBuffer item b t =>
    simp only [hpc] at h
    split at h
    · obtain ⟨nb, -, rfl⟩ := Option.map_eq_some_iff.mp h
      left
      rcases growNext_cases item b d.buffer d.allocated t with he | he <;>
        simp only [State.lb, hpc, he, le_refl]
    · obtain rfl := Option.some.inj h
      left
      simp only [State.lb, hpc, le_refl]
  | growStore item b old new i ptr =>
    simp only [hpc, Option.some.injEq] at h
    subst h
    left
    rcases growNext_cases item b old new (i + 1) with he | he <;>
      simp only [State.lb, hpc, he, le_refl]
  | popTop | popCas =>
    simp only [hpc] at h
    split at h <;> obtain rfl := Option.some.inj h <;> exact .inr ⟨rfl, rfl⟩
  | popSlot b buf t =>
    simp only [hpc] at h ho
    left
    split at h
    · rename_i he
      obtain rfl := Option.some.inj h
      simp only [State.lb, hpc, if_pos he, le_refl]
    · rename_i hne
      obtain rfl := Option.some.inj h
      simp only [State.lb, hpc, if_neg hne, ho.1, le_refl]
  | pushBottom | pushTop | growLoad | growPublish | growRetire | pushSlot | pushPublish | popBottom
  | popBuffer | popLower | popRestore | popRaise =>
    simp only [hpc, Option.some.injEq] at h ho
    subst h
    left
    simp only [State.lb, hpc]
    omega

theorem Moves.bottoms (hm : Moves d d' ws) {b : ℤ} (hb : .bottom b ∈ ws) : b = d'.bottom := by
  cases hm with
  | quiet | alloc => exact absurd hb nofun
  | bottom => exact Write.bottom.inj (List.mem_singleton.mp hb)
  | copy | publish => exact absurd (List.mem_singleton.mp hb) nofun

theorem Lawful.stepOwner [DecidableEq ι] (h : Lawful s) (hst : s.stepOwner = some s') :
    Lawful s' := by
  unfold Relaxed.stepOwner at hst
  split_ifs at hst with hwait
  obtain ⟨d', hd, rfl⟩ := Option.map_eq_some_iff.mp hst
  have ho := h.owner
  obtain ⟨hatomic, hthief⟩ := stepOwner_thief (fun i => (s.deque.thief i).unloaded) hd
  have hinv : Inv { d' with thief := fun i => (s.deque.thief i).unloaded } :=
    stepOwner_inv h.inv hatomic
  have hnear : d'.bottom ≤ d'.lb := hinv.bottom_near.1
  have hatomic' : Relaxed.atomic { s with
      deque := d', flight := s.flight ++ issued s.deque, pushed := record s.deque s.pushed } =
        { d' with thief := fun i => (s.deque.thief i).unloaded } := by
    rw [Relaxed.atomic, hthief]
  have hloaded : ∀ {i t buf}, d'.thief i = .stealSlot t buf → buf ≤ s.arrived.buffer := by
    rw [hthief]
    exact h.loaded
  -- the stores of `bottom_` before this one
  have hold : ∀ b, b = s.arrived.bottom ∨ .bottom b ∈ s.flight → b ≤ d'.lb := by
    intro b hb
    rcases stepOwner_lb ho hd with hle | ⟨hf, hbottom⟩
    · refine le_trans ?_ hle
      rcases hb with rfl | hb
      · exact h.bottom_le
      · exact h.bottoms b hb
    · have hflight : s.flight = [] := not_not.mp fun hne => hwait ⟨hf, hne⟩
      have hcb := h.coherent.bottom
      rw [hflight] at hb hcb
      rcases hb with rfl | hb
      · exact (hcb.trans hbottom.symm).trans_le hnear
      · exact absurd hb List.not_mem_nil
  have hcoh := h.coherent
  have hdrain : stores.drain (s.flight ++ issued s.deque) s.arrived =
      stores.drain (issued s.deque) (stores.drain s.flight s.arrived) := Stores.drain_append
  rcases stepOwner_moves ho h.numbered hd with ⟨hm, hrec⟩ | ⟨item, hpc⟩
  · refine ⟨hatomic' ▸ hinv, stepOwner_numbered h.numbered hd, ?_, ?_, ?_, hold _ (.inl rfl),
      fun b hb => ?_, hloaded⟩
    · rw [hrec]
      exact hm.logged h.logged
    · rw [hdrain]
      exact hm.coherent hcoh
    · rw [hrec]
      exact hm.settled h.logged hcoh h.settled
    · rcases List.mem_append.mp hb with hb | hb
      · exact hold b (.inr hb)
      · exact (hm.bottoms hb).trans_le hnear
  · have hd' : d' = s.deque.stored item s.deque.lb := by
      simp only [ChaseLev.stepOwner, hpc, Option.some.injEq] at hd
      exact hd.symm
    have hissued : issued s.deque = [(s.deque.newest s.deque.lb).write] := by
      simp only [issued, hpc]
      rfl
    have hrec : record s.deque s.pushed =
        Function.update s.pushed s.deque.lb (some (s.deque.newest s.deque.lb)) := by
      simp only [record, hpc]
      rfl
    have hfilled : s.deque.filled = s.deque.lb := by simp only [State.filled, hpc]
    have hroom : s.deque.lb < s.deque.top + s.deque.cap := by
      simp only [OwnerOk, hpc] at ho
      exact ho.2.2
    refine ⟨hatomic' ▸ hinv, stepOwner_numbered h.numbered hd, ?_, ?_, ?_, hold _ (.inl rfl),
      fun b hb => ?_, hloaded⟩
    · rw [hrec, hd']
      exact h.logged.store hfilled
    · rw [hdrain, hissued, hd']
      exact hcoh.store h.inv.buffer_lt rfl rfl rfl rfl
    · rw [hissued, hrec, hd']
      exact h.settled.issue (fun _ _ hs => hs.inFlight h.logged hfilled)
        (h.settled.drained.landed h.logged hcoh hfilled hroom)
    · rw [hissued] at hb
      rcases List.mem_append.mp hb with hb | hb
      · exact hold b (.inr hb)
      · exact absurd (List.mem_singleton.mp hb).symm (Pushed.write_ne_bottom _ _)

/-! ## The thieves -/

variable [DecidableEq ι]

theorem atomic_setThief {pc : ThiefPc} :
    (s.setThief i pc).atomic = s.atomic.setThief i pc.unloaded := by
  have hf : ThiefPc.unloaded ∘ Function.update s.deque.thief i pc =
      Function.update (ThiefPc.unloaded ∘ s.deque.thief) i pc.unloaded :=
    Function.comp_update _ _ _ _
  exact congrArg (fun f => ({ s.deque with thief := f } : State ι T)) hf

/-- A step of a thief that changes its program counter alone. -/
theorem Lawful.setThief (h : Lawful s) {pc : ThiefPc}
    (hheld : pc.unloaded.held = (s.deque.thief i).unloaded.held)
    (hok : ThiefOk s.atomic pc.unloaded)
    (hload : ∀ {t buf}, pc = .stealSlot t buf → buf ≤ s.arrived.buffer) :
    Lawful (s.setThief i pc) where
  inv := by
    rw [atomic_setThief]
    exact h.inv.setThief hheld hok
  numbered := h.numbered
  logged := h.logged.keeps ⟨le_rfl, le_rfl, rfl, rfl, fun _ _ => rfl⟩
  coherent := ⟨h.coherent.bottom, h.coherent.buffer, h.coherent.slots, h.coherent.fresh⟩
  settled := h.settled.imp fun _ _ hs => hs.keeps ⟨le_rfl, le_rfl, rfl, rfl, fun _ _ => rfl⟩
  bottom_le := h.bottom_le
  bottoms := h.bottoms
  loaded {j t buf} hpc := by
    by_cases hj : j = i
    · rw [hj] at hpc
      exact hload ((setThief_self s.deque i pc).symm.trans hpc)
    · exact h.loaded ((setThief_of_ne s.deque pc hj).symm.trans hpc)

omit [DecidableEq ι] in
/-- **At the index `top_` a thief loads the box of the `push` if and only if it has landed.** -/
theorem Lawful.load_iff (h : Lawful s) {buf : ℕ}
    (hpc : s.deque.thief i = .stealSlot s.deque.top buf) :
    s.arrived.slots buf ((s.deque.heap buf).index s.deque.top) = s.deque.slot s.deque.top ↔
      Landed s s.deque.top buf := by
  have hlb : s.deque.top < s.deque.lb := (h.thief hpc).2 rfl
  obtain ⟨r, hr, hslot⟩ := h.slot le_rfl hlb
  rw [hslot]
  constructor
  · intro hload
    obtain ⟨hle, hflight⟩ := h.settled.now.stored hr hload
    exact ⟨r, hr, hflight, hle⟩
  · rintro ⟨r', hr', hflight, hle⟩
    obtain rfl := Option.some.inj (hr.symm.trans hr')
    exact h.settled.now.settled le_rfl (hlb.trans_le (lb_le_filled h.owner)) hr hflight hle
      (h.loaded hpc)

/-- A thief takes an item. -/
theorem Lawful.take (h : Lawful s) {ptr : Option ℕ} (hpc : s.deque.thief i = .stealCas t ptr)
    (htop : s.deque.top = t) :
    Lawful { s with deque := { s.deque.setThief i (.stealTake ptr) with top := t + 1 } } := by
  have hk : Keeps s.deque { s.deque.setThief i (.stealTake ptr) with top := t + 1 } :=
    ⟨by show s.deque.top ≤ t + 1; omega, le_rfl, rfl, rfl, fun _ _ => rfl⟩
  refine ⟨?_, h.numbered, h.logged.keeps hk,
    ⟨h.coherent.bottom, h.coherent.buffer, h.coherent.slots, h.coherent.fresh⟩,
    h.settled.imp fun _ _ hs => hs.keeps hk, h.bottom_le, h.bottoms, fun {j t' buf} hj => ?_⟩
  · have hst : ChaseLev.stepThief s.atomic i =
        some { s.atomic.setThief i (.stealTake ptr) with top := t + 1 } := by
      have hpc' : s.atomic.thief i = .stealCas t ptr := congrArg ThiefPc.unloaded hpc
      simp only [ChaseLev.stepThief, hpc']
      exact if_pos htop
    have hinv := stepThief_inv h.inv hst
    have hf : (s.setThief i (.stealTake ptr)).atomic = s.atomic.setThief i (.stealTake ptr) :=
      atomic_setThief
    rw [← hf] at hinv
    exact hinv
  · by_cases hji : j = i
    · rw [hji] at hj
      exact absurd ((setThief_self s.deque i _).symm.trans hj) nofun
    · exact h.loaded ((setThief_of_ne s.deque _ hji).symm.trans hj)

theorem Lawful.stepThief (h : Lawful s) (hok : Ordered s (.run (.thief i)))
    (hst : s.stepThief i = some s') : Lawful s' := by
  unfold Relaxed.stepThief at hst
  simp only [Ordered] at hok
  cases hpc : s.deque.thief i with
  | idle | stealTake _ | stealEmpty | stealLost => simp [hpc] at hst
  | stealTop =>
    simp only [hpc, Option.some.injEq] at hst
    subst hst
    exact h.setThief (by rw [hpc]; rfl) le_rfl nofun
  | stealBottom t =>
    simp only [hpc] at hst
    split at hst
    · obtain rfl := Option.some.inj hst
      exact h.setThief (by rw [hpc]; rfl) trivial nofun
    · obtain rfl := Option.some.inj hst
      have hle := h.bottom_le
      exact h.setThief (by rw [hpc]; rfl) ⟨h.thief hpc, fun _ => by show t < s.deque.lb; omega⟩
        nofun
  | stealBuffer t =>
    simp only [hpc, Option.some.injEq] at hst
    subst hst
    have ht := h.thief hpc
    refine h.setThief (by rw [hpc]; rfl) ht fun he => ?_
    exact (ThiefPc.stealSlot.inj he).2.ge
  | stealSlot t buf =>
    simp only [hpc, Option.some.injEq, Timely] at hst hok
    subst hst
    have ht := h.thief hpc
    refine h.setThief (by rw [hpc]; rfl) ⟨ht.1, fun he => ⟨ht.2 he, ?_⟩⟩ nofun
    have he : s.deque.top = t := he
    subst he
    exact (h.load_iff hpc).mpr (hok rfl)
  | stealCas t ptr =>
    simp only [hpc] at hst
    split at hst
    · rename_i htop
      obtain rfl := Option.some.inj hst
      exact h.take hpc htop
    · obtain rfl := Option.some.inj hst
      exact h.setThief (by rw [hpc]; rfl) trivial nofun

/-! ## Calls, returns and arrivals -/

/-- A call or a return changes no memory that both the owner and the thieves read. -/
structure Called (d d' : State ι T) : Prop where
  keeps : Keeps d d'
  heap : d'.heap = d.heap
  allocated : d'.allocated = d.allocated
  bottom : d'.bottom = d.bottom
  lb : d'.lb = d.lb
  numbered : Numbered d → Numbered d'
  thief : ∀ {i t buf}, d'.thief i = .stealSlot t buf → d.thief i = .stealSlot t buf

omit [DecidableEq ι] in
theorem Called.setOwner {pc : OwnerPc T} {del : List ℕ}
    (hlb : State.lb { d with owner := pc, deleted := del } = d.lb)
    (hfilled : State.filled { d with owner := pc, deleted := del } ≤ d.filled)
    (hn : Numbered d → Numbered { d with owner := pc, deleted := del }) :
    Called d { d with owner := pc, deleted := del } :=
  ⟨⟨le_rfl, hfilled, rfl, rfl, fun _ _ => rfl⟩, rfl, rfl, rfl, hlb, hn, id⟩

theorem Called.setThief {pc : ThiefPc} {del : List ℕ} (hpc : ∀ t buf, pc ≠ .stealSlot t buf) :
    Called d { d.setThief i pc with deleted := del } := by
  refine ⟨⟨le_rfl, le_rfl, rfl, rfl, fun _ _ => rfl⟩, rfl, rfl, rfl, rfl, id,
    fun {j t buf} hj => ?_⟩
  by_cases hji : j = i
  · rw [hji] at hj
    exact absurd ((setThief_self d i pc).symm.trans hj) (hpc t buf)
  · exact (setThief_of_ne d pc hji).symm.trans hj

variable [DecidableEq T] {l : Label ι T}

theorem step_called (h : step d l = some d') (ho : l ≠ .owner) (ht : ∀ i, l ≠ .thief i) :
    Called d d' := by
  cases l with
  | owner => exact absurd rfl ho
  | thief i => exact absurd rfl (ht i)
  | push item | pushed | pop =>
    simp only [step] at h
    split at h
    · rename_i hpc
      obtain rfl := Option.some.inj h
      exact .setOwner (by simp only [State.lb, hpc])
        (by simp only [State.filled, State.lb, hpc, le_refl])
        (by simp only [Numbered, hpc, imp_self])
    · exact absurd h (by simp)
  | popped r =>
    simp only [step] at h
    split at h
    · rename_i hpc
      split_ifs at h
      obtain rfl := Option.some.inj h
      exact .setOwner (by simp only [State.lb, hpc])
        (by simp only [State.filled, State.lb, hpc, le_refl])
        (by simp only [Numbered, hpc, imp_self])
    · rename_i hpc
      split_ifs at h
      obtain rfl := Option.some.inj h
      exact .setOwner (by simp only [State.lb, hpc])
        (by simp only [State.filled, State.lb, hpc, le_refl])
        (by simp only [Numbered, hpc, imp_self])
    · exact absurd h (by simp)
  | steal i =>
    simp only [step] at h
    split at h
    · obtain rfl := Option.some.inj h
      exact .setThief (by simp)
    · exact absurd h (by simp)
  | stolen i r =>
    simp only [step] at h
    split at h
    all_goals first
      | (split_ifs at h; obtain rfl := Option.some.inj h; exact .setThief (by simp))
      | exact absurd h (by simp)

/-- Calls and returns do not depend on the buffer a thief has loaded. -/
theorem step_atomic (h : step s.deque l = some d') (ho : l ≠ .owner) (ht : ∀ i, l ≠ .thief i) :
    step s.atomic l = some (Relaxed.atomic { s with deque := d' }) := by
  cases l with
  | owner => exact absurd rfl ho
  | thief i => exact absurd rfl (ht i)
  | push item | pushed | pop =>
    simp only [step] at h ⊢
    split at h
    · rename_i hpc
      obtain rfl := Option.some.inj h
      simp only [Relaxed.atomic, hpc]
    · exact absurd h (by simp)
  | popped r =>
    simp only [step] at h ⊢
    split at h
    · rename_i hpc
      split_ifs at h with hr
      obtain rfl := Option.some.inj h
      simp only [Relaxed.atomic, hpc]
      exact if_pos hr
    · rename_i hpc
      split_ifs at h with hr
      obtain rfl := Option.some.inj h
      simp only [Relaxed.atomic, hpc]
      exact if_pos hr
    · exact absurd h (by simp)
  | steal i =>
    simp only [step] at h ⊢
    split at h
    · rename_i hpc
      obtain rfl := Option.some.inj h
      have hpc' : s.atomic.thief i = .idle := congrArg ThiefPc.unloaded hpc
      have hcall : (s.setThief i .stealTop).atomic = s.atomic.setThief i .stealTop :=
        atomic_setThief
      simp only [hpc']
      exact congrArg some hcall.symm
    · exact absurd h (by simp)
  | stolen i r =>
    have hidle : (s.setThief i .idle).atomic = s.atomic.setThief i .idle := atomic_setThief
    simp only [step] at h ⊢
    split at h
    · rename_i hpc
      have hpc' : s.atomic.thief i = .stealEmpty := congrArg ThiefPc.unloaded hpc
      split_ifs at h with hr
      obtain rfl := Option.some.inj h
      simp only [hpc', if_pos hr]
      exact congrArg some hidle.symm
    · rename_i hpc
      have hpc' : s.atomic.thief i = .stealLost := congrArg ThiefPc.unloaded hpc
      split_ifs at h with hr
      obtain rfl := Option.some.inj h
      simp only [hpc', if_pos hr]
      exact congrArg some hidle.symm
    · rename_i hpc
      have hpc' : s.atomic.thief i = .stealTake none := congrArg ThiefPc.unloaded hpc
      split_ifs at h with hr
      obtain rfl := Option.some.inj h
      simp only [hpc', if_pos hr]
      exact congrArg some hidle.symm
    · rename_i p hpc
      have hpc' : s.atomic.thief i = .stealTake (some p) := congrArg ThiefPc.unloaded hpc
      split_ifs at h with hr
      obtain rfl := Option.some.inj h
      simp only [hpc']
      refine (if_pos hr).trans (congrArg some ?_)
      rw [← hidle]
      rfl
    · exact absurd h (by simp)

theorem Lawful.call (h : Lawful s) (hst : step s.deque l = some d') (ho : l ≠ .owner)
    (ht : ∀ i, l ≠ .thief i) : Lawful { s with deque := d' } := by
  have hc := step_called hst ho ht
  refine ⟨step_inv h.inv (step_atomic hst ho ht), hc.numbered h.numbered, h.logged.keeps hc.keeps,
    ⟨?_, ?_, fun buf => ?_, fun buf hbuf => ?_⟩, h.settled.imp fun _ _ hs => hs.keeps hc.keeps,
    hc.lb.symm ▸ h.bottom_le, hc.lb.symm ▸ h.bottoms, fun hpc => h.loaded (hc.thief hpc)⟩
  · exact h.coherent.bottom.trans hc.bottom.symm
  · exact h.coherent.buffer.trans hc.keeps.buffer.symm
  · rw [hc.heap]
    exact h.coherent.slots buf
  · exact h.coherent.fresh buf (hc.allocated ▸ hbuf)

omit [DecidableEq ι] [DecidableEq T] in
/-- A store arrives. -/
theorem Lawful.arrive (h : Lawful s) {k : ℕ} {flight : List Write} {arrived : Arrived}
    (ha : stores.arrive s.flight s.arrived k = some (flight, arrived)) :
    Lawful { s with flight, arrived } := by
  have hbottom : ∀ x, stores.release x = false → ∃ b, x = .bottom b := by
    intro x hx
    cases x with
    | bottom b => exact ⟨b, rfl⟩
    | buffer | slot => exact absurd hx nofun
  obtain ⟨xs, x, ys, hflight, hflight', harrived, -, -⟩ := Stores.arrive_eq_some ha
  have hmem : x ∈ s.flight := by
    rw [hflight]
    exact List.mem_append_right _ List.mem_cons_self
  have hsub : flight ⊆ s.flight := by
    rw [hflight, hflight']
    exact ((List.sublist_cons_self _ _).append_left _).subset
  have hmono : s.arrived.buffer ≤ arrived.buffer := by
    rw [harrived]
    cases x with
    | bottom | slot => exact le_rfl
    | buffer buf => exact h.settled.now.buffers buf hmem
  refine ⟨h.inv, h.numbered, h.logged, ?_, ?_, ?_, fun b hb => h.bottoms b (hsub hb), fun hpc =>
    (h.loaded hpc).trans hmono⟩
  · rw [Stores.arrive_drain ha]
    exact h.coherent
  · refine Stores.Along.arrive (fun x hx m zs ys hs => ?_) h.settled ha
    obtain ⟨b, rfl⟩ := hbottom x hx
    exact hs.bottom
  · rw [harrived]
    cases x with
    | bottom b => exact h.bottoms b hmem
    | buffer | slot => exact h.bottom_le

theorem stepRelaxed_lawful {l : RelaxedLabel ι T} (h : Lawful s) (hok : Ordered s l)
    (hst : stepRelaxed s l = some s') : Lawful s' := by
  cases l with
  | arrive k =>
    obtain ⟨⟨flight, arrived⟩, ha, rfl⟩ := Option.map_eq_some_iff.mp hst
    exact h.arrive ha
  | run l =>
    cases l with
    | owner => exact h.stepOwner hst
    | thief i => exact h.stepThief hok hst
    | push | pushed | pop | popped | steal | stolen =>
      obtain ⟨d', hd, rfl⟩ := Option.map_eq_some_iff.mp hst
      exact h.call hd nofun nofun

theorem init_lawful {c : ℕ} (h : (relaxed ι T c).init s) : Lawful s := by
  obtain ⟨deque, arrived, flight, pushed⟩ := s
  obtain ⟨hc, rfl, rfl, rfl⟩ := h
  have hinv := construct_inv hc
  unfold construct at hc
  split at hc
  · exact absurd hc nofun
  · obtain ⟨buf, hbuf, rfl⟩ := Option.map_eq_some_iff.mp hc
    have hslots := (Buffer.make_eq_some hbuf).2
    refine ⟨hinv, rfl, ⟨fun t ht ht' => ?_, nofun, nofun⟩,
      ⟨rfl, rfl, fun _ => hslots.symm, fun _ _ => rfl⟩,
      ⟨le_rfl, nofun, fun _ _ hr => absurd hr nofun, nofun, nofun⟩, le_rfl, nofun, nofun⟩
    exact absurd (ht.trans_lt ht') (lt_irrefl _)

/-- **Where every thief loads the slot of `top_` late enough, a `steal` gets its item.** -/
theorem steals_its_item {c : ℕ} (h : (relaxed ι T c).ReachableUnder Ordered s) :
    StealsItsItem s := by
  have hl : Lawful s := h.invariant (fun _ => init_lawful) fun _ _ _ _ hok hst hl =>
    stepRelaxed_lawful hl hok hst
  intro i t ptr hpc htop
  subst htop
  obtain ⟨hlb, hptr⟩ := (hl.thief hpc).2 rfl
  obtain ⟨r, hr, hslot⟩ := hl.slot le_rfl hlb
  exact ⟨r, hr, hptr.trans hslot⟩

/-- `push` to its return, and its stores in flight. -/
def pushLabels (item : ℕ) (steps : ℕ) : List (RelaxedLabel Unit ℕ) :=
  .run (.push item) :: List.replicate steps (.run .owner) ++ [.run .pushed]

/-- `steal` up to its compare-and-swap. -/
def stealLabels : List (RelaxedLabel Unit ℕ) :=
  .run (.steal ()) :: List.replicate 4 (.run (.thief ()))

/-- Two items in a deque of capacity one, the second after `grow`; both are stolen. -/
theorem steals_its_item_grown : ∃ s : Relaxed Unit ℕ,
    s.deque.thief () = .stealCas 1 (some 1) ∧ s.deque.top = 1 ∧ s.deque.buffer = 1 ∧
      StealsItsItem s := by
  let d₀ : State Unit ℕ := (construct 1).get (by decide +kernel)
  let s₀ : Relaxed Unit ℕ := ⟨d₀, ⟨0, 0, fun _ _ => none⟩, [], fun _ => none⟩
  have h₀ : construct 1 = some d₀ := (Option.some_get _).symm
  let run : List (RelaxedLabel Unit ℕ) := List.flatten
    [pushLabels 5 5, pushLabels 6 9, List.replicate 6 (.arrive 0), stealLabels,
      [.run (.thief ()), .run (.stolen () (some 5))], stealLabels]
  let s := ((relaxed Unit ℕ 1).execUnder Ordered s₀ run).get (by decide +kernel)
  have hs : (relaxed Unit ℕ 1).ReachableUnder Ordered s :=
    ⟨run, s₀, ⟨h₀, rfl, rfl, rfl⟩, Machine.execUnder_path (Option.some_get _).symm⟩
  exact ⟨s, by decide +kernel, by decide +kernel, by decide +kernel, steals_its_item hs⟩

/-- The store of `bottom_` arrives before that of the slot: a null pointer is stolen. -/
theorem not_steals_its_item :
    ¬ ∀ s : Relaxed Unit ℕ, (relaxed Unit ℕ 256).Reachable s → StealsItsItem s := by
  intro hall
  let d₀ : State Unit ℕ := (construct 256).get (by decide +kernel)
  let s₀ : Relaxed Unit ℕ := ⟨d₀, ⟨0, 0, fun _ _ => none⟩, [], fun _ => none⟩
  have h₀ : construct 256 = some d₀ := (Option.some_get _).symm
  let run : List (RelaxedLabel Unit ℕ) := List.flatten [pushLabels 5 5, [.arrive 1], stealLabels]
  let s := ((relaxed Unit ℕ 256).exec s₀ run).get (by decide +kernel)
  have hs : (relaxed Unit ℕ 256).Reachable s :=
    Machine.reachable_of_exec (s := s₀) ⟨h₀, rfl, rfl, rfl⟩ (Option.some_get _).symm
  have hpc : s.deque.thief () = .stealCas 0 none := by decide +kernel
  obtain ⟨r, -, hptr⟩ := hall s hs () 0 none hpc (by decide +kernel)
  exact absurd hptr nofun

end Wss.ChaseLev
