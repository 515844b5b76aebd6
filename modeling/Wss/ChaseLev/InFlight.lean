import Wss.ChaseLev.Invariant
import Wss.ChaseLev.Relaxed

/-!
# What memory holds while stores are in flight

The owner's atomic operations by what they store (`stepOwner_moves`), and what memory holds after
any number of arrivals in program order (`Settled`):

* the slot of an index has the box of its `push` in every buffer from the one on that `push` stored
  it to, once that store has arrived;
* the box of a `push` is nowhere before that store has arrived, and never in an earlier buffer.

A store that is issued keeps both (`Moves.settled`; `Settled.inFlight` and `Settled.landed` for the
slot store of `push`), and so does a store of `bottom_` that arrives before others
(`Settled.bottom`). `Coherent`: once every store has arrived, memory is what the owner sees.

Results:
* `stepOwner_moves`: what an atomic operation of the owner does and stores.
* `Moves.settled`: it keeps what memory will hold.
-/

namespace Wss.ChaseLev

open Wss.Lib

variable {ι T : Type} {d d' : State ι T}

/-! ## What the owner stores -/

/-- One past the last index whose box has been stored to its slot. -/
def State.filled (d : State ι T) : ℤ :=
  match d.owner with
  | .pushPublish _ b => b + 1
  | _ => d.lb

/-- Buffers are allocated one at a time, each to be the next one of the deque. -/
def Numbered (d : State ι T) : Prop :=
  match d.owner with
  | .growLoad _ _ _ new _ | .growStore _ _ _ new _ _ | .growPublish _ _ new =>
    new = d.buffer + 1 ∧ d.allocated = new + 1
  | _ => d.allocated = d.buffer + 1

/-- No box and no index is added to the deque, and its buffers stay where they are. -/
structure Keeps (d d' : State ι T) : Prop where
  top : d.top ≤ d'.top
  filled : d'.filled ≤ d.filled
  buffer : d'.buffer = d.buffer
  boxes : d'.boxes = d.boxes
  mask : ∀ buf, buf ≤ d.buffer → (d'.heap buf).mask = (d.heap buf).mask

/-- An atomic operation of the owner and what it stores, but for the slot store of `push`. -/
inductive Moves (d d' : State ι T) : List Write → Prop
  | quiet : Keeps d d' → d'.bottom = d.bottom → d'.heap = d.heap → d'.allocated = d.allocated →
      Moves d d' []
  | alloc {new : Buffer} : Keeps d d' → d'.bottom = d.bottom →
      d'.heap = Function.update d.heap d.allocated new → new.slots = (fun _ => none) →
      d'.allocated = d.allocated + 1 → Moves d d' []
  | bottom : Keeps d d' → d'.heap = d.heap → d'.allocated = d.allocated →
      Moves d d' [.bottom d'.bottom]
  | copy {new : ℕ} {i : ℤ} : Keeps d d' → d'.bottom = d.bottom → d.buffer < new →
      new < d.allocated → d'.heap = Function.update d.heap new ((d.heap new).store i (d.slot i)) →
      d'.allocated = d.allocated → Moves d d' [.slot new ((d.heap new).index i) (d.slot i)]
  | publish : d'.top = d.top → d'.filled = d.filled → d'.boxes = d.boxes →
      d'.bottom = d.bottom → d'.heap = d.heap → d'.allocated = d.allocated →
      d'.buffer = d.buffer + 1 →
      (∀ i, d.top ≤ i → i < d.filled → d'.slot i = d.slot i) → Moves d d' [.buffer d'.buffer]

theorem Moves.setOwner {pc : OwnerPc T} (h : State.filled { d with owner := pc } ≤ d.filled) :
    Moves d { d with owner := pc } [] :=
  .quiet ⟨le_rfl, h, rfl, rfl, fun _ _ => rfl⟩ rfl rfl rfl

theorem Moves.setBottom {pc : OwnerPc T} {b : ℤ}
    (h : State.filled { d with bottom := b, owner := pc } ≤ d.filled) :
    Moves d { d with bottom := b, owner := pc } [.bottom b] :=
  .bottom ⟨le_rfl, h, rfl, rfl, fun _ _ => rfl⟩ rfl rfl

theorem stepOwner_numbered (hn : Numbered d) (h : stepOwner d = some d') : Numbered d' := by
  unfold Numbered at hn ⊢
  unfold stepOwner at h
  cases hpc : d.owner with
  | idle | pushReturn | popTake _ | popNone => simp [hpc] at h
  | pushBuffer item b t =>
    simp only [hpc] at h hn
    split at h
    · obtain ⟨nb, -, rfl⟩ := Option.map_eq_some_iff.mp h
      rcases growNext_cases item b d.buffer d.allocated t with he | he <;>
        simp only [he] <;> exact ⟨hn, trivial⟩
    · obtain rfl := Option.some.inj h
      exact hn
  | growStore item b old new i ptr =>
    simp only [hpc, Option.some.injEq] at h hn
    subst h
    rcases growNext_cases item b old new (i + 1) with he | he <;> simp only [he] <;> exact hn
  | growPublish item b new =>
    simp only [hpc, Option.some.injEq] at h hn
    subst h
    exact hn.2
  | popTop | popSlot | popCas =>
    simp only [hpc] at h hn
    split at h <;> obtain rfl := Option.some.inj h <;> exact hn
  | pushBottom | pushTop | growLoad | growRetire | pushSlot | pushPublish | popBottom | popBuffer
  | popLower | popRestore | popRaise =>
    simp only [hpc, Option.some.injEq] at h hn
    subst h
    exact hn

/-- **What an atomic operation of the owner does.** -/
theorem stepOwner_moves (ho : OwnerOk d) (hn : Numbered d) (h : stepOwner d = some d') :
    (Moves d d' (issued d) ∧ ∀ pushed, record d pushed = pushed) ∨
      ∃ item, d.owner = .pushSlot item d.lb d.buffer := by
  unfold OwnerOk at ho
  unfold Numbered at hn
  unfold stepOwner at h
  unfold issued record
  cases hpc : d.owner with
  | idle | pushReturn | popTake _ | popNone => simp [hpc] at h
  | pushSlot item b buf =>
    simp only [hpc] at ho
    obtain ⟨hb, hbuf, -⟩ := ho
    refine .inr ⟨item, ?_⟩
    rw [hbuf, State.lb, hpc, hb]
  | pushBottom | pushTop | growLoad | popBottom | popBuffer =>
    simp only [hpc, Option.some.injEq] at h
    subst h
    exact .inl ⟨.setOwner (by simp only [State.filled, State.lb, hpc, le_refl]), fun _ => rfl⟩
  | growRetire item b new =>
    simp only [hpc, Option.some.injEq] at h
    subst h
    exact .inl ⟨.quiet ⟨le_rfl, by simp only [State.filled, State.lb, hpc, le_refl], rfl, rfl,
      fun _ _ => rfl⟩ rfl rfl rfl, fun _ => rfl⟩
  | pushBuffer item b t =>
    simp only [hpc] at h hn
    split at h
    · obtain ⟨nb, hnb, rfl⟩ := Option.map_eq_some_iff.mp h
      refine .inl ⟨.alloc ⟨le_rfl, ?_, rfl, rfl, fun buf hbuf => ?_⟩ rfl rfl
        (Buffer.make_eq_some hnb).2 rfl, fun _ => rfl⟩
      · rcases growNext_cases item b d.buffer d.allocated t with he | he <;>
          simp only [State.filled, State.lb, hpc, he, le_refl]
      · exact congrArg Buffer.mask (Function.update_of_ne (by omega : buf ≠ d.allocated) _ _)
    · obtain rfl := Option.some.inj h
      exact .inl ⟨.setOwner (by simp only [State.filled, State.lb, hpc, le_refl]), fun _ => rfl⟩
  | growStore item b old new i ptr =>
    simp only [hpc, Option.some.injEq] at h ho
    subst h
    obtain ⟨-, -, -, hcp, rfl⟩ := ho
    refine .inl ⟨.copy ⟨le_rfl, ?_, rfl, rfl, fun buf hbuf => ?_⟩ rfl hcp.lt hcp.allocated rfl rfl,
      fun _ => rfl⟩
    · rcases growNext_cases item b old new (i + 1) with he | he <;>
        simp only [State.filled, State.lb, hpc, he, le_refl]
    · exact congrArg Buffer.mask (Function.update_of_ne (hbuf.trans_lt hcp.lt).ne _ _)
  | growPublish item b new =>
    simp only [hpc, Option.some.injEq] at h ho hn
    subst h
    obtain ⟨hb, hcp⟩ := ho
    have hfilled : d.filled = b := by simp only [State.filled, State.lb, hpc, hb]
    refine .inl ⟨.publish rfl ?_ rfl rfl rfl rfl hn.1 fun i hi₁ hi₂ => ?_, fun _ => rfl⟩
    · simp only [State.filled, State.lb, hpc]
    · exact hcp.load i hi₁ (hfilled ▸ hi₂)
  | popLower b buf =>
    simp only [hpc, Option.some.injEq] at h ho
    subst h
    exact .inl ⟨.setBottom (by simp only [State.filled, State.lb, hpc, ho.1, le_refl]),
      fun _ => rfl⟩
  | popTop b buf =>
    simp only [hpc] at h
    split at h
    · obtain rfl := Option.some.inj h
      exact .inl ⟨.setOwner (by simp only [State.filled, State.lb, hpc, le_refl]), fun _ => rfl⟩
    · obtain rfl := Option.some.inj h
      refine .inl ⟨.setOwner ?_, fun _ => rfl⟩
      simp only [State.filled, State.lb, hpc]
      split_ifs <;> omega
  | popSlot b buf t =>
    simp only [hpc] at h ho
    split at h
    · rename_i he
      obtain rfl := Option.some.inj h
      exact .inl ⟨.setOwner (by simp only [State.filled, State.lb, hpc, if_pos he, le_refl]),
        fun _ => rfl⟩
    · rename_i hne
      obtain rfl := Option.some.inj h
      exact .inl ⟨.setOwner (by simp only [State.filled, State.lb, hpc, if_neg hne, ho.1, le_refl]),
        fun _ => rfl⟩
  | pushPublish item b | popRestore b | popRaise t b ptr =>
    simp only [hpc, Option.some.injEq] at h
    subst h
    exact .inl ⟨.setBottom (by simp only [State.filled, State.lb, hpc, le_refl]), fun _ => rfl⟩
  | popCas t ptr =>
    simp only [hpc] at h
    split at h
    · rename_i he
      obtain rfl := Option.some.inj h
      exact .inl ⟨.quiet ⟨by simp only [he]; omega, by
        simp only [State.filled, State.lb, hpc, le_refl], rfl, rfl, fun _ _ => rfl⟩ rfl rfl rfl,
        fun _ => rfl⟩
    · obtain rfl := Option.some.inj h
      exact .inl ⟨.setOwner (by simp only [State.filled, State.lb, hpc, le_refl]), fun _ => rfl⟩

/-! ## Memory once every store has arrived -/

/-- Memory is what the owner sees. -/
structure Coherent (d : State ι T) (m : Arrived) : Prop where
  bottom : m.bottom = d.bottom
  buffer : m.buffer = d.buffer
  slots : ∀ buf, m.slots buf = (d.heap buf).slots
  fresh : ∀ buf, d.allocated ≤ buf → m.slots buf = fun _ => none

variable {m arrived : Arrived} {flight ws ys : List Write} {pushed : ℤ → Option Pushed}

theorem Coherent.load (h : Coherent d m) (buf : ℕ) (i : ℤ) :
    m.slots buf ((d.heap buf).index i) = (d.heap buf).load i := by
  rw [h.slots]
  rfl

/-- A slot store. -/
theorem Coherent.store (h : Coherent d m) {buf : ℕ} {i : ℤ} {ptr : Option ℕ}
    (hlt : buf < d.allocated) (hbottom : d'.bottom = d.bottom) (hbuffer : d'.buffer = d.buffer)
    (hheap : d'.heap = Function.update d.heap buf ((d.heap buf).store i ptr))
    (halloc : d'.allocated = d.allocated) :
    Coherent d' ((Write.slot buf ((d.heap buf).index i) ptr).perform m) where
  bottom := h.bottom.trans hbottom.symm
  buffer := h.buffer.trans hbuffer.symm
  slots c := by
    show Function.update m.slots buf _ c = _
    by_cases hc : c = buf
    · rw [hheap, hc, Function.update_self, Function.update_self, h.slots]
      rfl
    · rw [hheap, Function.update_of_ne hc, Function.update_of_ne hc, h.slots]
  fresh c hc := by
    rw [halloc] at hc
    exact (Function.update_of_ne (hlt.trans_le hc).ne' _ _).trans (h.fresh c hc)

theorem Moves.coherent (hm : Moves d d' ws) (h : Coherent d m) :
    Coherent d' (stores.drain ws m) := by
  cases hm with
  | quiet hk hbottom hheap halloc =>
    refine ⟨h.bottom.trans hbottom.symm, h.buffer.trans hk.buffer.symm, fun buf => ?_, ?_⟩
    · rw [hheap]
      exact h.slots buf
    · rw [halloc]
      exact h.fresh
  | @alloc new hk hbottom hheap hnew halloc =>
    refine ⟨h.bottom.trans hbottom.symm, h.buffer.trans hk.buffer.symm, fun buf => ?_, ?_⟩
    · show m.slots buf = _
      by_cases hbuf : buf = d.allocated
      · rw [hheap, hbuf, Function.update_self, hnew, h.fresh _ le_rfl]
      · rw [hheap, Function.update_of_ne hbuf, h.slots]
    · rw [halloc]
      exact fun buf hbuf => h.fresh buf (by omega)
  | bottom hk hheap halloc =>
    refine ⟨rfl, h.buffer.trans hk.buffer.symm, fun buf => ?_, ?_⟩
    · rw [hheap]
      exact h.slots buf
    · rw [halloc]
      exact h.fresh
  | copy hk hbottom hlt hnew hheap halloc =>
    exact h.store hnew hbottom hk.buffer hheap halloc
  | publish htop hfilled hboxes hbottom hheap halloc hbuffer hload =>
    refine ⟨h.bottom.trans hbottom.symm, rfl, fun buf => ?_, ?_⟩
    · rw [hheap]
      exact h.slots buf
    · rw [halloc]
      exact h.fresh

/-! ## Memory after any number of arrivals -/

/-- What the log of the slot stores says. -/
structure Logged (d : State ι T) (pushed : ℤ → Option Pushed) : Prop where
  isSome : ∀ t, d.top ≤ t → t < d.filled → (pushed t).isSome
  box_lt : ∀ {t r}, pushed t = some r → r.box < d.boxes.length
  buf_le : ∀ {t r}, pushed t = some r → r.buf ≤ d.buffer

/-- What memory holds while `ys` are in flight. -/
structure Settled (d : State ι T) (pushed : ℤ → Option Pushed) (m : Arrived) (ys : List Write) :
    Prop where
  buffer_le : m.buffer ≤ d.buffer
  buffers : ∀ buf, .buffer buf ∈ ys → m.buffer ≤ buf
  settled : ∀ {t r}, d.top ≤ t → t < d.filled → pushed t = some r → r.write ∉ ys →
    ∀ {buf}, r.buf ≤ buf → buf ≤ m.buffer → m.slots buf ((d.heap buf).index t) = some r.box
  stored : ∀ {t r}, pushed t = some r → ∀ {buf k}, m.slots buf k = some r.box →
    r.buf ≤ buf ∧ r.write ∉ ys
  known : ∀ {buf k p}, m.slots buf k = some p → p < d.boxes.length

theorem index_congr {b b' : Buffer} (h : b'.mask = b.mask) (i : ℤ) : b'.index i = b.index i :=
  congrArg ((i % 2 ^ 64).toNat &&& ·) h

theorem Settled.mono (h : Settled d pushed m ys) (htop : d.top ≤ d'.top)
    (hfilled : d'.filled ≤ d.filled) (hbuffer : d.buffer ≤ d'.buffer) (hboxes : d'.boxes = d.boxes)
    (hmask : ∀ buf, buf ≤ d.buffer → (d'.heap buf).mask = (d.heap buf).mask) :
    Settled d' pushed m ys where
  buffer_le := h.buffer_le.trans hbuffer
  buffers := h.buffers
  settled ht ht' hr hys buf hle hbuf := by
    rw [index_congr (hmask buf (hbuf.trans h.buffer_le))]
    exact h.settled (htop.trans ht) (ht'.trans_le hfilled) hr hys hle hbuf
  stored := h.stored
  known hp := hboxes ▸ h.known hp

theorem Settled.keeps (h : Settled d pushed m ys) (hk : Keeps d d') : Settled d' pushed m ys :=
  h.mono hk.top hk.filled hk.buffer.ge hk.boxes hk.mask

theorem Logged.keeps (h : Logged d pushed) (hk : Keeps d d') : Logged d' pushed where
  isSome t htop hfilled := h.isSome t (hk.top.trans htop) (hfilled.trans_le hk.filled)
  box_lt hr := hk.boxes ▸ h.box_lt hr
  buf_le hr := hk.buffer ▸ h.buf_le hr

/-- A store of something else is issued. -/
theorem Settled.issue (h : Settled d pushed m ys) {x : Write}
    (hx : ∀ {t r}, pushed t = some r → r.write ≠ x)
    (hbuf : ∀ buf, x = .buffer buf → m.buffer ≤ buf) :
    Settled d pushed m (ys ++ [x]) where
  buffer_le := h.buffer_le
  buffers buf hb := by
    rcases List.mem_append.mp hb with hb | hb
    · exact h.buffers buf hb
    · exact hbuf buf (List.mem_singleton.mp hb).symm
  settled htop hfilled hr hys := h.settled htop hfilled hr fun hy =>
    hys (List.mem_append_left _ hy)
  stored hr _ _ hp := by
    obtain ⟨hle, hys⟩ := h.stored hr hp
    refine ⟨hle, fun hy => ?_⟩
    rcases List.mem_append.mp hy with hy | hy
    · exact hys hy
    · exact hx hr (List.mem_singleton.mp hy)
  known := h.known

/-- A store of `bottom_` arrives, be it before others. -/
theorem Settled.bottom {b : ℤ} {zs : List Write} (h : Settled d pushed m (zs ++ .bottom b :: ys)) :
    Settled d pushed ((Write.bottom b).perform m) (zs ++ ys) := by
  have hsub : zs ++ ys ⊆ zs ++ .bottom b :: ys :=
    ((List.sublist_cons_self _ _).append_left _).subset
  refine ⟨h.buffer_le, fun buf hb => h.buffers buf (hsub hb), fun {t r} htop hfilled hr hys => ?_,
    fun hr _ _ hp => ?_, h.known⟩
  · refine h.settled htop hfilled hr fun hy => ?_
    rcases List.mem_append.mp hy with hy | hy
    · exact hys (List.mem_append_left _ hy)
    · rcases List.mem_cons.mp hy with hy | hy
      · exact Pushed.write_ne_bottom _ _ hy
      · exact hys (List.mem_append_right _ hy)
  · obtain ⟨hle, hys⟩ := h.stored hr hp
    exact ⟨hle, fun hy => hys (hsub hy)⟩

theorem slots_perform {buf k c j : ℕ} {ptr : Option ℕ} :
    (stores.perform (.slot buf k ptr) m).slots c j =
      if c = buf ∧ j = k then ptr else m.slots c j := by
  show Function.update m.slots buf (Function.update (m.slots buf) k ptr) c j = _
  by_cases hc : c = buf
  · subst hc
    by_cases hj : j = k
    · rw [hj, if_pos ⟨rfl, rfl⟩, Function.update_self, Function.update_self]
    · rw [if_neg fun h => hj h.2, Function.update_self, Function.update_of_ne hj]
  · rw [if_neg fun h => hc h.1, Function.update_of_ne hc]

/-- A slot is copied to a buffer that is not published yet. -/
theorem Settled.copy (h : Settled d pushed m []) (hl : Logged d pushed) (hc : Coherent d m)
    {new k : ℕ} (hlt : d.buffer < new) (i : ℤ) :
    Settled d pushed (stores.perform (.slot new k (d.slot i)) m) [] where
  buffer_le := h.buffer_le
  buffers := h.buffers
  settled htop hfilled hr hys buf hle hbuf := by
    have hne : buf ≠ new := ((Nat.le_trans hbuf h.buffer_le).trans_lt hlt).ne
    rw [slots_perform, if_neg fun he => hne he.1]
    exact h.settled htop hfilled hr hys hle hbuf
  stored {t r} hr buf j hp := by
    rw [slots_perform] at hp
    split_ifs at hp with hj
    · exact ⟨hj.1 ▸ (hl.buf_le hr).trans hlt.le, List.not_mem_nil⟩
    · exact h.stored hr hp
  known {buf j p} hp := by
    rw [slots_perform] at hp
    split_ifs at hp
    · rw [State.slot, ← hc.load] at hp
      exact h.known hp
    · exact h.known hp

/-- The new buffer is published. -/
theorem Settled.publish (h : Settled d pushed m []) (hl : Logged d pushed) (hc : Coherent d m)
    (htop : d'.top = d.top) (hfilled : d'.filled = d.filled) (hboxes : d'.boxes = d.boxes)
    (hheap : d'.heap = d.heap) (hbuffer : d'.buffer = d.buffer + 1)
    (hslot : ∀ i, d.top ≤ i → i < d.filled → d'.slot i = d.slot i) :
    Settled d' pushed (stores.perform (.buffer d'.buffer) m) [] where
  buffer_le := le_rfl
  buffers := nofun
  settled {t r} ht ht' hr hys buf hle hbuf := by
    rw [htop] at ht
    rw [hfilled] at ht'
    have hold : ∀ {c}, r.buf ≤ c → c ≤ d.buffer → m.slots c ((d.heap c).index t) = some r.box :=
      fun hle hc' => h.settled ht ht' hr hys hle (hc.buffer ▸ hc')
    have hbuf : buf ≤ d'.buffer := hbuf
    show m.slots buf _ = _
    rw [hheap]
    rcases hbuf.lt_or_eq with hlt | rfl
    · exact hold hle (by omega)
    · -- the copy of the slot
      rw [hc.load, ← hheap]
      refine (hslot t ht ht').trans ?_
      rw [State.slot, ← hc.load]
      exact hold (hl.buf_le hr) le_rfl
  stored hr := h.stored hr
  known hp := hboxes ▸ h.known hp

/-- **An atomic operation of the owner, but for the slot store of `push`.** -/
theorem Moves.settled (hm : Moves d d' ws) (hl : Logged d pushed)
    (hc : Coherent d (stores.drain flight arrived))
    (h : stores.Along (Settled d pushed) flight arrived) :
    stores.Along (Settled d' pushed) (flight ++ ws) arrived := by
  have hall := h.drained
  cases hm with
  | quiet hk | alloc hk =>
    rw [List.append_nil]
    exact h.imp fun _ _ hs => hs.keeps hk
  | bottom hk =>
    refine h.issue (fun _ _ hs => (hs.keeps hk).issue (fun _ => Pushed.write_ne_bottom _ _) nofun)
      ?_
    have hs := hall.keeps hk
    exact ⟨hs.buffer_le, hs.buffers, hs.settled, hs.stored, hs.known⟩
  | @copy new i hk _ hlt =>
    have hne : ∀ {t r}, pushed t = some r → r.write ≠ .slot new ((d.heap new).index i) (d.slot i) :=
      fun hr he => absurd (Write.slot.inj he).1 ((hl.buf_le hr).trans_lt hlt).ne
    refine h.issue (fun _ _ hs => (hs.keeps hk).issue hne nofun) ?_
    exact (hall.copy hl hc hlt i).keeps hk
  | publish htop hfilled hboxes _ hheap _ hbuffer hslot =>
    refine h.issue (fun m ys hs => ?_) (hall.publish hl hc htop hfilled hboxes hheap hbuffer hslot)
    have hle : d.buffer ≤ d'.buffer := by omega
    have hnew : ∀ buf, Write.buffer d'.buffer = .buffer buf → m.buffer ≤ buf := by
      intro buf he
      obtain rfl := Write.buffer.inj he
      exact hs.buffer_le.trans hle
    have hs' := hs.issue (fun _ => Pushed.write_ne_buffer _ _) hnew
    exact hs'.mono htop.ge hfilled.le hle hboxes fun buf _ => by rw [hheap]

theorem Moves.logged (hm : Moves d d' ws) (hl : Logged d pushed) : Logged d' pushed := by
  cases hm with
  | quiet hk | alloc hk | bottom hk | copy hk => exact hl.keeps hk
  | publish htop hfilled hboxes _ _ _ hbuffer =>
    refine ⟨fun t ht ht' => hl.isSome t (htop ▸ ht) (hfilled ▸ ht'), fun hr => ?_, fun hr => ?_⟩
    · rw [hboxes]
      exact hl.box_lt hr
    · rw [hbuffer]
      exact (hl.buf_le hr).trans (Nat.le_succ _)

/-! ## The slot store of `push` -/

section Push

variable {item : T} {b : ℤ}

/-- `d` after the slot store. -/
def State.stored (d : State ι T) (item : T) (b : ℤ) : State ι T :=
  { d with
    boxes := d.boxes ++ [item]
    heap := Function.update d.heap d.buffer ((d.heap d.buffer).store b (some d.boxes.length))
    owner := .pushPublish item b }

/-- The slot store of the next box. -/
def State.newest (d : State ι T) (b : ℤ) : Pushed :=
  ⟨d.boxes.length, d.buffer, (d.heap d.buffer).index b⟩

theorem stored_mask (buf : ℕ) : ((d.stored item b).heap buf).mask = (d.heap buf).mask := by
  show Buffer.mask (Function.update d.heap d.buffer _ buf) = _
  by_cases hbuf : buf = d.buffer
  · rw [hbuf, Function.update_self]
    rfl
  · rw [Function.update_of_ne hbuf]

/-- The log afterwards. -/
theorem newest_or {t : ℤ} {r : Pushed}
    (hr : Function.update pushed b (some (d.newest b)) t = some r) :
    t = b ∧ r = d.newest b ∨ t ≠ b ∧ pushed t = some r := by
  by_cases htb : t = b
  · rw [htb, Function.update_self] at hr
    exact .inl ⟨htb, (Option.some.inj hr).symm⟩
  · rw [Function.update_of_ne htb] at hr
    exact .inr ⟨htb, hr⟩

theorem Logged.store (hl : Logged d pushed) (hb : d.filled = b) :
    Logged (d.stored item b) (Function.update pushed b (some (d.newest b))) where
  isSome t ht ht' := by
    by_cases htb : t = b
    · rw [htb, Function.update_self]
      rfl
    · have ht' : t < b + 1 := ht'
      rw [Function.update_of_ne htb]
      exact hl.isSome t ht (by omega)
  box_lt {t r} hr := by
    show _ < (d.boxes ++ [item]).length
    rw [List.length_append, List.length_singleton]
    rcases newest_or hr with ⟨-, rfl⟩ | ⟨-, hr⟩
    · exact Nat.lt_succ_self _
    · exact Nat.lt_succ_of_lt (hl.box_lt hr)
  buf_le {t r} hr := by
    rcases newest_or hr with ⟨-, rfl⟩ | ⟨-, hr⟩
    · exact le_rfl
    · exact hl.buf_le hr

/-- Until the store arrives the box is nowhere. -/
theorem Settled.inFlight (h : Settled d pushed m ys) (hl : Logged d pushed) (hb : d.filled = b) :
    Settled (d.stored item b) (Function.update pushed b (some (d.newest b))) m
      (ys ++ [(d.newest b).write]) where
  buffer_le := h.buffer_le
  buffers buf hbuf := by
    rcases List.mem_append.mp hbuf with hbuf | hbuf
    · exact h.buffers buf hbuf
    · exact absurd (List.mem_singleton.mp hbuf) nofun
  settled {t r} ht ht' hr hys buf hle hbuf := by
    rcases newest_or hr with ⟨-, rfl⟩ | ⟨htb, hr⟩
    · exact absurd (List.mem_append_right _ (List.mem_singleton_self _)) hys
    · have ht' : t < b + 1 := ht'
      rw [index_congr (stored_mask buf)]
      exact h.settled ht (by omega) hr (fun hy => hys (List.mem_append_left _ hy)) hle hbuf
  stored {t r} hr buf k hp := by
    rcases newest_or hr with ⟨-, rfl⟩ | ⟨-, hr⟩
    · exact absurd (h.known hp) (lt_irrefl _)
    · obtain ⟨hle, hys⟩ := h.stored hr hp
      refine ⟨hle, fun hy => ?_⟩
      rcases List.mem_append.mp hy with hy | hy
      · exact hys hy
      · have hbox := Option.some.inj (Write.slot.inj (List.mem_singleton.mp hy)).2.2
        exact absurd (hl.box_lt hr) hbox.not_lt
  known hp := by
    show _ < (d.boxes ++ [item]).length
    rw [List.length_append]
    exact Nat.lt_add_right _ (h.known hp)

/-- Once every store has arrived the box is in its slot. -/
theorem Settled.landed (h : Settled d pushed m []) (hl : Logged d pushed) (hc : Coherent d m)
    (hb : d.filled = b) (hroom : b < d.top + d.cap) :
    Settled (d.stored item b) (Function.update pushed b (some (d.newest b)))
      (stores.perform (d.newest b).write m) [] where
  buffer_le := h.buffer_le
  buffers := nofun
  settled {t r} ht ht' hr hys buf hle hbuf := by
    have hle' : buf ≤ d.buffer := Nat.le_trans hbuf h.buffer_le
    rw [index_congr (stored_mask buf), Pushed.write, slots_perform]
    rcases newest_or hr with ⟨rfl, rfl⟩ | ⟨htb, hr⟩
    · obtain rfl : buf = d.buffer := le_antisymm hle' hle
      exact if_pos ⟨rfl, rfl⟩
    · have ht' : t < b + 1 := ht'
      have ht : d.top ≤ t := ht
      rw [if_neg]
      · exact h.settled ht (by omega) hr List.not_mem_nil hle (hc.buffer ▸ hle')
      · -- the slot of an index less than a capacity below
        rintro ⟨hbuf, he⟩
        obtain rfl : buf = d.buffer := hbuf
        unfold State.cap at hroom
        exact Buffer.index_ne (by omega) (by omega) he
  stored {t r} hr buf k hp := by
    refine ⟨?_, List.not_mem_nil⟩
    rw [Pushed.write, slots_perform] at hp
    rcases newest_or hr with ⟨-, rfl⟩ | ⟨-, hr⟩
    · split_ifs at hp with hk
      · exact hk.1.ge
      · exact absurd (h.known hp) (lt_irrefl _)
    · split_ifs at hp with hk
      · exact absurd (hl.box_lt hr) (Option.some.inj hp).not_gt
      · exact (h.stored hr hp).1
  known {buf k p} hp := by
    show _ < (d.boxes ++ [item]).length
    rw [List.length_append, List.length_singleton]
    rw [Pushed.write, slots_perform] at hp
    split_ifs at hp
    · exact (Option.some.inj hp).ge.trans_lt (Nat.lt_succ_self _)
    · exact Nat.lt_succ_of_lt (h.known hp)

end Push

end Wss.ChaseLev
