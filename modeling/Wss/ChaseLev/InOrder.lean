import Wss.ChaseLev.Linear
import Wss.ChaseLev.Ordered

/-!
# What the deque is worth under the memory orders as written

`Ordered.lean` says when a `steal` gets its item. Here is what the whole deque is then, and a kind
of machine that always meets the condition.

Results:
* `relaxed_linearizable`: where every load of a slot is `Ordered`, the history of calls and returns
  is linearizable, though a thief may act on a `bottom_` that is long out of date. A thief that
  reads an old `bottom_` reads one that is too small or one above which nothing is left to take, and
  a `steal` may always fail.
* `in_order_linearizable`: where the owner's stores arrive in program order, as they do on a machine
  with a store buffer for each core, every load is `Ordered`. So the missing release order of
  `bottom_` in `push` does no harm there.

The invariant for the second result is `Behind`: below the `bottom_` that memory has, the slot store
of every `push` has arrived, in a buffer memory knows.
-/

namespace Wss.ChaseLev

open Wss.Lib Atomic

variable {ι T : Type} {d d' : State ι T} {m arrived : Arrived} {flight ws ys : List Write}
  {pushed : ℤ → Option Pushed} {s s' : Relaxed ι T} {i : ι} {t : ℤ} {r : Pushed} {c : ℕ}

/-- The calls and returns of a run. -/
def relaxedEvent : RelaxedLabel ι T → Option (Event (Option ι) (Op T) (Res T))
  | .run l => event l
  | .arrive _ => none

/-! ## Linearizability -/

/-- The sequential object of a state: that of the deque as the owner sees it. -/
def Relaxed.object (s : Relaxed ι T) : Canonical (List T) (Option ι) (Op T) (Res T) :=
  view (toAtomic s.atomic)

variable [DecidableEq ι]

/-- A step of a thief that its call does not show. -/
theorem object_setThief {pc : ThiefPc}
    (hpc : ThiefStatus.view (thiefStatus s.atomic pc.unloaded) =
      ThiefStatus.view (thiefStatus s.atomic (s.deque.thief i).unloaded)) :
    (s.setThief i pc).object = s.object := by
  unfold Relaxed.object
  rw [atomic_setThief, toAtomic_setThief, view_setThief, hpc]
  refine congrArg (Canonical.mk _) (funext fun θ => ?_)
  by_cases hθ : θ = some i
  · subst hθ
    exact Canonical.setStatus_self _ _ _
  · exact Canonical.setStatus_of_ne _ _ hθ

/-- A step of a thief to a call that fails. -/
theorem object_fail {pc : ThiefPc} (hpc : pc = .stealEmpty ∨ pc = .stealLost)
    (hcall : (thiefStatus s.atomic (s.deque.thief i).unloaded).view = .called .steal) :
    Canonical.Run spec s.object [.point (some i) .steal (.item none)] (s.setThief i pc).object := by
  have hview : (thiefStatus s.atomic pc.unloaded).view = .done (.item none) := by
    rcases hpc with rfl | rfl <;> rfl
  unfold Relaxed.object
  rw [atomic_setThief, toAtomic_setThief]
  exact point_thief hcall hview .stealNone

/-- Every atomic operation of a thief is one of the sequential object, or none. -/
theorem Lawful.thief_linearize (h : Lawful s) (hst : s.stepThief i = some s') :
    ∃ as, Canonical.Run spec s.object as s'.object ∧ as.filterMap Action.event? = [] := by
  have hstay : ∀ {pc : ThiefPc}, ThiefStatus.view (thiefStatus s.atomic pc.unloaded) =
      ThiefStatus.view (thiefStatus s.atomic (s.deque.thief i).unloaded) →
      ∃ as, Canonical.Run spec s.object as (s.setThief i pc).object ∧
        as.filterMap Action.event? = [] := by
    intro pc hpc
    rw [object_setThief hpc]
    exact ⟨[], .nil, rfl⟩
  unfold Relaxed.stepThief at hst
  cases hpc : s.deque.thief i with
  | idle | stealTake _ | stealEmpty | stealLost => simp [hpc] at hst
  | stealTop | stealBuffer t | stealSlot t buf =>
    simp only [hpc, Option.some.injEq] at hst
    subst hst
    exact hstay (by rw [hpc]; rfl)
  | stealBottom t =>
    simp only [hpc] at hst
    split_ifs at hst
    · -- `bottom_` may be out of date: the `steal` fails
      obtain rfl := Option.some.inj hst
      exact ⟨_, object_fail (.inl rfl) (by rw [hpc]; rfl), rfl⟩
    · obtain rfl := Option.some.inj hst
      exact hstay (by rw [hpc]; rfl)
  | stealCas t ptr =>
    simp only [hpc] at hst
    split_ifs at hst with htop
    · -- the compare-and-swap of the sequentially consistent deque
      obtain rfl := Option.some.inj hst
      have hpc' : s.atomic.thief i = .stealCas t ptr := congrArg ThiefPc.unloaded hpc
      have hcas : ChaseLev.stepThief s.atomic i =
          some { s.atomic.setThief i (.stealTake ptr) with top := t + 1 } := by
        simp only [ChaseLev.stepThief, hpc']
        exact if_pos htop
      have hf : (s.setThief i (.stealTake ptr)).atomic = s.atomic.setThief i (.stealTake ptr) :=
        atomic_setThief
      rw [← hf] at hcas
      exact linearize (stepThief_refines h.inv hcas)
    · obtain rfl := Option.some.inj hst
      exact ⟨_, object_fail (.inr rfl) (by rw [hpc]; rfl), rfl⟩

variable [DecidableEq T] {l : RelaxedLabel ι T}

/-- **Every step is one of the sequential object, or none.** -/
theorem Lawful.linearize (h : Lawful s) (hst : stepRelaxed s l = some s') :
    ∃ as, Canonical.Run spec s.object as s'.object ∧
      as.filterMap Action.event? = (relaxedEvent l).toList := by
  cases l with
  | arrive k =>
    obtain ⟨⟨flight, arrived⟩, -, rfl⟩ := Option.map_eq_some_iff.mp hst
    exact ⟨[], .nil, rfl⟩
  | run l =>
    cases l with
    | thief i => exact h.thief_linearize hst
    | owner =>
      unfold stepRelaxed Relaxed.stepOwner at hst
      dsimp only at hst
      split_ifs at hst
      obtain ⟨d', hd, rfl⟩ := Option.map_eq_some_iff.mp hst
      obtain ⟨hatomic, hthief⟩ := stepOwner_thief (fun i => (s.deque.thief i).unloaded) hd
      have hstep := Atomic.linearize (stepOwner_refines h.inv hatomic)
      unfold Relaxed.object Relaxed.atomic
      dsimp only
      rw [hthief]
      exact hstep
    | push | pushed | pop | popped | steal | stolen =>
      obtain ⟨d', hd, rfl⟩ := Option.map_eq_some_iff.mp hst
      exact Atomic.linearize (step_refines h.inv (step_atomic hd (by simp) (by simp)))

theorem ordered_lawful (h : (relaxed ι T c).ReachableUnder Ordered s) : Lawful s :=
  h.invariant (fun _ => init_lawful) fun _ _ _ _ hok hst hl => stepRelaxed_lawful hl hok hst

theorem init_object (h : (relaxed ι T c).init s) : s.object = Canonical.start spec := by
  have hd : construct c = some s.atomic := by
    have hc := h.1
    unfold construct at hc ⊢
    split at hc
    · exact absurd hc (by simp)
    · obtain ⟨buf, hbuf, hd⟩ := Option.map_eq_some_iff.mp hc
      rw [hbuf]
      unfold Relaxed.atomic
      rw [← hd]
      rfl
  unfold Relaxed.object
  rw [construct_toAtomic hd]
  exact view_ext rfl rfl fun _ => rfl

/-- **The deque is linearizable under the memory orders as written**, in the runs where every load
of a slot is late enough. -/
theorem relaxed_linearizable {tr : List (RelaxedLabel ι T)}
    (h : (relaxed ι T c).Run Ordered tr s) : Linearizable spec (tr.filterMap relaxedEvent) :=
  linearizable_of_simulation (fun _ => init_object)
    (fun _ _ _ hs _ hst => (ordered_lawful hs).linearize hst) h

/-- The store of `bottom_` overtakes that of the slot, which arrives while a `steal` is between the
two loads. -/
def overtaken : List (RelaxedLabel Unit ℕ) :=
  pushLabels 5 5 ++ .arrive 1 :: .run (.steal ()) :: List.replicate 3 (.run (.thief ())) ++
    .arrive 0 :: List.replicate 2 (.run (.thief ())) ++ [.run (.stolen () (some 5))]

theorem relaxed_linearizable_overtaken : Linearizable spec
    [.call none (.push 5), .ret none .pushed, .call (some ()) .steal,
      .ret (some ()) (.item (some 5))] := by
  let d₀ : State Unit ℕ := (construct 256).get (by decide +kernel)
  let s₀ : Relaxed Unit ℕ := ⟨d₀, ⟨0, 0, fun _ _ => none⟩, [], fun _ => none⟩
  have h₀ : construct 256 = some d₀ := (Option.some_get _).symm
  let s := ((relaxed Unit ℕ 256).execUnder Ordered s₀ overtaken).get (by decide +kernel)
  have hs : (relaxed Unit ℕ 256).Run Ordered overtaken s :=
    ⟨s₀, ⟨h₀, rfl, rfl, rfl⟩, Machine.execUnder_path (Option.some_get _).symm⟩
  exact relaxed_linearizable hs

/-! ## Stores that arrive in program order -/

omit [DecidableEq ι] [DecidableEq T] in
/-- The store that arrives is the oldest in flight. -/
def InProgramOrder (_ : Relaxed ι T) : RelaxedLabel ι T → Prop
  | .arrive k => k = 0
  | .run _ => True

instance (s : Relaxed ι T) : DecidablePred (InProgramOrder s)
  | .arrive k => inferInstanceAs (Decidable (k = 0))
  | .run _ => isTrue trivial

/-- Below the `bottom_` that memory has, the slot store of every `push` has arrived. -/
structure Behind (top lb : ℤ) (pushed : ℤ → Option Pushed) (m : Arrived) (ys : List Write) :
    Prop where
  bottom_le : m.bottom ≤ lb
  landed : ∀ {t r}, top ≤ t → t < m.bottom → pushed t = some r → r.write ∉ ys ∧ r.buf ≤ m.buffer

/-- What a thief that has loaded `bottom_` knows about the index it is after. -/
def Loaded (s : Relaxed ι T) : ThiefPc → Prop
  | .stealBuffer t => s.deque.top = t → Landed s t s.arrived.buffer
  | .stealSlot t buf => s.deque.top = t → Landed s t buf
  | _ => True

/-- The invariant. -/
structure InOrder (s : Relaxed ι T) : Prop where
  lawful : Lawful s
  behind : stores.Along (Behind s.deque.top s.deque.lb s.pushed) s.flight s.arrived
  loaded : ∀ i, Loaded s (s.deque.thief i)

section

omit [DecidableEq ι] [DecidableEq T]

theorem Moves.top_le (hm : Moves d d' ws) : d.top ≤ d'.top := by
  cases hm with
  | quiet hk | alloc hk | bottom hk | copy hk => exact hk.top
  | publish htop => exact htop.ge

/-- The owner stores no box again, but for the copies in a buffer that is not published yet. -/
theorem Moves.fresh (hm : Moves d d' ws) (hl : Logged d pushed) (hr : pushed t = some r) :
    r.write ∉ ws := by
  intro hmem
  cases hm with
  | quiet | alloc => exact List.not_mem_nil hmem
  | bottom => exact Pushed.write_ne_bottom _ _ (List.mem_singleton.mp hmem)
  | publish => exact Pushed.write_ne_buffer _ _ (List.mem_singleton.mp hmem)
  | copy _ _ hlt =>
    exact absurd (Write.slot.inj (List.mem_singleton.mp hmem)).1 ((hl.buf_le hr).trans_lt hlt).ne

theorem issued_length (d : State ι T) : (issued d).length ≤ 1 := by
  unfold issued
  split <;> simp

theorem issued_fenced (h : d.owner.fenced) : issued d = [] := by
  unfold OwnerPc.fenced at h
  unfold issued
  split at h
  · rename_i hpc
    rw [hpc]
  · rename_i hpc
    rw [hpc]
  · exact absurd h (by simp)

/-- What an atomic operation of the owner leaves as it was. -/
theorem Lawful.owner_keeps (h : Lawful s) (hd : ChaseLev.stepOwner s.deque = some d') :
    s.deque.top ≤ d'.top ∧
      (∀ t, t ≠ s.deque.lb → record s.deque s.pushed t = s.pushed t) ∧
      ∀ t r, s.pushed t = some r → r.write ∉ issued s.deque := by
  rcases stepOwner_moves h.owner h.numbered hd with ⟨hm, hrec⟩ | ⟨item, hpc⟩
  · exact ⟨hm.top_le, fun t _ => by rw [hrec], fun t r hr => hm.fresh h.logged hr⟩
  · refine ⟨?_, fun t ht => ?_, fun t r hr hmem => ?_⟩
    · simp only [ChaseLev.stepOwner, hpc, Option.some.injEq] at hd
      subst hd
      exact le_rfl
    · simp only [record, hpc]
      exact Function.update_of_ne ht _ _
    · simp only [issued, hpc] at hmem
      have hbox := Option.some.inj (Write.slot.inj (List.mem_singleton.mp hmem)).2.2
      exact absurd (h.logged.box_lt hr) hbox.not_lt

/-- Once every store has arrived. -/
theorem Lawful.behind_drained (h : Lawful s) :
    Behind s.deque.top s.deque.lb s.pushed (stores.drain s.flight s.arrived) [] where
  bottom_le := h.coherent.bottom.trans_le h.inv.bottom_near.1
  landed _ _ hr := ⟨List.not_mem_nil, (h.logged.buf_le hr).trans h.coherent.buffer.ge⟩

theorem Behind.top_mono {top top' lb : ℤ} (h : Behind top lb pushed m ys) (htop : top ≤ top') :
    Behind top' lb pushed m ys :=
  ⟨h.bottom_le, fun ht => h.landed (htop.trans ht)⟩

/-- A step of the owner. -/
theorem Lawful.behind_owner (h : Lawful s) (h' : Lawful s') (hst : s.stepOwner = some s')
    (hb : stores.Along (Behind s.deque.top s.deque.lb s.pushed) s.flight s.arrived) :
    stores.Along (Behind s'.deque.top s'.deque.lb s'.pushed) s'.flight s'.arrived := by
  have hdone := h'.behind_drained
  unfold Relaxed.stepOwner at hst
  split_ifs at hst with hwait
  obtain ⟨d', hd, rfl⟩ := Option.map_eq_some_iff.mp hst
  obtain ⟨htop, hrec, hfresh⟩ := h.owner_keeps hd
  rcases stepOwner_lb h.owner hd with hle | ⟨hf, -⟩
  · refine Stores.Along.issues (issued_length _) (fun m ys hm => ?_) hb hdone
    refine ⟨hm.bottom_le.trans hle, fun {t r} ht hlt hr => ?_⟩
    have hr : record s.deque s.pushed t = some r := hr
    rw [hrec t (hlt.trans_le hm.bottom_le).ne] at hr
    obtain ⟨hys, hbuf⟩ := hm.landed (htop.trans ht) hlt hr
    exact ⟨fun hmem => (List.mem_append.mp hmem).elim hys (hfresh t r hr), hbuf⟩
  · -- nothing is in flight
    have hflight : s.flight = [] := not_not.mp fun hne => hwait ⟨hf, hne⟩
    have hnil : s.flight ++ issued s.deque = [] := by rw [hflight, issued_fenced hf]; rfl
    dsimp only at hdone ⊢
    rw [hnil] at hdone ⊢
    exact hdone

/-- A thief's knowledge stays, as long as its index does. -/
theorem Loaded.keep {pc : ThiefPc} (h : Loaded s pc) (hok : ThiefOk s.atomic pc.unloaded)
    (htop : s.deque.top ≤ s'.deque.top) (hbuf : s.arrived.buffer ≤ s'.arrived.buffer)
    (hland : ∀ t r, t < s.deque.lb → s.pushed t = some r → r.write ∉ s.flight →
      s'.pushed t = some r ∧ r.write ∉ s'.flight) : Loaded s' pc := by
  have hstay : ∀ {t buf buf'}, t ≤ s.deque.top ∧ (s.deque.top = t → t < s.deque.lb) →
      s'.deque.top = t → (s.deque.top = t → Landed s t buf) → buf ≤ buf' → Landed s' t buf' := by
    intro t buf buf' hok ht hl hle
    have htt : s.deque.top = t := by omega
    obtain ⟨r, hr, hfl, hrb⟩ := hl htt
    obtain ⟨hr', hfl'⟩ := hland t r (hok.2 htt) hr hfl
    exact ⟨r, hr', hfl', hrb.trans hle⟩
  cases pc with
  | stealBuffer t => exact fun ht => hstay hok ht h hbuf
  | stealSlot t buf => exact fun ht => hstay hok ht h le_rfl
  | _ => trivial

end

/-- A call or a return leaves every thief's knowledge as it was. -/
theorem step_call_thief {l : Label ι T} (h : step d l = some d') (ho : l ≠ .owner)
    (ht : ∀ i, l ≠ .thief i) (j : ι) :
    d'.thief j = d.thief j ∨ d'.thief j = .stealTop ∨ d'.thief j = .idle := by
  have hset : ∀ {e : State ι T} {i : ι} {pc : ThiefPc}, e.thief = (d.setThief i pc).thief →
      pc = .stealTop ∨ pc = .idle →
      e.thief j = d.thief j ∨ e.thief j = .stealTop ∨ e.thief j = .idle := by
    intro e i pc he hpc
    rw [he]
    by_cases hji : j = i
    · rw [hji, setThief_self]
      exact .inr hpc
    · exact .inl (setThief_of_ne d pc hji)
  cases l with
  | owner => exact absurd rfl ho
  | thief i => exact absurd rfl (ht i)
  | push | pushed | pop =>
    simp only [step] at h
    split at h
    · obtain rfl := Option.some.inj h
      exact .inl rfl
    · exact absurd h (by simp)
  | popped r =>
    simp only [step] at h
    split at h
    all_goals first
      | (split_ifs at h; obtain rfl := Option.some.inj h; exact .inl rfl)
      | exact absurd h (by simp)
  | steal i =>
    simp only [step] at h
    split at h
    · obtain rfl := Option.some.inj h
      exact hset rfl (.inl rfl)
    · exact absurd h (by simp)
  | stolen i r =>
    simp only [step] at h
    split at h
    all_goals first
      | (split_ifs at h; obtain rfl := Option.some.inj h; exact hset rfl (.inr rfl))
      | exact absurd h (by simp)

namespace InOrder

omit [DecidableEq ι] [DecidableEq T] in
/-- **Every load is late enough.** -/
theorem ordered (h : InOrder s) (l : RelaxedLabel ι T) : Ordered s l := by
  cases l with
  | arrive k => trivial
  | run l =>
    cases l with
    | thief i =>
      have hl := h.loaded i
      show Timely s (s.deque.thief i)
      cases hpc : s.deque.thief i with
      | stealSlot t buf =>
        rw [hpc] at hl
        exact hl
      | _ => trivial
    | _ => trivial

omit [DecidableEq T] in
/-- What is left to show of a step of thief `i`. -/
theorem set (h : InOrder s) (hl' : Lawful s') (htop : s.deque.top ≤ s'.deque.top)
    (hlb : s'.deque.lb = s.deque.lb) (hpushed : s'.pushed = s.pushed)
    (hflight : s'.flight = s.flight) (harrived : s'.arrived = s.arrived)
    (hne : ∀ j, j ≠ i → s'.deque.thief j = s.deque.thief j) (hi : Loaded s' (s'.deque.thief i)) :
    InOrder s' := by
  refine ⟨hl', ?_, fun j => ?_⟩
  · rw [hlb, hpushed, hflight, harrived]
    exact h.behind.imp fun _ _ hb => hb.top_mono htop
  · by_cases hji : j = i
    · rw [hji]
      exact hi
    · rw [hne j hji]
      refine (h.loaded j).keep (h.lawful.inv.thief j) htop (by rw [harrived]) fun t r _ hr hfl => ?_
      rw [hpushed, hflight]
      exact ⟨hr, hfl⟩

omit [DecidableEq T] in
theorem stepThief (h : InOrder s) (hl' : Lawful s') (hst : s.stepThief i = some s') :
    InOrder s' := by
  have hset : ∀ {pc : ThiefPc}, Lawful (s.setThief i pc) → Loaded (s.setThief i pc) pc →
      InOrder (s.setThief i pc) := by
    intro pc hl hpc
    refine h.set hl le_rfl rfl rfl rfl rfl (fun j hj => setThief_of_ne s.deque pc hj) ?_
    show Loaded _ ((s.deque.setThief i pc).thief i)
    rw [setThief_self]
    exact hpc
  have hloaded := h.loaded i
  unfold Relaxed.stepThief at hst
  cases hpc : s.deque.thief i with
  | idle | stealTake _ | stealEmpty | stealLost => simp [hpc] at hst
  | stealTop =>
    simp only [hpc, Option.some.injEq] at hst
    subst hst
    exact hset hl' trivial
  | stealBottom t =>
    simp only [hpc] at hst
    split_ifs at hst with hge
    · obtain rfl := Option.some.inj hst
      exact hset hl' trivial
    · -- memory has a `bottom_` above the index
      obtain rfl := Option.some.inj hst
      refine hset hl' fun htop => ?_
      have htop : s.deque.top = t := htop
      have hnow := h.behind.now
      have hlt : t < s.arrived.bottom := not_le.mp hge
      obtain ⟨r, hr, -⟩ := h.lawful.slot htop.le (hlt.trans_le hnow.bottom_le)
      exact ⟨r, hr, hnow.landed htop.le hlt hr⟩
  | stealBuffer t =>
    simp only [hpc, Option.some.injEq] at hst
    subst hst
    rw [hpc] at hloaded
    exact hset hl' hloaded
  | stealSlot t buf =>
    simp only [hpc, Option.some.injEq] at hst
    subst hst
    exact hset hl' trivial
  | stealCas t ptr =>
    simp only [hpc] at hst
    split_ifs at hst with htop
    · obtain rfl := Option.some.inj hst
      refine h.set hl' (i := i) ?_ rfl rfl rfl rfl
        (fun j hj => setThief_of_ne s.deque (.stealTake ptr) hj) ?_
      · show s.deque.top ≤ t + 1
        omega
      · show Loaded _ ((s.deque.setThief i (.stealTake ptr)).thief i)
        rw [setThief_self]
        trivial
    · obtain rfl := Option.some.inj hst
      exact hset hl' trivial

omit [DecidableEq ι] [DecidableEq T] in
theorem stepOwner (h : InOrder s) (hl' : Lawful s') (hst : s.stepOwner = some s') : InOrder s' := by
  have hbehind := h.lawful.behind_owner hl' hst h.behind
  unfold Relaxed.stepOwner at hst
  split_ifs at hst
  obtain ⟨d', hd, rfl⟩ := Option.map_eq_some_iff.mp hst
  obtain ⟨htop, hrec, hfresh⟩ := h.lawful.owner_keeps hd
  refine ⟨hl', hbehind, fun j => ?_⟩
  show Loaded _ (d'.thief j)
  rw [(stepOwner_frame hd).2.1]
  refine (h.loaded j).keep (h.lawful.inv.thief j) htop le_rfl fun t r hlt hr hfl => ⟨?_, ?_⟩
  · exact (hrec t hlt.ne).trans hr
  · exact fun hmem => (List.mem_append.mp hmem).elim hfl (hfresh t r hr)

theorem call (h : InOrder s) {l : Label ι T} (hl' : Lawful { s with deque := d' })
    (hst : step s.deque l = some d') (ho : l ≠ .owner) (ht : ∀ i, l ≠ .thief i) :
    InOrder { s with deque := d' } := by
  have hc := step_called hst ho ht
  refine ⟨hl', ?_, fun j => ?_⟩
  · show stores.Along (Behind d'.top d'.lb s.pushed) s.flight s.arrived
    rw [hc.lb]
    exact h.behind.imp fun _ _ hb => hb.top_mono hc.keeps.top
  · show Loaded _ (d'.thief j)
    rcases step_call_thief hst ho ht j with he | he | he
    · rw [he]
      exact (h.loaded j).keep (h.lawful.inv.thief j) hc.keeps.top le_rfl fun t r _ hr hfl =>
        ⟨hr, hfl⟩
    · rw [he]
      trivial
    · rw [he]
      trivial

omit [DecidableEq ι] [DecidableEq T] in
/-- The oldest store in flight arrives. -/
theorem arrive (h : InOrder s) {arrived : Arrived}
    (ha : stores.arrive s.flight s.arrived 0 = some (flight, arrived)) :
    InOrder { s with flight, arrived } := by
  have hl' := h.lawful.arrive ha
  obtain ⟨x, hflight, rfl⟩ : ∃ x, s.flight = x :: flight ∧
      arrived = stores.perform x s.arrived := by
    cases hf : s.flight with
    | nil => simp [Stores.arrive, hf] at ha
    | cons x ys =>
      simp only [Stores.arrive, hf, List.getElem?_cons_zero, Option.bind_some, List.take_zero,
        List.not_mem_nil, false_implies, implies_true, and_true, if_true, List.eraseIdx_zero,
        List.tail_cons, Option.some.injEq, Prod.mk.injEq] at ha
      exact ⟨x, by rw [ha.1], ha.2.symm⟩
  have hmono : s.arrived.buffer ≤ (stores.perform x s.arrived).buffer := by
    cases x with
    | bottom | slot => exact le_rfl
    | buffer buf =>
      refine h.lawful.settled.now.buffers buf ?_
      rw [hflight]
      exact List.mem_cons_self
  have hbehind := h.behind
  rw [hflight] at hbehind
  refine ⟨hl', hbehind.2, fun j => ?_⟩
  refine (h.loaded j).keep (h.lawful.inv.thief j) le_rfl hmono fun t r _ hr hfl => ⟨hr, ?_⟩
  rw [hflight] at hfl
  exact fun hmem => hfl (List.mem_cons_of_mem _ hmem)

theorem step (h : InOrder s) (hok : InProgramOrder s l) (hst : stepRelaxed s l = some s') :
    InOrder s' := by
  have hl' := stepRelaxed_lawful h.lawful (h.ordered l) hst
  cases l with
  | arrive k =>
    obtain rfl : k = 0 := hok
    obtain ⟨⟨flight, arrived⟩, ha, rfl⟩ := Option.map_eq_some_iff.mp hst
    exact h.arrive ha
  | run l =>
    cases l with
    | owner => exact h.stepOwner hl' hst
    | thief i => exact h.stepThief hl' hst
    | push | pushed | pop | popped | steal | stolen =>
      obtain ⟨d', hd, rfl⟩ := Option.map_eq_some_iff.mp hst
      exact h.call hl' hd (by simp) (by simp)

end InOrder

theorem init_inOrder (h : (relaxed ι T c).init s) : InOrder s := by
  have hl := init_lawful h
  obtain ⟨deque, arrived, flight, pushed⟩ := s
  obtain ⟨hc, rfl, rfl, rfl⟩ := h
  refine ⟨hl, ⟨hl.bottom_le, fun _ _ hr => absurd hr (by simp)⟩, fun i => ?_⟩
  unfold construct at hc
  split at hc
  · exact absurd hc (by simp)
  · obtain ⟨buf, -, rfl⟩ := Option.map_eq_some_iff.mp hc
    trivial

theorem reachable_inOrder (h : (relaxed ι T c).ReachableUnder InProgramOrder s) : InOrder s :=
  h.invariant (fun _ => init_inOrder) fun _ _ _ _ hok hst hs => hs.step hok hst

/-- **Where stores arrive in program order the deque as written is correct**: every load of a slot
is late enough, the pointer a `steal` is about to win is the box of its index, and the history is
linearizable. -/
theorem in_order_linearizable {tr : List (RelaxedLabel ι T)}
    (h : (relaxed ι T c).Run InProgramOrder tr s) :
    (∀ l, Ordered s l) ∧ StealsItsItem s ∧ Linearizable spec (tr.filterMap relaxedEvent) := by
  have hs := reachable_inOrder ⟨tr, h⟩
  refine ⟨hs.ordered, fun i t ptr hpc htop => ?_, linearizable_of_simulation (fun _ => init_object)
    (fun _ _ _ hs _ hst => (reachable_inOrder hs).lawful.linearize hst) h⟩
  subst htop
  obtain ⟨hlb, hptr⟩ := (hs.lawful.thief hpc).2 rfl
  obtain ⟨r, hr, hslot⟩ := hs.lawful.slot le_rfl hlb
  exact ⟨r, hr, hptr.trans hslot⟩

/-- A `steal` that sees the item of a `push` as soon as its stores have arrived. -/
theorem in_order_linearizable_steal : ∃ s : Relaxed Unit ℕ,
    s.deque.thief () = .stealCas 0 (some 0) ∧ s.deque.top = 0 ∧ StealsItsItem s := by
  let d₀ : State Unit ℕ := (construct 256).get (by decide +kernel)
  let s₀ : Relaxed Unit ℕ := ⟨d₀, ⟨0, 0, fun _ _ => none⟩, [], fun _ => none⟩
  have h₀ : construct 256 = some d₀ := (Option.some_get _).symm
  let run := pushLabels 5 5 ++ [.arrive 0, .arrive 0] ++ stealLabels
  let s := ((relaxed Unit ℕ 256).execUnder InProgramOrder s₀ run).get (by decide +kernel)
  have hs : (relaxed Unit ℕ 256).Run InProgramOrder run s :=
    ⟨s₀, ⟨h₀, rfl, rfl, rfl⟩, Machine.execUnder_path (Option.some_get _).symm⟩
  exact ⟨s, by decide +kernel, by decide +kernel, (in_order_linearizable hs).2.1⟩

end Wss.ChaseLev
