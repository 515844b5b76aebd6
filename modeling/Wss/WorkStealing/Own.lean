import Wss.WorkStealing.Account

/-!
# The own deques of a worker

A worker refills its deques from an injector only when it has found all three of them empty, and
nobody else pushes to them. So they never hold more than the rest of one batch (`Own.batch`), and
from the end of its own phase until it runs a job again they hold nothing (`Own.emptied`), for a
worker that has left its loop too.

Results:
* `Move.own`, `reachable_own`: this is so in every reachable state.
-/

namespace Wss.WorkStealing

open Wss.Lib ChaseLev ChaseLev.Atomic

variable {N : ℕ} {ω : Type}

/-! ## The jobs a deque has for its owner -/

/-- The jobs in a deque, and the one its owner's `pop` has in its hands. -/
def stock (a : Deque (Fin N) ℕ) : ℕ := a.items.length + ownerMass (fun _ => 1) a.owner

section Stock

variable {a a' : Deque (Fin N) ℕ} {i : Fin N} {r : Option ℕ}

theorem stock_owner (h : Step a .pop a' ∨ Step a .owner a') : stock a' = stock a := by
  rcases h with h | h
  · cases h with
    | pop hpc => simp only [stock, hpc, ownerMass]
  · cases h with
    | ownerStutter => rfl
    | linPush hpc =>
      simp only [stock, hpc, ownerMass, List.length_append, List.length_singleton]
    | linPop hpc hl | linPopLast hpc hl =>
      simp only [stock, hpc, hl, ownerMass, List.length_append, List.length_singleton,
        List.length_nil]
    | linPopNone hpc => simp only [stock, hpc, ownerMass]

theorem stock_popped (h : Step a (.popped r) a') :
    stock a = stock a' + resultMass (fun _ => 1) r := by
  obtain ⟨hpc, rfl⟩ := h.popped_frame
  cases r <;> simp only [stock, hpc, ownerMass, resultMass]

/-- A thief adds nothing. -/
theorem stock_thief (h : Step a (.steal i) a' ∨ Step a (.thief i) a') : stock a' ≤ stock a := by
  rcases h with h | h
  · cases h
    exact le_rfl
  · cases h with
    | linSteal _ hl =>
      simp only [stock, hl, List.length_cons, Deque.setThief]
      omega
    | _ => exact le_rfl

theorem stock_stolen (h : Step a (.stolen i r) a') : stock a' = stock a := by
  rw [h.stolen_frame]
  rfl

end Stock

/-- What worker `w` knows of its own deques at each position. -/
def Emptied (s : State N ω) (w : Fin N) : WorkerPc N → Prop
  | .own _ ps => ∀ p, p ∉ ps ∨ (s.adeque w p).owner = .popped none → (s.adeque w p).items = []
  | .inject _ _ | .steal _ _ | .loadFlag _ | .loadPending _ | .wait _ | .exited =>
    ∀ p, (s.adeque w p).items = []
  | .current | .body _ _ | .uncount _ | .ring => True

/-- The own deques of the workers. -/
structure Own (s : State N ω) : Prop where
  batch : ∀ w, ∑ p, stock (s.adeque w p) ≤ kInjectorBatchSize - 1
  emptied : ∀ w, Emptied s w (s.worker w)

variable {s s' : State N ω} {w v : Fin N} {p : Priority} {pc : WorkerPc N}

/-- A step on one deque, seen from all of them. -/
theorem forall_setDeque {r : Deque (Fin N) ℕ → Deque (Fin N) ℕ → Prop} (hrefl : ∀ a, r a a)
    {d : ChaseLev.State (Fin N) ℕ} (h : r (s.adeque v p) (toAtomic d)) (u : Fin N) (q : Priority) :
    r (s.adeque u q) ((s.setDeque w v p d).adeque u q) := by
  by_cases huq : u = v ∧ q = p
  · obtain ⟨rfl, rfl⟩ := huq
    rwa [adeque_setDeque]
  · rw [adeque_setDeque_of_ne s w d huq]
    exact hrefl _

theorem stock_setDeque_le {d : ChaseLev.State (Fin N) ℕ}
    (h : stock (toAtomic d) ≤ stock (s.adeque v p)) (u : Fin N) (q : Priority) :
    stock ((s.setDeque w v p d).adeque u q) ≤ stock (s.adeque u q) :=
  forall_setDeque (r := fun a a' => stock a' ≤ stock a) (fun _ => le_rfl) h u q

/-- What a thread may do to the deques of worker `w`, seen from it. -/
structure Kept (w : Fin N) (s s' : State N ω) : Prop where
  stock : ∀ p, stock (s'.adeque w p) ≤ stock (s.adeque w p)
  owner : ∀ p, (s'.adeque w p).owner = (s.adeque w p).owner
  items : ∀ p, (s.adeque w p).items = [] → (s'.adeque w p).items = []

theorem Kept.of_eq (hd : s'.deque = s.deque) : Kept w s s' := by
  have ha : s'.adeque = s.adeque := by
    funext v p
    simp only [State.adeque, hd]
  exact ⟨fun p => by rw [ha], fun p => by rw [ha], fun p h => by rwa [ha]⟩

theorem Kept.emptied (hk : Kept w s s') (he : Emptied s w pc) : Emptied s' w pc := by
  cases pc with
  | own gen ps =>
    intro p hp
    rw [hk.owner p] at hp
    exact hk.items p (he p hp)
  | inject | steal | loadFlag | loadPending | wait | exited => exact fun p => hk.items p (he p)
  | _ => trivial

/-- A step of worker `w`. -/
theorem Own.step (ho : Own s) (hw : s'.worker = Function.update s.worker w pc)
    (hkept : ∀ u, u ≠ w → Kept u s s')
    (hbatch : ∑ p, stock (s'.adeque w p) ≤ kInjectorBatchSize - 1) (hself : Emptied s' w pc) :
    Own s' where
  batch u := by
    by_cases hu : u = w
    · rwa [hu]
    · exact (Finset.sum_le_sum fun p _ => (hkept u hu).stock p).trans (ho.batch u)
  emptied u := by
    by_cases hu : u = w
    · rwa [hu, hw, Function.update_self]
    · rw [hw, Function.update_of_ne hu]
      exact (hkept u hu).emptied (ho.emptied u)

/-- A step with no deque. -/
theorem Own.goto (ho : Own s) (hd : s'.deque = s.deque)
    (hw : s'.worker = Function.update s.worker w pc)
    (hself : Emptied s w (s.worker w) → Emptied s w pc) : Own s' :=
  ho.step hw (fun _ _ => .of_eq hd)
    ((Finset.sum_le_sum fun p _ => (Kept.of_eq hd).stock p).trans (ho.batch w))
    ((Kept.of_eq hd).emptied (hself (ho.emptied w)))

theorem Own.congr (ho : Own s) (hd : s'.deque = s.deque) (hw : s'.worker = s.worker) : Own s' where
  batch u := (Finset.sum_le_sum fun p _ => (Kept.of_eq hd).stock p).trans (ho.batch u)
  emptied u := by
    rw [hw]
    exact (Kept.of_eq hd).emptied (ho.emptied u)

/-- A step of worker `w` with its own deque. -/
theorem Own.owner (ho : Own s) {d : ChaseLev.State (Fin N) ℕ}
    (hd : s'.deque = (s.setDeque w w p d).deque) (hw : s'.worker = Function.update s.worker w pc)
    (hstock : stock (toAtomic d) ≤ stock (s.adeque w p))
    (hself : Emptied (s.setDeque w w p d) w pc) : Own s' := by
  have hk : ∀ u, Kept u (s.setDeque w w p d) s' := fun _ => .of_eq hd
  have hle : ∀ q, stock (s'.adeque w q) ≤ stock (s.adeque w q) := fun q =>
    ((hk w).stock q).trans (stock_setDeque_le hstock w q)
  refine ho.step hw (fun u hu => ?_) ((Finset.sum_le_sum fun q _ => hle q).trans (ho.batch w))
    ((hk w).emptied hself)
  have hsame : ∀ q, (s.setDeque w w p d).adeque u q = s.adeque u q := fun q =>
    adeque_setDeque_of_ne s w d fun h => hu h.1
  exact ⟨fun q => hsame q ▸ (hk u).stock q, fun q => hsame q ▸ (hk u).owner q,
    fun q h => (hk u).items q (by rwa [hsame q])⟩

/-- A step of worker `w` on the deque of another. -/
theorem Own.thief (ho : Own s) {d : ChaseLev.State (Fin N) ℕ}
    (hd : s'.deque = (s.setDeque w v p d).deque) (hw : s'.worker = Function.update s.worker w pc)
    (hstock : stock (toAtomic d) ≤ stock (s.adeque v p))
    (howner : (toAtomic d).owner = (s.adeque v p).owner)
    (hitems : (s.adeque v p).items = [] → (toAtomic d).items = [])
    (hself : Emptied s w (s.worker w) → Emptied s w pc) : Own s' := by
  have hk : ∀ u, Kept u s s' := fun u => by
    have h := Kept.of_eq (w := u) hd
    exact
      { stock := fun q => (h.stock q).trans (stock_setDeque_le hstock u q)
        owner := fun q => (h.owner q).trans
          (forall_setDeque (r := fun a a' => a'.owner = a.owner) (fun _ => rfl) howner u q)
        items := fun q hnil => h.items q
          (forall_setDeque (r := fun a a' => a.items = [] → a'.items = []) (fun _ => id) hitems u q
            hnil) }
  exact ho.step hw (fun u _ => hk u)
    ((Finset.sum_le_sum fun q _ => (hk w).stock q).trans (ho.batch w))
    ((hk w).emptied (hself (ho.emptied w)))

section Moves

variable [DecidableEq ω] {l : Label N ω}

/-- **Every step keeps the own deques within a batch, and empty where they were found so.** -/
theorem Move.own (hl : Linked s) (ho : Own s) (h : Move s l s') : Own s' := by
  cases h with
  | client | shutdown | store | controlRing | join => exact ho.congr rfl rfl
  | @clientStep c call =>
    obtain ⟨h1, -, h3⟩ := stepSubmit_frame s call
    exact ho.congr h1 h3
  | @nestedStep w job call hw =>
    obtain ⟨h1, -, h3⟩ := stepSubmit_frame s call
    exact ho.goto h1 (congrArg (Function.update · w _) h3) fun _ => trivial
  | nested | finish | uncount | ring | wake => exact ho.goto rfl rfl fun _ => trivial
  | @current w hw =>
    -- no `pop` of an earlier search is left
    have hidle := (hl.calm (w := w) (by simp [hw]) (by simp [hw])).1
    refine ho.goto rfl rfl fun _ p hp => ?_
    rcases hp with hp | hp
    · exact absurd (mem_kPriorityOrder p) hp
    · exact absurd ((hidle p).symm.trans hp) (by simp)
  | ownDone hw =>
    refine ho.goto rfl rfl fun he p => ?_
    rw [hw] at he
    exact he p (.inl List.not_mem_nil)
  | injectDone hw | injectNone hw | stealDone hw | flag hw | noFlag hw | noPending hw
  | pending hw =>
    exact ho.goto rfl rfl fun he => by rw [hw] at he; exact he
  | @pop w gen p ps d hw hi hst =>
    refine ho.owner rfl (Function.update_eq_self w s.worker).symm (stock_owner hst).le ?_
    have he := ho.emptied w
    rw [hw] at he ⊢
    intro q hq
    by_cases hqp : q = p
    · subst hqp
      rw [adeque_setDeque] at hq ⊢
      rcases hq with hq | hq
      · exact absurd List.mem_cons_self hq
      · exact Step.popped_none hst (fun h' => he q (.inr h')) hq
    · have hne : ¬ (w = w ∧ q = p) := by simp [hqp]
      rw [adeque_setDeque_of_ne s w d hne] at hq ⊢
      exact he q hq
  | @popNone w gen p ps d hw hi hst =>
    have hle : stock (toAtomic d) ≤ stock (s.adeque w p) := Nat.le.intro (stock_popped hst).symm
    refine ho.owner rfl rfl hle ?_
    obtain ⟨hpopped, ha⟩ := hst.popped_frame
    have he := ho.emptied w
    rw [hw] at he
    intro q hq
    by_cases hqp : q = p
    · subst hqp
      rw [adeque_setDeque, ha]
      exact he q (.inr hpopped)
    · have hne : ¬ (w = w ∧ q = p) := by simp [hqp]
      rw [adeque_setDeque_of_ne s w d hne] at hq ⊢
      refine he q (hq.imp_left fun h hmem => ?_)
      exact (List.mem_cons.mp hmem).elim hqp h
  | popJob hw hi hst =>
    exact ho.owner rfl rfl (Nat.le.intro (stock_popped hst).symm) trivial
  | @injectJob w gen p ps d job moved queue hw hi hq hlen ha =>
    -- the batch comes into empty deques
    have he := ho.emptied w
    rw [hw] at he
    have hidle := (hl.calm (w := w) (by simp [hw]) (by simp [hw])).1
    have hstock : ∀ q, stock (s.adeque w q) = 0 := fun q => by
      rw [stock, he q, hidle q]
      rfl
    have hself : stock (toAtomic d) = moved.length := by
      rw [ha, stock, he p, hidle p, List.nil_append]
      rfl
    have hother : ∀ q, q ≠ p →
        stock (((s.setInjector p queue).setDeque w w p d).adeque w q) = 0 := fun q hqp => by
      rw [adeque_setDeque_of_ne _ w d (by simp [hqp])]
      exact hstock q
    have hw : (((s.setInjector p queue).setDeque w w p d).start w job).worker =
        Function.update s.worker w (.body job none) := rfl
    refine ho.step hw (fun u hu => ?_) ?_ trivial
    · have hsame : ∀ q, ((s.setInjector p queue).setDeque w w p d).adeque u q = s.adeque u q :=
        fun q => adeque_setDeque_of_ne _ w d fun h => hu h.1
      exact ⟨fun q => (congrArg stock (hsame q)).le, fun q => congrArg Deque.owner (hsame q),
        fun q h => (congrArg Deque.items (hsame q)).trans h⟩
    · have hsum : ∑ q, stock (((s.setInjector p queue).setDeque w w p d).adeque w q) =
          moved.length := by
        rw [Finset.sum_eq_single p (fun q _ hqp => hother q hqp) (by simp), adeque_setDeque, hself]
      exact hsum.le.trans hlen
  | @steal w gen p v ts d hw hi hst =>
    refine ho.thief rfl (Function.update_eq_self w s.worker).symm (stock_thief hst)
      (Step.thief_frame hst).1 (fun hnil => ?_) id
    refine List.eq_nil_iff_forall_not_mem.mpr fun x hx => ?_
    have hmem : x ∈ (s.adeque v p).items := by
      rcases hst with h | h <;> exact h.shrinks (hl.not_pushing v p) hx
    rw [hnil] at hmem
    exact List.not_mem_nil hmem
  | @stealNone w gen p v ts d hw hi hst =>
    have ha := hst.stolen_frame
    exact ho.thief rfl rfl (stock_stolen hst).le (by rw [ha]; rfl) (fun h => by rw [ha]; exact h)
      fun he => by rw [hw] at he; exact he
  | @stealJob w gen p v ts d job hw hi hst =>
    have ha := hst.stolen_frame
    exact ho.thief rfl rfl (stock_stolen hst).le (by rw [ha]; rfl) (fun h => by rw [ha]; exact h)
      fun _ => trivial

omit [DecidableEq ω] in
theorem construct_own (h : construct N ω = some s) : Own s := by
  unfold construct at h
  split at h
  · exact absurd h (by simp)
  · obtain ⟨d, hd, rfl⟩ := Option.map_eq_some_iff.mp h
    have hempty : stock (toAtomic d) = 0 := by
      rw [construct_toAtomic hd]
      rfl
    exact ⟨fun w => by simp [State.adeque, hempty], fun _ => trivial⟩

theorem reachable_own (h : (machine N ω).Reachable s) : Own s :=
  h.invariant (fun _ => construct_own) fun _ _ _ hr _ hst ho =>
    have hl := reachable_linked hr.reachable
    (step_move hl hst).own hl ho

end Moves

end Wss.WorkStealing
