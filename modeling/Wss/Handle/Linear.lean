import Wss.Handle.Finished
import Wss.Lib.Linearize

/-!
# A handle is a channel for one result

To its callers a handle is a place for one result: `set` puts it there, `join` waits until it is
there and takes it away, and `is_finished` looks. That is `channel`, and each call visits it once,
at the `emplace`, at the move out of the result, or at the look. `spawn` and `join` of `Wss.Spawn`
take such a visit for the whole call.

Results:
* `Move.run`: every step of the code is one of the channel with the calls in progress, or none.
* `path_holds`: the handle carries what `set` was called with.
* `handle_linearizable`: the calls and returns of every run are those of `channel`, no `join` moves
  out of an empty `optional`, and what the `join`s return is what `set` was called with, once at
  most.
-/

namespace Wss.Handle

open Wss.Lib

variable {α ι : Type}

/-- The calls on a handle and its setter. -/
inductive Op (α : Type)
  | set (result : α)
  | join
  | isFinished

/-- What they return. -/
inductive Res (α : Type)
  | unit
  | result (out : α)
  | finished (finished : Bool)

/-- The place for a result. -/
inductive channelApply : Option α → Op α → Res α → Option α → Prop
  | set {s result} : channelApply s (.set result) .unit (some result)
  | join {out} : channelApply (some out) .join (.result out) none
  | isFinished {s} : channelApply s .isFinished (.finished s.isSome) s

/-- The sequential object, without a result at first. -/
def channel (α : Type) : SeqSpec (Option α) (Op α) (Res α) where
  init := none
  apply := channelApply

deriving instance DecidableEq for Thread

/-! ## The calls in progress -/

/-- The setter's call as one on the channel: it takes effect when the result is in the handle. -/
def SetPc.status : SetPc α → Status (Op α) (Res α)
  | .idle | .returned => .idle
  | .lock result | .emplace result => .called (.set result)
  | .unlock | .notify => .done .unit

/-- A thread's call as one on the channel. -/
def CallerPc.status : CallerPc α → Status (Op α) (Res α)
  | .idle => .idle
  | .join (.unlock out) => .done (.result out)
  | .join .lock | .join .check | .join .wait | .join .waiting | .join .take => .called .join
  | .isFinished (.unlock finished) => .done (.finished finished)
  | .isFinished .lock | .isFinished .check => .called .isFinished

/-- The channel and the calls in progress on it. -/
def view (s : State α ι) : Canonical (Option α) (Thread ι) (Op α) (Res α) where
  value := s.result
  status
    | .setter => s.setter.status
    | .caller i => (s.caller i).status

/-- The calls and returns. -/
def event (s : State α ι) : Label α ι → Option (Event (Thread ι) (Op α) (Res α))
  | .set result => some (.call .setter (.set result))
  | .setter =>
    match s.setter with
    | .notify => some (.ret .setter .unit)
    | .idle | .lock _ | .emplace _ | .unlock | .returned => none
  | .join i => some (.call (.caller i) .join)
  | .isFinished i => some (.call (.caller i) .isFinished)
  | .caller i =>
    match s.caller i with
    | .join (.unlock out) => some (.ret (.caller i) (.result out))
    | .isFinished (.unlock finished) => some (.ret (.caller i) (.finished finished))
    | _ => none
  | .spurious _ => none

/-- The calls and returns of a run. -/
def history [DecidableEq ι] (s : State α ι) (tr : List (Label α ι)) :
    List (Event (Thread ι) (Op α) (Res α)) :=
  (machine α ι).observe (fun s l => (event s l).toList) s tr

variable {s s' s₀ : State α ι} {l : Label α ι} {tr : List (Label α ι)} {i : ι}

section View

variable [DecidableEq ι]

/-- A step of `set`. -/
theorem view_setter (hc : ∀ i, (s'.caller i).status = (s.caller i).status) :
    view s' = { (view s).setStatus .setter s'.setter.status with value := s'.result } := by
  unfold view Canonical.setStatus
  congr 1
  funext t
  cases t with
  | setter => exact (Function.update_self Thread.setter s'.setter.status (view s).status).symm
  | caller i =>
    have hne : Thread.caller i ≠ .setter := by simp
    exact (hc i).trans (Function.update_of_ne hne s'.setter.status (view s).status).symm

/-- A step of a caller. -/
theorem view_caller {pc : CallerPc α} (hs : s'.setter = s.setter)
    (hc : s'.caller = Function.update s.caller i pc) :
    view s' = { (view s).setStatus (.caller i) pc.status with value := s'.result } := by
  unfold view Canonical.setStatus
  rw [hs, hc]
  congr 1
  funext t
  cases t with
  | setter =>
    have hne : Thread.setter ≠ .caller i := by simp
    exact (Function.update_of_ne hne pc.status (view s).status).symm
  | caller j =>
    show (Function.update s.caller i pc j).status =
      Function.update (view s).status (.caller i) pc.status (.caller j)
    rcases eq_or_ne j i with rfl | hne
    · rw [Function.update_self, Function.update_self]
    · have hne' : Thread.caller j ≠ .caller i := fun e => hne (Thread.caller.inj e)
      rw [Function.update_of_ne hne, Function.update_of_ne hne']
      rfl

/-- Nothing happens on the channel. -/
theorem view_same_caller {pc : CallerPc α} (hs : s'.setter = s.setter)
    (hc : s'.caller = Function.update s.caller i pc) (hr : s'.result = s.result)
    (hpc : pc.status = (s.caller i).status) : view s' = view s := by
  rw [view_caller hs hc, hr, hpc]
  have hself : (view s).status (.caller i) = (s.caller i).status := rfl
  unfold Canonical.setStatus
  rw [← hself, Function.update_eq_self]
  rfl

theorem view_same_setter (hs : s'.setter.status = s.setter.status)
    (hc : ∀ i, (s'.caller i).status = (s.caller i).status) (hr : s'.result = s.result) :
    view s' = view s := by
  rw [view_setter hc, hs, hr]
  have hself : (view s).status .setter = s.setter.status := rfl
  unfold Canonical.setStatus
  rw [← hself, Function.update_eq_self]
  rfl

/-- No step on the channel, and no event. -/
theorem stutter (h : view s' = view s) (hev : event s l = none) :
    ∃ as, Canonical.Run (channel α) (view s) as (view s') ∧
      as.filterMap Action.event? = (event s l).toList :=
  ⟨[], by rw [h]; exact .nil, by rw [hev]; rfl⟩

/-- One action on the channel. -/
theorem act {a : Action (Thread ι) (Op α) (Res α)}
    (h : Canonical.Step (channel α) (view s) a (view s')) (hev : a.event? = event s l) :
    ∃ as, Canonical.Run (channel α) (view s) as (view s') ∧
      as.filterMap Action.event? = (event s l).toList := by
  refine ⟨[a], .single h, ?_⟩
  cases he : a.event? with
  | none => simp [he, ← hev]
  | some e => simp [he, ← hev]

/-- One action of `set`. -/
theorem act_setter {a : Action (Thread ι) (Op α) (Res α)}
    (hc : ∀ i, (s'.caller i).status = (s.caller i).status)
    (h : Canonical.Step (channel α) (view s) a
      { (view s).setStatus .setter s'.setter.status with value := s'.result })
    (hev : a.event? = event s l) : ∃ as, Canonical.Run (channel α) (view s) as (view s') ∧
      as.filterMap Action.event? = (event s l).toList :=
  act (by rw [view_setter hc]; exact h) hev

/-- One action of a caller. -/
theorem act_caller {a : Action (Thread ι) (Op α) (Res α)} {pc : CallerPc α}
    (hs : s'.setter = s.setter) (hc : s'.caller = Function.update s.caller i pc)
    (h : Canonical.Step (channel α) (view s) a
      { (view s).setStatus (.caller i) pc.status with value := s'.result })
    (hev : a.event? = event s l) : ∃ as, Canonical.Run (channel α) (view s) as (view s') ∧
      as.filterMap Action.event? = (event s l).toList :=
  act (by rw [view_caller hs hc]; exact h) hev

/-- **Every step is one of the channel with the calls in progress, or none.** -/
theorem Move.run (h : Move s l s') : ∃ as, Canonical.Run (channel α) (view s) as (view s') ∧
    as.filterMap Action.event? = (event s l).toList := by
  have hsetter : ∀ {pc}, s.setter = pc → (view s).status .setter = pc.status := fun hpc => by
    rw [← hpc]
    rfl
  have hcaller : ∀ {i pc}, s.caller i = pc → (view s).status (.caller i) = pc.status :=
    fun hpc => by
      rw [← hpc]
      rfl
  cases h with
  | set hpc => exact act_setter (fun _ => rfl) (.call (hsetter hpc)) rfl
  | emplace hpc =>
    exact act_setter (fun _ => rfl) (.point (hsetter hpc) channelApply.set)
      (by rw [event, hpc]; rfl)
  | setLock hpc | setUnlock hpc =>
    exact stutter (view_same_setter (by rw [hpc]; rfl) (fun _ => rfl) rfl) (by rw [event, hpc])
  | notify hpc =>
    refine act_setter (fun i => ?_) (.ret (hsetter hpc)) (by rw [event, hpc]; rfl)
    show (s.notifyAll.caller i).status = (s.caller i).status
    rcases notifyAll_caller s i with ⟨hw, hl⟩ | ⟨-, hsame⟩
    · rw [hl, hw]
      rfl
    · rw [hsame]
  | join hpc | isFinished hpc => exact act_caller rfl rfl (.call (hcaller hpc)) rfl
  | lock hpc =>
    rcases hpc with ⟨hpc, rfl⟩ | ⟨hpc, rfl⟩ <;>
      exact stutter (view_same_caller rfl rfl rfl (by rw [hpc]; rfl)) (by rw [event, hpc])
  | unlock hpc =>
    rcases hpc with ⟨_, hpc⟩ | ⟨_, hpc⟩ <;>
      exact act_caller rfl rfl (.ret (hcaller hpc)) (by rw [event, hpc]; rfl)
  | there hpc | notThere hpc | wait hpc =>
    exact stutter (view_same_caller rfl rfl rfl (by rw [hpc]; rfl)) (by rw [event, hpc])
  | @take i out hpc hr =>
    refine act_caller (a := .point (.caller i) .join (.result out)) rfl rfl
      (.point (hcaller hpc) ?_) (by rw [event, hpc]; rfl)
    show channelApply s.result .join (.result out) none
    rw [hr]
    exact .join
  | poll hpc =>
    exact act_caller rfl rfl (.point (hcaller hpc) channelApply.isFinished)
      (by rw [event, hpc]; rfl)
  | spurious hpc => exact stutter (view_same_caller rfl rfl rfl (by rw [hpc]; rfl)) rfl

end View

/-! ## What is in the channel -/

/-- What `set` is called with. -/
def given : Label α ι → Option α
  | .set result => some result
  | .setter | .join _ | .isFinished _ | .caller _ | .spurious _ => none

/-- A result on its way from `set` into the handle and out of it. -/
def State.Carries (s : State α ι) (result : α) : Prop :=
  s.setter = .lock result ∨ s.setter = .emplace result ∨ s.result = some result ∨
    ∃ i, s.caller i = .join (.unlock result)

/-- What the handle carries was given to `set`, and a `join` about to take it finds it there. -/
structure Holds (tr : List (Label α ι)) (s : State α ι) : Prop where
  mutex : Exclusive s
  take : ∀ i, s.caller i = .join .take → s.result ≠ none
  unset : s.setter = .idle → tr.filterMap given = []
  once : (tr.filterMap given).length ≤ 1
  carried : ∀ result, s.Carries result → result ∈ tr.filterMap given

section Runs

variable [DecidableEq ι]

/-- A step that leaves `set` and the result alone. -/
theorem Holds.caller {pc : CallerPc α} (h : Holds tr s) (hm : Exclusive s')
    (hs : s'.setter = s.setter) (hc : s'.caller = Function.update s.caller i pc)
    (hr : s'.result = s.result) (htake : pc = .join .take → s.result ≠ none)
    (hpc : ∀ out, pc ≠ .join (.unlock out)) (hl : given l = none) : Holds (tr ++ [l]) s' := by
  have hgiven : (tr ++ [l]).filterMap given = tr.filterMap given := by
    rw [List.filterMap_append]
    simp [hl]
  have hcases : ∀ {j pc'}, s'.caller j = pc' → pc' = pc ∨ s.caller j = pc' := by
    intro j pc' hj
    rw [hc] at hj
    rcases eq_or_ne j i with rfl | hne
    · rw [Function.update_self] at hj
      exact .inl hj.symm
    · rw [Function.update_of_ne hne] at hj
      exact .inr hj
  refine ⟨hm, fun j hj => ?_, ?_, ?_, fun result hres => ?_⟩
  · rw [hr]
    rcases hcases hj with he | hold
    · exact htake he.symm
    · exact h.take j hold
  · rw [hs, hgiven]
    exact h.unset
  · rw [hgiven]
    exact h.once
  · rw [hgiven]
    unfold State.Carries at hres
    rw [hs, hr] at hres
    refine h.carried result ?_
    rcases hres with hres | hres | hres | ⟨j, hj⟩
    · exact .inl hres
    · exact .inr (.inl hres)
    · exact .inr (.inr (.inl hres))
    · rcases hcases hj with he | hold
      · exact absurd he.symm (hpc result)
      · exact .inr (.inr (.inr ⟨j, hold⟩))

/-- **Every step keeps what the handle carries.** -/
theorem Move.holds (h : Move s l s') (hh : Holds tr s) : Holds (tr ++ [l]) s' := by
  have hm := h.exclusive hh.mutex
  have hgiven : given l = none → (tr ++ [l]).filterMap given = tr.filterMap given := fun hl => by
    rw [List.filterMap_append]
    simp [hl]
  cases h with
  | @set result hpc =>
    have hnil := hh.unset hpc
    have hnew : (tr ++ [Label.set result]).filterMap given = [result] := by
      rw [List.filterMap_append, hnil]
      rfl
    refine ⟨hm, hh.take, (by simp), by rw [hnew]; exact Nat.le_refl 1, fun out hout => ?_⟩
    rw [hnew]
    -- nothing was carried before
    have hnone : ¬ s.Carries out := fun hc => by
      have hmem := hh.carried out hc
      rw [hnil] at hmem
      exact absurd hmem List.not_mem_nil
    rcases hout with hout | hout | hout | hout
    · exact List.mem_singleton.mpr (SetPc.lock.inj hout).symm
    · exact absurd hout (by simp)
    · exact absurd (.inr (.inr (.inl hout))) hnone
    · exact absurd (.inr (.inr (.inr hout))) hnone
  | @setLock result hpc =>
    refine ⟨hm, hh.take, (by simp), by rw [hgiven rfl]; exact hh.once, fun out hout => ?_⟩
    rw [hgiven rfl]
    rcases hout with hout | hout | hout | hout
    · exact absurd hout (by simp)
    · obtain rfl := SetPc.emplace.inj hout
      exact hh.carried _ (.inl hpc)
    · exact hh.carried _ (.inr (.inr (.inl hout)))
    · exact hh.carried _ (.inr (.inr (.inr hout)))
  | @emplace result hpc =>
    refine ⟨hm, (by simp), (by simp), by rw [hgiven rfl]; exact hh.once, fun out hout => ?_⟩
    rw [hgiven rfl]
    rcases hout with hout | hout | hout | hout
    · exact absurd hout (by simp)
    · exact absurd hout (by simp)
    · obtain rfl := Option.some.inj hout
      exact hh.carried _ (.inr (.inl hpc))
    · exact hh.carried _ (.inr (.inr (.inr hout)))
  | setUnlock hpc =>
    refine ⟨hm, hh.take, (by simp), by rw [hgiven rfl]; exact hh.once, fun out hout => ?_⟩
    rw [hgiven rfl]
    exact hh.carried out (hout.imp (by simp) (Or.imp_left (by simp)))
  | notify hpc =>
    have hback : ∀ {j pc}, s.notifyAll.caller j = pc → pc ≠ .join .lock → s.caller j = pc := by
      intro j pc hj hne
      rcases notifyAll_caller s j with ⟨-, hl⟩ | ⟨-, hsame⟩
      · exact absurd (hj.symm.trans hl) hne
      · exact hsame.symm.trans hj
    refine ⟨hm, fun j hj => hh.take j (hback hj (by simp)), (by simp),
      by rw [hgiven rfl]; exact hh.once,
      fun out hout => ?_⟩
    rw [hgiven rfl]
    rcases hout with hout | hout | hout | ⟨j, hj⟩
    · exact absurd hout (by simp)
    · exact absurd hout (by simp)
    · exact hh.carried _ (.inr (.inr (.inl hout)))
    · exact hh.carried _ (.inr (.inr (.inr ⟨j, hback hj (by simp)⟩)))
  | join | isFinished | notThere | wait | poll | spurious =>
    exact hh.caller hm rfl rfl rfl (by simp) (by simp) rfl
  | lock hpc =>
    rcases hpc with ⟨-, rfl⟩ | ⟨-, rfl⟩ <;> exact hh.caller hm rfl rfl rfl (by simp) (by simp) rfl
  | unlock => exact hh.caller hm rfl rfl rfl (by simp) (by simp) rfl
  | there hpc hr =>
    refine hh.caller hm rfl rfl rfl (fun _ hnone => ?_) (by simp) rfl
    rw [hnone] at hr
    exact absurd hr Bool.false_ne_true
  | @take i out hpc hr =>
    have hin : s.inside (.caller i) = true := by
      rw [State.inside, hpc]
      rfl
    have hcases : ∀ {j pc}, (s.setCaller i (.join (.unlock out))).caller j = pc →
        j = i ∧ pc = .join (.unlock out) ∨ j ≠ i ∧ s.caller j = pc := by
      intro j pc hj
      rcases eq_or_ne j i with rfl | hne
      · exact .inl ⟨rfl, hj.symm.trans (Function.update_self _ _ _)⟩
      · exact .inr ⟨hne, (Function.update_of_ne hne _ _).symm.trans hj⟩
    refine ⟨hm, fun j hj => ?_, ?_, by rw [hgiven rfl]; exact hh.once, fun result hres => ?_⟩
    · rcases hcases hj with ⟨-, he⟩ | ⟨hne, hold⟩
      · exact absurd he (by simp)
      · -- who is about to take has the mutex
        have hin' : s.inside (.caller j) = true := by
          rw [State.inside, hold]
          rfl
        exact absurd (Thread.caller.inj (hh.mutex.eq hin' hin)) hne
    · rw [hgiven rfl]
      exact hh.unset
    · rw [hgiven rfl]
      rcases hres with hres | hres | hres | ⟨j, hj⟩
      · exact hh.carried _ (.inl hres)
      · exact hh.carried _ (.inr (.inl hres))
      · exact absurd hres (Option.some_ne_none _).symm
      · rcases hcases hj with ⟨-, he⟩ | ⟨-, hold⟩
        · obtain rfl := JoinPc.unlock.inj (CallerPc.join.inj he)
          exact hh.carried _ (.inr (.inr (.inl hr)))
        · exact hh.carried _ (.inr (.inr (.inr ⟨j, hold⟩)))

/-- **The handle carries what `set` was called with, along every run.** -/
theorem path_holds (h₀ : (machine α ι).init s₀) (h : (machine α ι).Path Machine.Free s₀ tr s) :
    Holds tr s := by
  induction h with
  | nil =>
    obtain rfl : s₀ = newHandlePair α ι := h₀
    refine ⟨(reachable_coherent ⟨[], _, rfl, .nil⟩).mutex, nofun, fun _ => rfl, Nat.zero_le _, ?_⟩
    rintro result (hres | hres | hres | ⟨i, hres⟩) <;> exact absurd hres nofun
  | snoc _ _ hst ih => exact (step_move hst).holds ih

/-- **A handle is a linearizable channel for one result.** For one call of `set` and any callers of
`join` and `is_finished`, in every run: its calls and returns are those of `channel`, where each
call takes effect at one moment between the two; a `join` that takes the result finds one there, one
takes it at most, and what it returns is what `set` was called with. -/
theorem handle_linearizable (h₀ : (machine α ι).init s₀)
    (h : (machine α ι).Path Machine.Free s₀ tr s) :
    Linearizable (channel α) (history s₀ tr) ∧
      (∀ i, s.caller i = .join .take → s.result ≠ none) ∧ (takings s₀ tr).length ≤ 1 ∧
      ∀ i out, s.caller i = .join (.unlock out) → tr.filterMap given = [out] := by
  have hh := path_holds h₀ h
  refine ⟨linearizable_of_observed (fun s hs => ?_) (fun _ _ _ _ _ hst => (step_move hst).run) h₀ h,
    hh.take, takings_length_le h₀ h, fun i out hi => ?_⟩
  · obtain rfl : s = newHandlePair α ι := hs
    unfold view Canonical.start
    congr 1
    funext t
    cases t <;> rfl
  · have hmem := hh.carried out (.inr (.inr (.inr ⟨i, hi⟩)))
    obtain ⟨x, hx⟩ : ∃ x, tr.filterMap given = [x] :=
      List.length_eq_one_iff.mp (Nat.le_antisymm hh.once (List.length_pos_of_mem hmem))
    rw [hx] at hmem ⊢
    rw [List.mem_singleton.mp hmem]

end Runs

/-- A thread waits in `join` for `set`, and takes the result. -/
def joinThenSet : List (Label ℕ (Fin 2)) :=
  let i : Fin 2 := ⟨0, Nat.two_pos⟩
  List.flatten [.join i :: List.replicate 3 (.caller i), .set 42 :: List.replicate 4 .setter,
    List.replicate 3 (.caller i)]

theorem handle_linearizable_wait : ∃ s : State ℕ (Fin 2),
    s.caller ⟨0, Nat.two_pos⟩ = .join (.unlock 42) ∧
      Linearizable (channel ℕ) (history (newHandlePair ℕ (Fin 2)) joinThenSet) ∧
      joinThenSet.filterMap given = [42] := by
  let s₀ : State ℕ (Fin 2) := newHandlePair ℕ (Fin 2)
  let s := ((machine ℕ (Fin 2)).exec s₀ joinThenSet).get (by decide +kernel)
  have h : (machine ℕ (Fin 2)).Path Machine.Free s₀ joinThenSet s :=
    Machine.exec_path (Option.some_get _).symm
  have hout : s.caller ⟨0, Nat.two_pos⟩ = .join (.unlock 42) := by rfl
  obtain ⟨hlin, -, -, hgiven⟩ := handle_linearizable rfl h
  exact ⟨s, hout, hlin, hgiven _ _ hout⟩

end Wss.Handle
