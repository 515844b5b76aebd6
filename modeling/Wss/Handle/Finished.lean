import Wss.Handle.Model

/-!
# How long a finished task stays finished

`join` does not only read the result, it takes it away. The threads that look after it see a task
that is not finished: `is_finished` is false, and a second `join` blocks, though `set` has issued
its `notify_all` and nobody else issues one (`State.Stranded`).

Results:
* `reachable_coherent`: the result is there until it is taken, and who waits will be notified.
* `finished_iff`: nothing else goes wrong. As long as no `join` has taken the result, a finished
  task is finished for everyone.
-/

namespace Wss.Handle

open Wss.Lib

variable {α ι : Type}

/-- What `is_finished` returns. -/
def State.finished (s : State α ι) : Bool := s.result.isSome

/-- The `join` of thread `i` is in the wait set, and `set` has issued the only notification. -/
def State.Stranded (s : State α ι) (i : ι) : Prop :=
  s.caller i = .join .waiting ∧ s.setter = .returned

/-- Once `set` has returned the task is finished, and no `join` is left blocked. -/
structure StaysFinished (s : State α ι) : Prop where
  finished : s.setter = .returned → s.finished = true
  joins : ∀ i, ¬ s.Stranded i

/-- The thread that takes the result in a step. -/
def takes (s : State α ι) : Label α ι → List ι
  | .caller i =>
    match s.caller i with
    | .join .take => [i]
    | _ => []
  | _ => []

/-! ## Who has the mutex -/

/-- `set` has the mutex. -/
def SetPc.inside : SetPc α → Bool
  | .emplace _ | .unlock => true
  | .idle | .lock _ | .notify | .returned => false

/-- The call of a thread has the mutex. -/
def CallerPc.inside : CallerPc α → Bool
  | .join .check | .join .wait | .join .take | .join (.unlock _) => true
  | .isFinished .check | .isFinished (.unlock _) => true
  | .idle | .join .lock | .join .waiting | .isFinished .lock => false

/-- Whether a thread has the mutex. -/
def State.inside (s : State α ι) : Thread ι → Bool
  | .setter => s.setter.inside
  | .caller i => (s.caller i).inside

/-- The mutex that a thread has: there is one. -/
def State.holds (s : State α ι) (t : Thread ι) : Option Unit := if s.inside t then some () else none

/-- The thread that is inside its critical section has the mutex, and no other one. -/
def Exclusive (s : State α ι) : Prop := Owned (fun _ : Unit => s.holder) s.holds

variable {s s' s₀ : State α ι} {l : Label α ι} {tr : List (Label α ι)} {t : Thread ι} {i : ι}

theorem holds_of_inside (h : s.inside t = true) : s.holds t = some () := if_pos h

theorem holds_of_outside (h : s.inside t = false) : s.holds t = none :=
  if_neg (by rw [h]; exact Bool.false_ne_true)

theorem Exclusive.eq {t' : Thread ι} (h : Exclusive s) (ht : s.inside t = true)
    (ht' : s.inside t' = true) : t = t' :=
  Owned.exclusive h (holds_of_inside ht) (holds_of_inside ht')

/-- A step that leaves everyone inside, or outside. -/
theorem Exclusive.stay (h : Exclusive s) (hh : s'.holder = s.holder)
    (hin : ∀ u, s'.inside u = s.inside u) : Exclusive s' := by
  unfold Exclusive
  rw [hh]
  exact Owned.stay h fun u => by rw [State.holds, hin, State.holds]

theorem Exclusive.acquire (h : Exclusive s) (hfree : s.holder = none) (ht : s.inside t = false)
    (hh : s'.holder = some t) (hself : s'.inside t = true)
    (hother : ∀ u, u ≠ t → s'.inside u = s.inside u) : Exclusive s' := by
  have hown := Owned.acquire h (k := ()) hfree (holds_of_outside ht) (holds_of_inside hself)
    fun u hu => by rw [State.holds, hother u hu, State.holds]
  rw [Function.update_eq_const_of_subsingleton] at hown
  unfold Exclusive
  rw [hh]
  exact hown

theorem Exclusive.release (h : Exclusive s) (ht : s.inside t = true) (hh : s'.holder = none)
    (hself : s'.inside t = false) (hother : ∀ u, u ≠ t → s'.inside u = s.inside u) :
    Exclusive s' := by
  have hown := Owned.release h (holds_of_inside ht) (holds_of_outside hself)
    fun u hu => by rw [State.holds, hother u hu, State.holds]
  rw [Function.update_eq_const_of_subsingleton] at hown
  unfold Exclusive
  rw [hh]
  exact hown

theorem inside_setter (hs : s'.caller = s.caller) : ∀ u, u ≠ .setter → s'.inside u = s.inside u
  | .setter, hu => absurd rfl hu
  | .caller i, _ => by rw [State.inside, State.inside, hs]

theorem inside_caller [DecidableEq ι] {pc : CallerPc α} (hs : s'.setter = s.setter)
    (hc : s'.caller = Function.update s.caller i pc) :
    ∀ u, u ≠ .caller i → s'.inside u = s.inside u
  | .setter, _ => by rw [State.inside, State.inside, hs]
  | .caller j, hu => by
    have hne : j ≠ i := fun e => hu (congrArg Thread.caller e)
    rw [State.inside, State.inside, hc, Function.update_of_ne hne]

theorem inside_self [DecidableEq ι] (s : State α ι) (i : ι) (pc : CallerPc α) :
    (s.setCaller i pc).inside (.caller i) = pc.inside :=
  congrArg CallerPc.inside (Function.update_self _ _ _)

/-- A step of a call that leaves it inside, or outside. -/
theorem Exclusive.caller [DecidableEq ι] {pc : CallerPc α} (h : Exclusive s)
    (hh : s'.holder = s.holder) (hs : s'.setter = s.setter)
    (hc : s'.caller = Function.update s.caller i pc) (hin : pc.inside = (s.caller i).inside) :
    Exclusive s' := by
  refine h.stay hh fun u => ?_
  by_cases hu : u = .caller i
  · subst hu
    rw [State.inside, State.inside, hc, Function.update_self, hin]
  · exact inside_caller hs hc u hu

/-- A step of `set` that leaves it inside, or outside. -/
theorem Exclusive.setter (h : Exclusive s) (hh : s'.holder = s.holder)
    (hc : s'.caller = s.caller) (hin : s'.setter.inside = s.setter.inside) : Exclusive s' := by
  refine h.stay hh fun u => ?_
  cases u with
  | setter => exact hin
  | caller j => exact inside_setter hc _ nofun

/-- A thread in the wait set is woken, and any other one left where it is. -/
theorem notifyAll_caller (s : State α ι) (i : ι) :
    s.caller i = .join .waiting ∧ s.notifyAll.caller i = .join .lock ∨
      s.caller i ≠ .join .waiting ∧ s.notifyAll.caller i = s.caller i := by
  unfold State.notifyAll
  dsimp only
  split
  · rename_i hpc
    exact .inl ⟨hpc, rfl⟩
  · rename_i hpc
    exact .inr ⟨hpc, rfl⟩

variable [DecidableEq ι]

/-- **Every step keeps the mutex with its holder.** -/
theorem Move.exclusive (h : Move s l s') (ho : Exclusive s) : Exclusive s' := by
  cases h with
  | set hpc | emplace hpc => exact ho.setter rfl rfl (by rw [hpc]; rfl)
  | setLock hpc hfree =>
    exact ho.acquire (t := .setter) hfree (by rw [State.inside, hpc]; rfl) rfl rfl
      (inside_setter rfl)
  | setUnlock hpc =>
    exact ho.release (t := .setter) (by rw [State.inside, hpc]; rfl) rfl rfl (inside_setter rfl)
  | notify hpc =>
    refine ho.stay rfl fun u => ?_
    cases u with
    | setter =>
      rw [State.inside, State.inside, hpc]
      rfl
    | caller i =>
      rw [State.inside, State.inside]
      rcases notifyAll_caller s i with ⟨hw, hl⟩ | ⟨-, hsame⟩
      · rw [hw]
        exact (congrArg CallerPc.inside hl).trans rfl
      · exact congrArg CallerPc.inside hsame
  | join hpc | isFinished hpc | there hpc | notThere hpc | take hpc | poll hpc | spurious hpc =>
    exact ho.caller rfl rfl rfl (by rw [hpc]; rfl)
  | @lock i pc hpc hfree =>
    refine ho.acquire (t := .caller i) hfree ?_ rfl ?_ (inside_caller rfl rfl)
    · rcases hpc with ⟨hpc, -⟩ | ⟨hpc, -⟩ <;> rw [State.inside, hpc] <;> rfl
    · rw [inside_self]
      rcases hpc with ⟨-, rfl⟩ | ⟨-, rfl⟩ <;> rfl
  | @unlock i hpc =>
    refine ho.release (t := .caller i) ?_ rfl (inside_self _ _ _) (inside_caller rfl rfl)
    rcases hpc with ⟨_, hpc⟩ | ⟨_, hpc⟩ <;> rw [State.inside, hpc] <;> rfl
  | @wait i hpc =>
    exact ho.release (t := .caller i) (by rw [State.inside, hpc]; rfl) rfl (inside_self _ _ _)
      (inside_caller rfl rfl)

/-! ## What the result is when -/

/-- Whoever is about to block has seen no result, and after its notification `set` leaves nobody
blocked beside one. -/
structure Coherent (s : State α ι) : Prop where
  mutex : Exclusive s
  wait : ∀ i, s.caller i = .join .wait → s.result = none
  waiting : ∀ i, s.caller i = .join .waiting → s.setter = .returned → s.result = none

/-- A step of a call that blocks only where there is no result. -/
theorem Coherent.caller {pc : CallerPc α} (h : Coherent s) (hm : Exclusive s')
    (hs : s'.setter = s.setter) (hc : s'.caller = Function.update s.caller i pc)
    (hr : s.result = none → s'.result = none)
    (hpc : pc = .join .wait ∨ pc = .join .waiting → s'.result = none) : Coherent s' := by
  have hcases : ∀ j {pc'}, s'.caller j = pc' → pc' = pc ∨ s.caller j = pc' := by
    intro j pc' hj
    rw [hc] at hj
    by_cases hji : j = i
    · subst hji
      rw [Function.update_self] at hj
      exact .inl hj.symm
    · rw [Function.update_of_ne hji] at hj
      exact .inr hj
  refine ⟨hm, fun j hj => ?_, fun j hj hret => ?_⟩
  · rcases hcases j hj with he | hold
    · exact hpc (.inl he.symm)
    · exact hr (h.wait j hold)
  · rcases hcases j hj with he | hold
    · exact hpc (.inr he.symm)
    · exact hr (h.waiting j hold (hs ▸ hret))

/-- **Every step keeps the result and those who wait for it coherent.** -/
theorem Move.coherent (h : Move s l s') (hc : Coherent s) : Coherent s' := by
  have hm := h.exclusive hc.mutex
  cases h with
  | set hpc | setLock hpc => exact ⟨hm, hc.wait, nofun⟩
  | setUnlock hpc => exact ⟨hm, hc.wait, nofun⟩
  | emplace hpc =>
    -- whoever is about to block has the mutex
    refine ⟨hm, fun j hj => ?_, nofun⟩
    have hset : s.inside .setter = true := by rw [State.inside, hpc]; rfl
    have hj' : s.inside (.caller j) = true := by
      rw [State.inside, show s.caller j = _ from hj]
      rfl
    exact absurd (hc.mutex.eq hset hj') nofun
  | notify hpc =>
    refine ⟨hm, fun j hj => ?_, fun j hj => ?_⟩
    · rcases notifyAll_caller s j with ⟨-, hl⟩ | ⟨-, hsame⟩
      · exact absurd (hl.symm.trans hj) nofun
      · exact hc.wait j (hsame.symm.trans hj)
    · rcases notifyAll_caller s j with ⟨-, hl⟩ | ⟨hw, hsame⟩
      · exact absurd (hl.symm.trans hj) nofun
      · exact absurd (hsame.symm.trans hj) hw
  | join | isFinished | there | poll | spurious =>
    exact hc.caller hm rfl rfl id nofun
  | lock hpc =>
    refine hc.caller hm rfl rfl id fun he => ?_
    rcases hpc with ⟨-, rfl⟩ | ⟨-, rfl⟩ <;> exact absurd he (by simp)
  | unlock => exact hc.caller hm rfl rfl id nofun
  | notThere hpc hr => exact hc.caller hm rfl rfl id fun _ => hr
  | @wait i hpc => exact hc.caller hm rfl rfl id fun _ => hc.wait i hpc
  | take => exact hc.caller hm rfl rfl (fun _ => rfl) fun _ => rfl

theorem reachable_coherent (h : (machine α ι).Reachable s) : Coherent s := by
  refine h.invariant (fun s hs => ?_) fun _ _ _ _ _ hst hc => (step_move hst).coherent hc
  subst hs
  exact ⟨Owned.free.stay fun | .setter => rfl | .caller _ => rfl, nofun, nofun⟩

/-! ## Who has taken it -/

/-- `set` has put the result there. -/
def SetPc.emplaced : SetPc α → Bool
  | .unlock | .notify | .returned => true
  | .idle | .lock _ | .emplace _ => false

/-- The threads that took the result along a run. -/
def takings (s : State α ι) (tr : List (Label α ι)) : List ι := (machine α ι).observe takes s tr

/-- The result is put there by `set` and goes with who takes it. -/
theorem Move.takes (h : Move s l s') (hearly : s.setter.emplaced = false → s.finished = false) :
    (takes s l).length + s'.finished.toNat + s.setter.emplaced.toNat =
      s.finished.toNat + s'.setter.emplaced.toNat := by
  cases h with
  | emplace hpc =>
    have hf : s.finished = false := hearly (by rw [hpc]; rfl)
    rw [hpc, hf]
    rfl
  | take hpc hr =>
    have hf : s.finished = true := by rw [State.finished, hr]; rfl
    rw [hf]
    simp [Handle.takes, hpc, State.finished, State.setCaller]
  | set hpc | setLock hpc | setUnlock hpc | notify hpc =>
    rw [hpc]
    simp [Handle.takes, State.finished, State.notifyAll, SetPc.emplaced]
  | join | isFinished | spurious => exact Nat.add_right_cancel_iff.mpr (Nat.zero_add _)
  | there hpc | notThere hpc | wait hpc | poll hpc =>
    simp [Handle.takes, hpc, State.finished, State.setCaller]
  | lock hpc =>
    rcases hpc with ⟨hpc, -⟩ | ⟨hpc, -⟩ <;>
      simp [Handle.takes, hpc, State.finished, State.setCaller]
  | unlock hpc =>
    rcases hpc with ⟨_, hpc⟩ | ⟨_, hpc⟩ <;>
      simp [Handle.takes, hpc, State.finished, State.setCaller]

/-- The result is there, once `set` has put it there, until a thread has taken it. -/
theorem path_takings (h₀ : (machine α ι).init s₀) (h : (machine α ι).Path Machine.Free s₀ tr s) :
    (takings s₀ tr).length + s.finished.toNat = s.setter.emplaced.toNat := by
  induction h with
  | nil =>
    obtain rfl : s₀ = newHandlePair α ι := h₀
    rfl
  | @snoc tr t t' l hp _ hst ih =>
    have hearly : t.setter.emplaced = false → t.finished = false := fun he => by
      rw [he] at ih
      exact Bool.toNat_eq_zero.mp (Nat.eq_zero_of_add_eq_zero_left ih)
    have hstep := (step_move hst).takes hearly
    have hsnoc : takings s₀ (tr ++ [l]) = takings s₀ tr ++ Handle.takes t l := hp.observe_snoc hst
    rw [hsnoc, List.length_append]
    omega

/-- **A finished task stays finished, for every holder of its handle, as long as no `join` has taken
the result.** -/
theorem finished_iff (h₀ : (machine α ι).init s₀)
    (h : (machine α ι).Path Machine.Free s₀ tr s) :
    StaysFinished s ↔ (s.setter = .returned → takings s₀ tr = []) := by
  have hcount := path_takings h₀ h
  have hret : s.setter = .returned → s.setter.emplaced.toNat = 1 := fun hs => by
    rw [hs]
    rfl
  constructor
  · intro hfin hs
    have htrue : s.finished.toNat = 1 := congrArg Bool.toNat (hfin.finished hs)
    refine List.eq_nil_of_length_eq_zero ?_
    have := hret hs
    omega
  · intro hnone
    have hfin : s.setter = .returned → s.finished = true := by
      intro hs
      rw [hnone hs, hret hs] at hcount
      exact Bool.toNat_eq_one.mp ((Nat.zero_add _).symm.trans hcount)
    refine ⟨hfin, fun i ⟨hwait, hs⟩ => ?_⟩
    have hr := (reachable_coherent ⟨tr, s₀, h₀, h⟩).waiting i hwait hs
    have hthere := hfin hs
    rw [State.finished, hr] at hthere
    exact Bool.false_ne_true hthere

/-- The result is taken once at most. -/
theorem takings_length_le (h₀ : (machine α ι).init s₀)
    (h : (machine α ι).Path Machine.Free s₀ tr s) : (takings s₀ tr).length ≤ 1 := by
  have hcount := path_takings h₀ h
  have hle := Bool.toNat_le s.setter.emplaced
  omega

/-- A thread asks whether the task is finished after `set` has returned, and another one waits for
it from before. -/
def setThenAsk : List (Label ℕ (Fin 2)) :=
  let i : Fin 2 := ⟨0, Nat.two_pos⟩
  let j : Fin 2 := ⟨1, Nat.one_lt_two⟩
  List.flatten [.join j :: List.replicate 3 (.caller j), .set 42 :: List.replicate 4 .setter,
    .isFinished i :: List.replicate 3 (.caller i)]

theorem finished_iff_ask : ∃ s : State ℕ (Fin 2), s.setter = .returned ∧ StaysFinished s := by
  let s₀ : State ℕ (Fin 2) := newHandlePair ℕ (Fin 2)
  let s := ((machine ℕ (Fin 2)).exec s₀ setThenAsk).get (by decide +kernel)
  have h : (machine ℕ (Fin 2)).Path Machine.Free s₀ setThenAsk s :=
    Machine.exec_path (Option.some_get _).symm
  refine ⟨s, by rfl, (finished_iff rfl h).mpr fun _ => by decide +kernel⟩

/-- Two threads join. -/
def joinTwice : List (Label ℕ (Fin 2)) :=
  let i : Fin 2 := ⟨0, Nat.two_pos⟩
  let j : Fin 2 := ⟨1, Nat.one_lt_two⟩
  List.flatten [.set 42 :: List.replicate 4 .setter, .join i :: List.replicate 4 (.caller i),
    .join j :: List.replicate 3 (.caller j)]

/-- The one that comes second blocks for good, on a finished task that looks unfinished. -/
theorem not_stays_finished : ¬ ∀ (s₀ s : State ℕ (Fin 2)) (tr : List (Label ℕ (Fin 2))),
    (machine ℕ (Fin 2)).init s₀ → (machine ℕ (Fin 2)).Path Machine.Free s₀ tr s →
    StaysFinished s := by
  intro hall
  let s₀ : State ℕ (Fin 2) := newHandlePair ℕ (Fin 2)
  let s := ((machine ℕ (Fin 2)).exec s₀ joinTwice).get (by decide +kernel)
  have hfin := hall s₀ s joinTwice rfl (Machine.exec_path (Option.some_get _).symm)
  have hwait : s.caller ⟨1, Nat.one_lt_two⟩ = .join .waiting := by rfl
  exact hfin.joins _ ⟨hwait, by rfl⟩

end Wss.Handle
