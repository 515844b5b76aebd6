import Wss.Handle.Linear
import Wss.Lib.Shared

/-!
# Who keeps the shared state of a handle

The `ResultSetter` in the closure of a task and the `JoinHandle`s outside share one `HandleShared`.
A handle can be copied and dropped at any time but during a call on it, and so can the setter before
its call of `set` and after it. `owned` is the machine of `Model.lean` with these owners.

Results:
* `path_held`: the owners are counted along every run, and only owners are inside a call.
* `handle_never_dangles`: no thread uses the shared state after it was freed, not even the `set`
  whose `notify_all` comes after a `join` has returned and dropped its handle; it is freed once, by
  the last owner; and where every handle was dropped the task still delivers, to nobody.
-/

namespace Wss.Handle

open Wss.Lib

variable {α ι : Type}

/-- A pair of a setter and its handles. `shared` has the owners of the `HandleShared`. -/
structure Pair (α ι : Type) where
  handle : State α ι
  shared : Shared (Thread ι)

/-- What the owners of a handle do with it. -/
inductive PairLabel (α ι : Type)
  /-- A call on the handle or the setter goes on. -/
  | use (l : Label α ι)
  /-- The handle of a thread is copied to another one. -/
  | copy (i j : ι)
  /-- An owner is destroyed. -/
  | drop (t : Thread ι)

/-- The owner that a step is a call on. -/
def Label.user : Label α ι → Thread ι
  | .set _ | .setter => .setter
  | .join i | .isFinished i | .caller i | .spurious i => .caller i

/-- The setter is inside `set`. -/
def SetPc.calling : SetPc α → Bool
  | .idle | .returned => false
  | .lock _ | .emplace _ | .unlock | .notify => true

/-- A thread is inside a call on its handle. -/
def CallerPc.calling : CallerPc α → Bool
  | .idle => false
  | .join _ | .isFinished _ => true

/-- Whether a thread is inside a call. -/
def State.calling (s : State α ι) : Thread ι → Bool
  | .setter => s.setter.calling
  | .caller i => (s.caller i).calling

/-- The steps that a call of `set` has left. -/
def SetPc.left : SetPc α → ℕ
  | .lock _ => 4
  | .emplace _ => 3
  | .unlock => 2
  | .notify => 1
  | .idle | .returned => 0

/-- The calls that the steps of a run belong to. -/
def used : PairLabel α ι → List (Label α ι)
  | .use l => [l]
  | .copy _ _ | .drop _ => []

variable [DecidableEq ι]

/-- One step: only an owner makes a call, is copied or destroyed, and none is destroyed in one. -/
def stepPair (s : Pair α ι) : PairLabel α ι → Option (Pair α ι)
  | .use l =>
    if l.user ∈ s.shared.owners then (step s.handle l).map fun h => { s with handle := h } else none
  | .copy i j =>
    if .caller i ∈ s.shared.owners ∧ .caller j ∉ s.shared.owners then
      some { s with shared := s.shared.copy (.caller j) }
    else none
  | .drop t =>
    if t ∈ s.shared.owners ∧ s.handle.calling t = false then
      some { s with shared := s.shared.drop t }
    else none

/-- `new_handle_pair`, where thread `i` gets the handle. -/
def newPair (α : Type) (i : ι) : Pair α ι :=
  ⟨newHandlePair α ι, .make {.setter, .caller i}⟩

/-- A handle with its owners. -/
def owned (α ι : Type) [DecidableEq ι] : Machine (Pair α ι) (PairLabel α ι) where
  init s := ∃ i, s = newPair α i
  step := stepPair

variable {s s' : State α ι} {l : Label α ι} {t : Thread ι} {p p' p₀ : Pair α ι}
  {x : PairLabel α ι} {tr : List (PairLabel α ι)}

/-- What a step does to the calls: nobody begins one on the object of another. -/
theorem Move.calling (h : Move s l s') (ht : s'.calling t = true) :
    s.calling t = true ∨ t = l.user := by
  cases t with
  | setter =>
    cases h with
    | set | setLock | emplace | setUnlock | notify => exact .inr rfl
    | _ => exact .inl ht
  | caller j =>
    have hother : ∀ {i : ι} {pc : CallerPc α}, (Function.update s.caller i pc j).calling = true →
        (s.caller j).calling = true ∨ Thread.caller j = .caller i := by
      intro i pc hj
      by_cases hji : j = i
      · exact .inr (congrArg Thread.caller hji)
      · rw [Function.update_of_ne hji] at hj
        exact .inl hj
    cases h with
    | set | setLock | emplace | setUnlock => exact .inl ht
    | notify =>
      rcases notifyAll_caller s j with ⟨hw, -⟩ | ⟨-, hsame⟩
      · exact .inl (congrArg CallerPc.calling hw)
      · exact .inl ((congrArg CallerPc.calling hsame).symm.trans ht)
    | join | isFinished | lock | unlock | there | notThere | wait | take | poll | spurious =>
      exact hother ht

/-- The owners are counted, and whoever is inside a call is one. -/
structure Held (p : Pair α ι) : Prop where
  reachable : (machine α ι).Reachable p.handle
  sound : p.shared.Sound
  calls : ∀ t, p.handle.calling t = true → t ∈ p.shared.owners

/-- What a step does. -/
theorem stepPair_cases (h : stepPair p x = some p') :
    (∃ l, x = .use l ∧ l.user ∈ p.shared.owners ∧ step p.handle l = some p'.handle ∧
      p'.shared = p.shared) ∨
    (∃ i j, x = .copy i j ∧ .caller i ∈ p.shared.owners ∧ .caller j ∉ p.shared.owners ∧
      p' = { p with shared := p.shared.copy (.caller j) }) ∨
    ∃ t, x = .drop t ∧ t ∈ p.shared.owners ∧ p.handle.calling t = false ∧
      p' = { p with shared := p.shared.drop t } := by
  cases x with
  | use l =>
    obtain ⟨hl, h⟩ := Option.ite_none_right_eq_some.mp h
    obtain ⟨s, hs, rfl⟩ := Option.map_eq_some_iff.mp h
    exact .inl ⟨l, rfl, hl, hs, rfl⟩
  | copy i j =>
    obtain ⟨⟨hi, hj⟩, h⟩ := Option.ite_none_right_eq_some.mp h
    exact .inr (.inl ⟨i, j, rfl, hi, hj, (Option.some.inj h).symm⟩)
  | drop t =>
    obtain ⟨⟨ht, hout⟩, h⟩ := Option.ite_none_right_eq_some.mp h
    exact .inr (.inr ⟨t, rfl, ht, hout, (Option.some.inj h).symm⟩)

/-- Every step is one of an owner. -/
theorem Held.alive (hp : Held p) (h : stepPair p x = some p') : p.shared.frees = 0 := by
  rcases stepPair_cases h with ⟨l, -, hl, -⟩ | ⟨i, j, -, hi, -⟩ | ⟨t, -, ht, -⟩
  · exact hp.sound.alive hl
  · exact hp.sound.alive hi
  · exact hp.sound.alive ht

/-- **Every step leaves the owners counted.** -/
theorem Held.step (hp : Held p) (h : stepPair p x = some p') : Held p' := by
  rcases stepPair_cases h with ⟨l, -, hl, hst, hshared⟩ | ⟨i, j, -, hi, hj, rfl⟩ |
    ⟨t, -, ht, hout, rfl⟩
  · refine ⟨hp.reachable.next hst, hshared ▸ hp.sound, fun t ht => ?_⟩
    rw [hshared]
    rcases (step_move hst).calling ht with hold | rfl
    · exact hp.calls t hold
    · exact hl
  · exact ⟨hp.reachable, hp.sound.copy hi hj, fun t ht => Finset.mem_insert_of_mem (hp.calls t ht)⟩
  · refine ⟨hp.reachable, hp.sound.drop ht, fun u hu => Finset.mem_erase.mpr ⟨?_, hp.calls u hu⟩⟩
    rintro rfl
    exact Bool.false_ne_true (hout.symm.trans hu)

theorem held_newPair (i : ι) : Held (newPair α i) where
  reachable := ⟨[], _, rfl, .nil⟩
  sound := Shared.sound_make ⟨.setter, Finset.mem_insert_self _ _⟩
  calls t h := by cases t <;> exact absurd h Bool.false_ne_true

theorem path_held (h₀ : (owned α ι).init p₀) (h : (owned α ι).Path Machine.Free p₀ tr p) :
    Held p := by
  obtain ⟨i, rfl⟩ := h₀
  exact h.preserves (fun _ _ _ _ hst hp => hp.step hst) (held_newPair i)

/-- The calls are those of a run of the handle. -/
theorem path_used (h : (owned α ι).Path Machine.Free p₀ tr p) :
    (machine α ι).Path Machine.Free p₀.handle (tr.flatMap used) p.handle := by
  induction h with
  | nil => exact .nil
  | @snoc tr q q' x _ _ hst ih =>
    rw [List.flatMap_append]
    rcases stepPair_cases hst with ⟨l, rfl, -, hl, -⟩ | ⟨i, j, rfl, -, -, rfl⟩ | ⟨t, rfl, -, -, rfl⟩
    · exact ih.snoc trivial hl
    · exact (List.append_nil (tr.flatMap used)).symm ▸ ih
    · exact (List.append_nil (tr.flatMap used)).symm ▸ ih

/-! ## Nobody has the handle any more -/

omit [DecidableEq ι] in
theorem calling_of_inside (h : s.inside t = true) : s.calling t = true := by
  cases t with
  | setter =>
    show s.setter.calling = true
    cases hpc : s.setter with
    | idle | returned => exact absurd h (by simp [State.inside, hpc, SetPc.inside])
    | lock | emplace | unlock | notify => rfl
  | caller i =>
    show (s.caller i).calling = true
    cases hpc : s.caller i with
    | idle => exact absurd h (by simp [State.inside, hpc, CallerPc.inside])
    | join | isFinished => rfl

/-- Without a handle, the mutex is free for `set`. -/
theorem Held.free (hp : Held p) (hnone : ∀ i, .caller i ∉ p.shared.owners)
    (hset : p.handle.setter.inside = false) : p.handle.holder = none := by
  by_contra hholder
  obtain ⟨t, ht⟩ := Option.ne_none_iff_exists'.mp hholder
  have hin : p.handle.inside t = true := by
    by_contra hout
    have hholds := ((reachable_coherent hp.reachable).mutex () t).mp ht
    rw [holds_of_outside (Bool.eq_false_of_not_eq_true hout)] at hholds
    exact absurd hholds (by simp)
  cases t with
  | setter => exact Bool.false_ne_true (hset.symm.trans hin)
  | caller i => exact hnone i (hp.calls _ (calling_of_inside hin))

/-- Then `set` goes on. -/
theorem Held.set_step (hp : Held p) (hnone : ∀ i, .caller i ∉ p.shared.owners) {n : ℕ}
    (hleft : p.handle.setter.left = n + 1) : ∃ h, Handle.step p.handle .setter = some h ∧
      h.setter.left = n ∧ h.setter ≠ .idle := by
  show ∃ h, stepSetter p.handle = some h ∧ h.setter.left = n ∧ h.setter ≠ .idle
  unfold stepSetter
  cases hpc : p.handle.setter with
  | idle | returned => exact absurd (hpc ▸ hleft) (by simp [SetPc.left])
  | lock result =>
    have hlock : p.handle.acquire .setter = some { p.handle with holder := some .setter } := by
      unfold State.acquire
      rw [hp.free hnone (by rw [hpc]; rfl)]
    rw [hpc] at hleft
    refine ⟨{ p.handle with holder := some .setter, setter := .emplace result }, ?_,
      Nat.succ.inj hleft, by simp⟩
    exact Option.map_eq_some_iff.mpr ⟨_, hlock, rfl⟩
  | emplace result =>
    rw [hpc] at hleft
    exact ⟨_, rfl, Nat.succ.inj hleft, by simp⟩
  | unlock =>
    rw [hpc] at hleft
    exact ⟨_, rfl, Nat.succ.inj hleft, by simp⟩
  | notify =>
    rw [hpc] at hleft
    exact ⟨_, rfl, Nat.succ.inj hleft, by simp⟩

/-- And comes to its end. -/
theorem Held.set_returns {n : ℕ} (hp : Held p) (hset : .setter ∈ p.shared.owners)
    (hnone : ∀ i, .caller i ∉ p.shared.owners) (hcalled : p.handle.setter ≠ .idle)
    (hleft : p.handle.setter.left = n) : ∃ q, (owned α ι).Path Machine.Free p
      (List.replicate n (.use .setter)) q ∧ q.handle.setter = .returned ∧ q.shared = p.shared := by
  induction n generalizing p with
  | zero =>
    refine ⟨p, .nil, ?_, rfl⟩
    cases hpc : p.handle.setter with
    | idle => exact absurd hpc hcalled
    | returned => rfl
    | lock | emplace | unlock | notify => exact absurd (hpc ▸ hleft) (by simp [SetPc.left])
  | succ n ih =>
    obtain ⟨h, hst, hn, hne⟩ := hp.set_step hnone hleft
    have hstep : stepPair p (.use .setter) = some { p with handle := h } :=
      (if_pos hset).trans (Option.map_eq_some_iff.mpr ⟨h, hst, rfl⟩)
    obtain ⟨q, hq, hret, hshared⟩ := ih (hp.step hstep) hset hnone hne hn
    exact ⟨q, .cons trivial hstep hq, hret, hshared⟩

/-- **Nobody uses the shared state of a handle after it was freed.** In every run of calls, copies
and destructions: each step finds it not freed yet; it is freed once, when the last owner is gone;
and the calls are those of a run of the handle. Where `set` was called and no handle is left, `set`
runs to its end, and the setter frees the state, with the result in it. -/
theorem handle_never_dangles (h₀ : (owned α ι).init p₀)
    (h : (owned α ι).Path Machine.Free p₀ tr p) :
    (owned α ι).Path (fun p _ => p.shared.frees = 0) p₀ tr p ∧
      p.shared.frees = (if p.shared.owners = ∅ then 1 else 0) ∧
      (machine α ι).Path Machine.Free (newHandlePair α ι) (tr.flatMap used) p.handle ∧
      (.setter ∈ p.shared.owners → (∀ i, .caller i ∉ p.shared.owners) → p.handle.setter ≠ .idle →
        ∃ q, (owned α ι).Path Machine.Free p
          (List.replicate p.handle.setter.left (.use .setter) ++ [.drop .setter]) q ∧
          q.handle.setter = .returned ∧ q.shared.frees = 1) := by
  have hp := path_held h₀ h
  refine ⟨?_, ?_, ?_, fun hset hnone hcalled => ?_⟩
  · clear hp
    induction h with
    | nil => exact .nil
    | snoc hpath _ hst ih => exact ih.snoc ((path_held h₀ hpath).alive hst) hst
  · rw [hp.sound.freed, hp.sound.count]
    simp only [Finset.card_eq_zero]
  · obtain ⟨i, rfl⟩ := h₀
    exact path_used h
  · obtain ⟨q, hq, hret, hshared⟩ := hp.set_returns hset hnone hcalled rfl
    have hq' : Held q := hq.preserves (fun _ _ _ _ hst hp => hp.step hst) hp
    have hmem : .setter ∈ q.shared.owners := hshared ▸ hset
    have hout : q.handle.calling .setter = false := by
      show q.handle.setter.calling = false
      rw [hret]
      rfl
    refine ⟨{ q with shared := q.shared.drop .setter }, hq.snoc trivial (if_pos ⟨hmem, hout⟩), hret,
      (hq'.sound.drop hmem).freed_once ?_⟩
    refine Finset.eq_empty_iff_forall_notMem.mpr fun t ht => ?_
    obtain ⟨hne, ht⟩ := Finset.mem_erase.mp ht
    cases t with
    | setter => exact hne rfl
    | caller i => exact hnone i (hshared ▸ ht)

/-- `join` returns before `set` has notified, and its handle is dropped. -/
def joinBeforeNotify : List (PairLabel ℕ Unit) :=
  List.flatten [.use (.set 42) :: List.replicate 3 (.use .setter),
    .use (.join ()) :: List.replicate 4 (.use (.caller ())), [.drop (.caller ())]]

theorem handle_never_dangles_notify : ∃ p q : Pair ℕ Unit, p.handle.setter = .notify ∧
    p.shared.owners = {.setter} ∧ p.shared.frees = 0 ∧
    (owned ℕ Unit).Path Machine.Free p [.use .setter, .drop .setter] q ∧ q.shared.frees = 1 := by
  let p := ((owned ℕ Unit).exec (newPair ℕ ()) joinBeforeNotify).get (by decide +kernel)
  have hp : (owned ℕ Unit).Path Machine.Free (newPair ℕ ()) joinBeforeNotify p :=
    Machine.exec_path (Option.some_get _).symm
  have hset : p.handle.setter = .notify := by rfl
  have howners : p.shared.owners = {.setter} := by decide +kernel
  obtain ⟨-, hfrees, -, hends⟩ := handle_never_dangles ⟨(), rfl⟩ hp
  obtain ⟨q, hq, -, hfreed⟩ := hends (by rw [howners]; exact Finset.mem_singleton_self _)
    (fun i => by rw [howners]; simp) (by rw [hset]; simp)
  rw [hset] at hq
  exact ⟨p, q, hset, howners, hfrees.trans (by rw [howners]; rfl), hq, hfreed⟩

end Wss.Handle
