import Wss.ChaseLev.Linear
import Wss.ChaseLev.Sequential
import Wss.Lib.Rank

/-!
# The deque is wait-free

No operation of the deque has a loop that another thread can prolong: `push`, `pop` and `steal` are
straight-line code but for the copy loop of `grow`, whose ends were fixed when it began. So a thread
is through with its call after a number of atomic operations of its own that is known when the call
begins, however the others are scheduled in between. `ownerRank` and `thiefRank` are the operations
left.

Results:
* `step_ownerRank`, `step_thiefRank`: a thief that takes an item while a `push` is before its load
  of `top_` leaves it less to copy, and nothing the others do leaves it more.
* `wait_free`: `pop` takes `7` operations at most, `steal` takes `5`, and `push` takes `7` and two
  for each item in the deque, and a thread inside a call always has a next one, unless it is a
  `push` that would have to allocate a buffer no vector can have.
-/

namespace Wss.ChaseLev

open Wss.Lib

variable {ι T : Type}

/-- The atomic operations the owner has left in its call. -/
def ownerRank (d : State ι T) : ℕ :=
  match d.owner with
  | .idle | .pushReturn | .popTake _ | .popNone => 0
  | .pushBottom _ => 2 * (d.bottom - d.top).toNat + 7
  | .pushTop _ b => 2 * (b - d.top).toNat + 6
  | .pushBuffer _ b t => 2 * (b - t).toNat + 5
  | .growLoad _ b _ _ i => 2 * (b - i).toNat + 4
  | .growStore _ b _ _ i _ => 2 * (b - i).toNat + 3
  | .popBottom => 7
  | .popBuffer _ => 6
  | .popLower _ _ => 5
  | .growPublish _ _ _ | .popTop _ _ => 4
  | .growRetire _ _ _ | .popSlot _ _ _ => 3
  | .pushSlot _ _ _ | .popRaise _ _ _ => 2
  | .pushPublish _ _ | .popCas _ _ | .popRestore _ => 1

/-- The atomic operations a thief has left in its call. -/
def thiefRank : ThiefPc → ℕ
  | .stealTop => 5
  | .stealBottom _ => 4
  | .stealBuffer _ => 3
  | .stealSlot _ _ => 2
  | .stealCas _ _ => 1
  | .idle | .stealTake _ | .stealEmpty | .stealLost => 0

namespace Label

/-- An atomic operation of the owner. -/
def isOwner : Label ι T → Bool
  | .owner => true
  | _ => false

/-- A return of the owner. -/
def isReturn : Label ι T → Bool
  | .pushed | .popped _ => true
  | _ => false

variable [DecidableEq ι]

/-- An atomic operation of thief `i`. -/
def isThief (i : ι) : Label ι T → Bool
  | .thief j => j = i
  | _ => false

/-- A return of thief `i`. -/
def isStolen (i : ι) : Label ι T → Bool
  | .stolen j _ => j = i
  | _ => false

end Label

variable {d d' d₀ d₁ : State ι T} {i : ι}

/-! ## The owner -/

/-- An atomic operation of the owner is one less, and does not end its call. -/
theorem stepOwner_rank (ho : OwnerOk d) (h : stepOwner d = some d') :
    d'.owner ≠ .idle ∧ ownerRank d' < ownerRank d := by
  have hgrow : ∀ {item : T} {b : ℤ} {old new : ℕ} {i : ℤ} {e : State ι T},
      e.owner = growNext item b old new i →
      e.owner ≠ .idle ∧ ownerRank e ≤ 2 * (b - i).toNat + 4 := by
    intro item b old new i e he
    unfold ownerRank
    rcases growNext_cases item b old new i with h | h
    all_goals
      rw [he, h]
      exact ⟨by simp, by dsimp only; omega⟩
  unfold stepOwner at h
  unfold OwnerOk at ho
  cases hpc : d.owner with
  | idle | pushReturn | popTake _ | popNone => simp [hpc] at h
  | pushBuffer item b t =>
    simp only [hpc] at h ho
    split_ifs at h with hfull
    · obtain ⟨nb, -, rfl⟩ := Option.map_eq_some_iff.mp h
      obtain ⟨hne, hle⟩ := hgrow (e := { d with
        heap := _, allocated := d.allocated + 1,
        owner := growNext item b d.buffer d.allocated t }) rfl
      refine ⟨hne, (Nat.lt_succ_of_le hle).trans_eq ?_⟩
      simp only [ownerRank, hpc]
    · obtain rfl := Option.some.inj h
      simp only [ownerRank, hpc]
      exact ⟨by simp, by omega⟩
  | growStore item b old new i ptr =>
    simp only [hpc, Option.some.injEq] at h ho
    subst h
    obtain ⟨hne, hle⟩ := hgrow (e := { d with
      heap := _, owner := growNext item b old new (i + 1) }) rfl
    refine ⟨hne, hle.trans_lt ?_⟩
    simp only [ownerRank, hpc]
    omega
  | popTop | popSlot | popCas =>
    simp only [hpc] at h
    split_ifs at h <;> obtain rfl := Option.some.inj h <;> simp [ownerRank, hpc]
  | pushBottom | pushTop | growLoad | growPublish | growRetire | pushSlot | pushPublish | popBottom
  | popBuffer | popLower | popRestore | popRaise =>
    simp only [hpc, Option.some.injEq] at h
    subst h
    simp [ownerRank, hpc]

/-- While the owner stands still, the others can only spare it work. -/
theorem ownerRank_mono (ho : d'.owner = d.owner) (htop : d.top ≤ d'.top)
    (hbot : d'.bottom = d.bottom) : ownerRank d' ≤ ownerRank d := by
  unfold ownerRank
  rw [ho, hbot]
  split <;> omega

variable [DecidableEq ι]

/-- An atomic operation of a thief is one less, and does not end its call. -/
theorem stepThief_rank (h : stepThief d i = some d') :
    d.top ≤ d'.top ∧ d'.bottom = d.bottom ∧ d'.thief i ≠ .idle ∧
      thiefRank (d'.thief i) < thiefRank (d.thief i) := by
  unfold stepThief at h
  cases hpc : d.thief i with
  | idle | stealTake _ | stealEmpty | stealLost => simp [hpc] at h
  | stealBottom t =>
    simp only [hpc] at h
    split_ifs at h <;> obtain rfl := Option.some.inj h
    all_goals exact ⟨le_rfl, rfl, by simp, by simp [thiefRank]⟩
  | stealTop | stealBuffer | stealSlot =>
    simp only [hpc, Option.some.injEq] at h
    subst h
    exact ⟨le_rfl, rfl, by simp, by simp [thiefRank]⟩
  | stealCas t ptr =>
    simp only [hpc] at h
    split_ifs at h with htop
    · obtain rfl := Option.some.inj h
      refine ⟨?_, rfl, by simp [State.setThief], by simp [State.setThief, thiefRank]⟩
      simp only [htop]
      omega
    · obtain rfl := Option.some.inj h
      exact ⟨le_rfl, rfl, by simp, by simp [thiefRank]⟩

variable [DecidableEq T] {l : Label ι T} {c : ℕ}

/-- A step during a call of the owner: one operation less, or a step of another thread. -/
theorem step_ownerRank (ho : OwnerOk d) (hpc : d.owner ≠ .idle) (hl : l.isReturn = false)
    (h : step d l = some d') :
    d'.owner ≠ .idle ∧ ownerRank d' + (if l.isOwner then 1 else 0) ≤ ownerRank d := by
  cases l with
  | push | pop => simp [step] at h
  | pushed | popped => exact absurd hl (by simp [Label.isReturn])
  | steal i =>
    simp only [step] at h
    split at h
    · obtain rfl := Option.some.inj h
      exact ⟨hpc, ownerRank_mono rfl le_rfl rfl⟩
    · exact absurd h (by simp)
  | stolen i r =>
    simp only [step] at h
    split at h
    all_goals first
      | (split_ifs at h; obtain rfl := Option.some.inj h;
         exact ⟨hpc, ownerRank_mono rfl le_rfl rfl⟩)
      | exact absurd h (by simp)
  | owner => exact stepOwner_rank ho h
  | thief i =>
    obtain ⟨-, ho, -⟩ := stepThief_frame h
    obtain ⟨htop, hbot, -⟩ := stepThief_rank h
    exact ⟨ho ▸ hpc, ownerRank_mono ho htop hbot⟩

/-- Until it returns, the operations of the owner are paid by what it has left. -/
theorem owner_priced : (machine ι T c).Priced (fun d => Inv d ∧ d.owner ≠ .idle)
    (fun _ l => l.isReturn = false) (fun l => if l.isOwner then 1 else 0) ownerRank where
  keep hI hok h := ⟨step_inv hI.1 h, (step_ownerRank hI.1.owner hI.2 hok h).1⟩
  pay hI hok h := (step_ownerRank hI.1.owner hI.2 hok h).2

/-! ## A thief -/

/-- A step during a call of thief `i`: one operation less, or a step of another thread. -/
theorem step_thiefRank (hpc : d.thief i ≠ .idle) (hl : l.isStolen i = false)
    (h : step d l = some d') :
    d'.thief i ≠ .idle ∧
      thiefRank (d'.thief i) + (if l.isThief i then 1 else 0) ≤ thiefRank (d.thief i) := by
  have hsame : ∀ {e : State ι T}, e.thief i = d.thief i →
      e.thief i ≠ .idle ∧ thiefRank (e.thief i) ≤ thiefRank (d.thief i) := by
    intro e he
    rw [he]
    exact ⟨hpc, le_rfl⟩
  cases l with
  | push | pop | pushed | popped =>
    simp only [step] at h
    split at h
    all_goals first
      | (obtain rfl := Option.some.inj h; exact hsame rfl)
      | (split_ifs at h; obtain rfl := Option.some.inj h; exact hsame rfl)
      | exact absurd h (by simp)
  | steal j =>
    simp only [step] at h
    split at h
    · rename_i hidle
      obtain rfl := Option.some.inj h
      have hji : i ≠ j := fun hij => hpc (hij ▸ hidle)
      exact hsame (setThief_of_ne d _ hji)
    · exact absurd h (by simp)
  | stolen j r =>
    have hji : i ≠ j := fun hij => absurd hl (by simp [Label.isStolen, hij])
    simp only [step] at h
    split at h
    all_goals first
      | (split_ifs at h; obtain rfl := Option.some.inj h; exact hsame (setThief_of_ne d _ hji))
      | exact absurd h (by simp)
  | owner => exact hsame (congrFun (stepOwner_frame h).2.1 i)
  | thief j =>
    by_cases hji : j = i
    · subst hji
      obtain ⟨-, -, hne, hlt⟩ := stepThief_rank h
      refine ⟨hne, ?_⟩
      simpa [Label.isThief] using Nat.succ_le_of_lt hlt
    · obtain ⟨-, -, hthief, -⟩ := stepThief_frame h
      simpa [Label.isThief, hji] using hsame (hthief i (Ne.symm hji))

theorem thief_priced (i : ι) : (machine ι T c).Priced (fun d => d.thief i ≠ .idle)
    (fun _ l => l.isStolen i = false) (fun l => if l.isThief i then 1 else 0)
    (fun d => thiefRank (d.thief i)) where
  keep hI hok h := (step_thiefRank hI hok h).1
  pay hI hok h := (step_thiefRank hI hok h).2

/-! ## Neither waits -/

/-- Inside a call the owner has a step to take, unless it is at an allocation that cannot be. -/
theorem owner_next (hi : Inv d) (hpc : d.owner ≠ .idle)
    (hgrow : ∀ item b t, d.owner = .pushBuffer item b t → (d.heap d.buffer).twice.isSome) :
    ∃ l : Label ι T, (l.isOwner ∨ l.isReturn) ∧ (step d l).isSome := by
  cases hown : d.owner with
  | idle => exact absurd hown hpc
  | pushReturn => exact ⟨.pushed, .inr rfl, by simp [step, hown]⟩
  | popNone => exact ⟨.popped none, .inr rfl, by simp [step, hown]⟩
  | popTake ptr =>
    have ho := hi.owner
    simp only [OwnerOk, hown] at ho
    have hheld : held d .owner = ptr := by simp only [held, State.heldOwner, hown]
    obtain ⟨x, hx⟩ := value_of_held hi hheld ho
    obtain ⟨p, rfl⟩ := Option.isSome_iff_exists.mp ho
    have hbox : some x = d.boxes[p]? := hx.symm
    exact ⟨.popped (some x), .inr rfl, by simpa [step, hown] using hbox⟩
  | pushBuffer item b t =>
    refine ⟨.owner, .inl rfl, ?_⟩
    simp only [step, stepOwner, hown]
    split_ifs with hfull
    · simpa using hgrow item b t hown
    · rfl
  | _ =>
    refine ⟨.owner, .inl rfl, ?_⟩
    simp only [step, stepOwner, hown]
    first | rfl | (split_ifs <;> rfl)

theorem thief_next (hi : Inv d) (hpc : d.thief i ≠ .idle) :
    ∃ l : Label ι T, (l.isThief i ∨ l.isStolen i) ∧ (step d l).isSome := by
  cases hth : d.thief i with
  | idle => exact absurd hth hpc
  | stealEmpty | stealLost =>
    exact ⟨.stolen i none, .inr (by simp [Label.isStolen]), by simp [step, hth]⟩
  | stealTake ptr =>
    have ho := hi.thief i
    rw [hth] at ho
    have hheld : held d (.thief i) = ptr := by simp only [held, ThiefPc.held, hth]
    obtain ⟨x, hx⟩ := value_of_held hi hheld ho
    obtain ⟨p, rfl⟩ := Option.isSome_iff_exists.mp ho
    have hbox : some x = d.boxes[p]? := hx.symm
    exact ⟨.stolen i (some x), .inr (by simp [Label.isStolen]), by simpa [step, hth] using hbox⟩
  | _ =>
    refine ⟨.thief i, .inl (by simp [Label.isThief]), ?_⟩
    simp only [step, stepThief, hth]
    first | rfl | (split_ifs <;> rfl)

/-! ## Calls step by step -/

/-- The steps left of a `pop`, its call and its return included. -/
def popLeft (d : State ι T) : ℕ :=
  match d.owner with
  | .idle => 9
  | _ => ownerRank d + 1

/-- The steps left of a `steal`, its call and its return included. -/
def stealLeft : ThiefPc → ℕ
  | .idle => 7
  | pc => thiefRank pc + 1

omit [DecidableEq ι] [DecidableEq T] in
theorem popLeft_of_ne (h : d.owner ≠ .idle) : popLeft d = ownerRank d + 1 := by
  unfold popLeft
  split
  · rename_i hidle
    exact absurd hidle h
  · rfl

theorem stealLeft_of_ne {pc : ThiefPc} (h : pc ≠ .idle) : stealLeft pc = thiefRank pc + 1 := by
  cases pc with
  | idle => exact absurd rfl h
  | _ => rfl

theorem stealLeft_le (pc : ThiefPc) : stealLeft pc ≤ 7 := by
  cases pc <;> simp [stealLeft, thiefRank]

theorem stealLeft_pos (pc : ThiefPc) : 0 < stealLeft pc := by
  cases pc <;> simp [stealLeft, thiefRank]

omit [DecidableEq ι] [DecidableEq T] in
theorem popLeft_pos (d : State ι T) : 0 < popLeft d := by
  unfold popLeft
  split <;> omega

omit [DecidableEq ι] [DecidableEq T] in
/-- The deque of an owner that does not push. -/
theorem popLeft_le (h : (toAtomic d).owner = .idle ∨ (toAtomic d).owner = .popping ∨
    ∃ r, (toAtomic d).owner = .popped r) : popLeft d ≤ 9 := by
  have h : ownerStatus d d.owner = .idle ∨ ownerStatus d d.owner = .popping ∨
    ∃ r, ownerStatus d d.owner = .popped r := h
  unfold popLeft ownerRank
  cases hpc : d.owner <;> simp [hpc, ownerStatus] at h ⊢

omit [DecidableEq ι] [DecidableEq T] in
/-- Other threads leave it no more. -/
theorem popLeft_mono (ho : d'.owner = d.owner) (htop : d.top ≤ d'.top)
    (hbot : d'.bottom = d.bottom) : popLeft d' ≤ popLeft d := by
  by_cases hidle : d.owner = .idle
  · simp only [popLeft, ho, hidle, le_refl]
  · rw [popLeft_of_ne hidle, popLeft_of_ne (ho ▸ hidle)]
    exact Nat.succ_le_succ (ownerRank_mono ho htop hbot)

variable {r : Option (Option T)}

/-- A step of a `pop`. -/
theorem popStep_left (hi : Inv d) (h : popStep d = some (d', r)) :
    d'.thief = d.thief ∧ (r = none → popLeft d' < popLeft d) := by
  unfold popStep at h
  split at h
  · rename_i hpc
    obtain ⟨e, he, hq⟩ := Option.map_eq_some_iff.mp h
    obtain ⟨rfl, rfl⟩ := Prod.mk.inj hq
    simp only [step, hpc, Option.some.injEq] at he
    subst he
    exact ⟨rfl, fun _ => by simp [popLeft, hpc, ownerRank]⟩
  · rename_i hpc
    obtain ⟨e, he, hq⟩ := Option.map_eq_some_iff.mp h
    obtain ⟨rfl, rfl⟩ := Prod.mk.inj hq
    simp only [step, hpc, if_true, Option.some.injEq] at he
    subst he
    exact ⟨rfl, fun h => absurd h (by simp)⟩
  · rename_i p hpc
    obtain ⟨e, he, hq⟩ := Option.map_eq_some_iff.mp h
    obtain ⟨rfl, rfl⟩ := Prod.mk.inj hq
    simp only [step, hpc, and_true] at he
    split_ifs at he
    obtain rfl := Option.some.inj he
    exact ⟨rfl, fun h => absurd h (by simp)⟩
  · rename_i hidle _ _
    obtain ⟨e, he, hq⟩ := Option.map_eq_some_iff.mp h
    obtain ⟨rfl, rfl⟩ := Prod.mk.inj hq
    obtain ⟨hne, hlt⟩ := stepOwner_rank hi.owner he
    refine ⟨(stepOwner_frame he).2.1, fun _ => ?_⟩
    rw [popLeft_of_ne hne, popLeft_of_ne hidle]
    omega

/-- A step of a `steal`. -/
theorem stealStep_left (h : stealStep d i = some (d', r)) :
    d'.owner = d.owner ∧ d.top ≤ d'.top ∧ d'.bottom = d.bottom ∧
      (∀ j, j ≠ i → d'.thief j = d.thief j) ∧
      (r = none → stealLeft (d'.thief i) < stealLeft (d.thief i)) := by
  have hmap : ∀ {l : Label ι T} {q : Option (Option T)},
      (step d l).map (·, q) = some (d', r) → step d l = some d' ∧ r = q := by
    intro l q h
    obtain ⟨e, he, hq⟩ := Option.map_eq_some_iff.mp h
    obtain ⟨rfl, rfl⟩ := Prod.mk.inj hq
    exact ⟨he, rfl⟩
  unfold stealStep at h
  cases hpc : d.thief i with
  | idle =>
    rw [hpc] at h
    obtain ⟨he, rfl⟩ := hmap h
    simp only [step, hpc, Option.some.injEq] at he
    subst he
    exact ⟨rfl, le_rfl, rfl, fun j => setThief_of_ne d _, fun _ => by simp [stealLeft, thiefRank]⟩
  | stealTop | stealBottom | stealBuffer | stealSlot | stealCas =>
    rw [hpc] at h
    obtain ⟨he, rfl⟩ := hmap h
    obtain ⟨-, ho, hother, -⟩ := stepThief_frame he
    obtain ⟨htop, hbot, hne, hlt⟩ := stepThief_rank he
    refine ⟨ho, htop, hbot, hother, fun _ => ?_⟩
    rw [hpc] at hlt
    rw [stealLeft_of_ne hne, stealLeft_of_ne (by simp)]
    omega
  | stealEmpty | stealLost =>
    rw [hpc] at h
    obtain ⟨he, rfl⟩ := hmap h
    simp only [step, hpc, if_true, Option.some.injEq] at he
    subst he
    exact ⟨rfl, le_rfl, rfl, fun j => setThief_of_ne d _, fun h => absurd h (by simp)⟩
  | stealTake ptr =>
    rw [hpc] at h
    cases ptr with
    | none =>
      obtain ⟨he, rfl⟩ := hmap h
      simp only [step, hpc, if_true, Option.some.injEq] at he
      subst he
      exact ⟨rfl, le_rfl, rfl, fun j => setThief_of_ne d _, fun h => absurd h (by simp)⟩
    | some p =>
      obtain ⟨he, rfl⟩ := hmap h
      simp only [step, hpc, and_true] at he
      split_ifs at he
      obtain rfl := Option.some.inj he
      exact ⟨rfl, le_rfl, rfl, fun j => setThief_of_ne d _, fun h => absurd h (by simp)⟩

/-- A `pop` can always go on. -/
theorem popStep_isSome (hi : Inv d) (h : (toAtomic d).owner = .idle ∨
    (toAtomic d).owner = .popping ∨ ∃ r, (toAtomic d).owner = .popped r) :
    (popStep d).isSome := by
  have h : ownerStatus d d.owner = .idle ∨ ownerStatus d d.owner = .popping ∨
    ∃ r, ownerStatus d d.owner = .popped r := h
  unfold popStep
  cases hpc : d.owner with
  | popTake ptr =>
    have ho := hi.owner
    simp only [OwnerOk, hpc] at ho
    have hheld : held d .owner = ptr := by simp only [held, State.heldOwner, hpc]
    obtain ⟨x, hx⟩ := value_of_held hi hheld ho
    obtain ⟨p, rfl⟩ := Option.isSome_iff_exists.mp ho
    have hbox : d.boxes[p]? = some x := hx
    simp [step, hpc, hbox]
  | popTop | popSlot | popCas =>
    simp only [step, stepOwner, hpc, Option.isSome_map]
    split_ifs <;> rfl
  | idle | popNone | popBottom | popBuffer | popLower | popRestore | popRaise =>
    simp [step, stepOwner, hpc]
  | _ => simp [hpc, ownerStatus] at h

theorem stealStep_isSome (hi : Inv d) (i : ι) : (stealStep d i).isSome := by
  unfold stealStep
  cases hpc : d.thief i with
  | stealTake ptr =>
    have ho := hi.thief i
    rw [hpc] at ho
    have hheld : held d (.thief i) = ptr := by simp only [held, ThiefPc.held, hpc]
    obtain ⟨x, hx⟩ := value_of_held hi hheld ho
    obtain ⟨p, rfl⟩ := Option.isSome_iff_exists.mp ho
    have hbox : d.boxes[p]? = some x := hx
    simp [step, hpc, hbox]
  | stealBottom | stealCas =>
    simp only [step, stepThief, hpc, Option.isSome_map]
    split_ifs <;> rfl
  | _ => simp [step, stepThief, hpc]

/-! ## The result -/

/-- **Every operation of the deque is wait-free.** From a call that begins in a reachable state to
its return, whatever the other threads do meanwhile, a `push` makes `7` atomic operations and two
for each item in the deque at most, a `pop` `7` and a `steal` `5`. A thread inside a call always has
its next operation or its return to make, but for a `push` whose new buffer no vector can hold. -/
theorem wait_free {tr : List (Label ι T)} (h₀ : (machine ι T c).Reachable d₀) :
    (∀ item, step d₀ (.push item) = some d₁ →
      (machine ι T c).Path (fun _ l => l.isReturn = false) d₁ tr d →
      tr.countP Label.isOwner ≤ 2 * (remaining d₀).length + 7) ∧
    (step d₀ .pop = some d₁ → (machine ι T c).Path (fun _ l => l.isReturn = false) d₁ tr d →
      tr.countP Label.isOwner ≤ 7) ∧
    (∀ i, step d₀ (.steal i) = some d₁ →
      (machine ι T c).Path (fun _ l => l.isStolen i = false) d₁ tr d →
      tr.countP (Label.isThief i) ≤ 5) ∧
    (d₀.owner ≠ .idle →
      (∀ item b t, d₀.owner = .pushBuffer item b t → (d₀.heap d₀.buffer).twice.isSome) →
      ∃ l : Label ι T, (l.isOwner ∨ l.isReturn) ∧ (step d₀ l).isSome) ∧
    (∀ i, d₀.thief i ≠ .idle → ∃ l : Label ι T, (l.isThief i ∨ l.isStolen i) ∧
      (step d₀ l).isSome) := by
  have hi := reachable_inv h₀
  refine ⟨fun item h hp => ?_, fun h hp => ?_, fun i h hp => ?_, owner_next hi,
    fun i => thief_next hi⟩
  · have hi₁ := step_inv hi h
    simp only [step] at h
    split at h
    · obtain rfl := Option.some.inj h
      simpa only [ownerRank, remaining, length_slice] using
        owner_priced.countP_le hp ⟨hi₁, by simp⟩
    · exact absurd h (by simp)
  · have hi₁ := step_inv hi h
    simp only [step] at h
    split at h
    · obtain rfl := Option.some.inj h
      simpa only [ownerRank] using owner_priced.countP_le hp ⟨hi₁, by simp⟩
    · exact absurd h (by simp)
  · simp only [step] at h
    split at h
    · obtain rfl := Option.some.inj h
      have hcount := (thief_priced i).countP_le hp (by simp)
      simpa only [setThief_self, thiefRank] using hcount
    · exact absurd h (by simp)

/-- A second `push`, which has to grow a buffer of one slot, and a `steal` at the same time. -/
def grownPush : List (Label (Fin 1) ℕ) :=
  let i : Fin 1 := ⟨0, Nat.one_pos⟩
  [.owner, .owner, .steal i, .owner, .owner, .thief i, .owner, .owner, .owner, .owner, .owner]

theorem wait_free_grownPush : ∃ d₀ d₁ d : State (Fin 1) ℕ,
    (machine (Fin 1) ℕ 1).Reachable d₀ ∧ step d₀ (.push 8) = some d₁ ∧
    (machine (Fin 1) ℕ 1).exec d₁ grownPush = some d ∧
    grownPush.countP Label.isOwner ≤ 2 * (remaining d₀).length + 7 ∧ (remaining d₀).length = 1 ∧
    grownPush.countP Label.isOwner = 9 := by
  let s : State (Fin 1) ℕ := (construct 1).get (by decide)
  let d₀ := ((machine (Fin 1) ℕ 1).exec s
    [.push 7, .owner, .owner, .owner, .owner, .owner, .pushed]).get (by decide)
  let d₁ := (step d₀ (.push 8)).get (by decide)
  let d := ((machine (Fin 1) ℕ 1).exec d₁ grownPush).get (by decide)
  have hs : construct 1 = some s := (Option.some_get _).symm
  have h₀ : (machine (Fin 1) ℕ 1).Reachable d₀ :=
    ⟨_, s, hs, Machine.exec_path (Option.some_get _).symm⟩
  have h₁ : step d₀ (.push 8) = some d₁ := (Option.some_get _).symm
  have hex : (machine (Fin 1) ℕ 1).exec d₁ grownPush = some d := (Option.some_get _).symm
  have hret : ∀ l ∈ grownPush, l.isReturn = false := by decide
  have hp : (machine (Fin 1) ℕ 1).Path (fun _ l => l.isReturn = false) d₁ grownPush d :=
    (Machine.exec_path hex).mem.mono fun _ l h => hret l h.2
  exact ⟨d₀, d₁, d, h₀, h₁, hex, (wait_free h₀).1 8 h₁ hp, by decide, by decide⟩

end Wss.ChaseLev
