import Mathlib.Data.List.Sort

/-!
# `std::multimap` as a sorted list

The entries in iteration order. `insertEntry` puts an entry behind those with an equal key, which is
what `std::multimap::insert` does; `begin` is the head of the list. `valuesAt k m` are the values of
one key, in the order of the list.

Results:
* `insertEntry_split`, `Ascending.insert`: where an entry goes, and the list stays ascending.
* `perm_valuesAt`, `count_valuesAt`: what the values of one key say of the whole.
-/

namespace Wss.Lib

universe u v

variable {κ : Type u} {α : Type v}

/-- `multimap::insert({k, a})`. -/
def insertEntry [LT κ] [DecidableLT κ] (k : κ) (a : α) (m : List (κ × α)) : List (κ × α) :=
  m.orderedInsert (fun x y => x.1 < y.1) (k, a)

/-- The keys ascend. -/
def Ascending [LE κ] (m : List (κ × α)) : Prop := m.Pairwise fun x y => x.1 ≤ y.1

theorem perm_insertEntry [LT κ] [DecidableLT κ] (k : κ) (a : α) (m : List (κ × α)) :
    (insertEntry k a m).Perm ((k, a) :: m) :=
  List.perm_orderedInsert _ _ _

@[simp] theorem mem_insertEntry [LT κ] [DecidableLT κ] {k : κ} {a : α} {m : List (κ × α)}
    {x : κ × α} : x ∈ insertEntry k a m ↔ x = (k, a) ∨ x ∈ m :=
  List.mem_orderedInsert _

/-- An entry goes behind the keys that are not greater. -/
theorem insertEntry_behind [LT κ] [DecidableLT κ] {k : κ} {a : α} {m m' : List (κ × α)}
    (hle : ∀ x ∈ m, ¬ k < x.1) : insertEntry k a (m ++ m') = m ++ insertEntry k a m' := by
  unfold insertEntry
  induction m with
  | nil => rfl
  | cons x m ih =>
    rw [List.cons_append, List.orderedInsert_cons, if_neg (hle x List.mem_cons_self),
      ih fun y hy => hle y (List.mem_cons_of_mem _ hy), List.cons_append]

/-- An entry goes before the keys that are greater. -/
theorem insertEntry_append [LT κ] [DecidableLT κ] {k : κ} {a : α} {m m' : List (κ × α)}
    (hle : ∀ x ∈ m, ¬ k < x.1) (hlt : ∀ x ∈ m', k < x.1) :
    insertEntry k a (m ++ m') = m ++ (k, a) :: m' := by
  rw [insertEntry_behind hle]
  cases m' with
  | nil => rfl
  | cons x m' =>
    rw [insertEntry, List.orderedInsert_cons, if_pos (hlt x List.mem_cons_self)]

/-- Insertion splits the entries in two. -/
theorem insertEntry_split [LT κ] [DecidableLT κ] (k : κ) (a : α) (m : List (κ × α)) :
    ∃ before after, m = before ++ after ∧ insertEntry k a m = before ++ (k, a) :: after :=
  ⟨_, _, List.takeWhile_append_dropWhile.symm, List.orderedInsert_eq_take_drop _ _ _⟩

variable [LinearOrder κ] {k : κ} {a : α} {m : List (κ × α)}

/-- Insertion keeps the order of the keys. -/
theorem Ascending.insert (h : Ascending m) (k : κ) (a : α) : Ascending (insertEntry k a m) := by
  induction m with
  | nil => exact List.pairwise_singleton _ _
  | cons x m ih =>
    obtain ⟨hx, hm⟩ := List.pairwise_cons.mp h
    unfold insertEntry at ih ⊢
    rw [List.orderedInsert_cons]
    split_ifs with hlt
    · refine List.pairwise_cons.mpr ⟨fun y hy => ?_, h⟩
      rcases List.mem_cons.mp hy with rfl | hy
      · exact hlt.le
      · exact hlt.le.trans (hx y hy)
    · refine List.pairwise_cons.mpr ⟨fun y hy => ?_, ih hm⟩
      rcases mem_insertEntry.mp hy with rfl | hy
      · exact not_lt.mp hlt
      · exact hx y hy

/-- The first key is a least one. -/
theorem Ascending.head_le (h : Ascending ((k, a) :: m)) {x : κ × α} (hx : x ∈ (k, a) :: m) :
    k ≤ x.1 := by
  rcases List.mem_cons.mp hx with rfl | hx
  · exact le_rfl
  · exact (List.pairwise_cons.mp h).1 x hx

theorem Ascending.tail {x : κ × α} (h : Ascending (x :: m)) : Ascending m :=
  (List.pairwise_cons.mp h).2

/-! ## The values of one key -/

section

variable {κ : Type u} [DecidableEq κ] {k j : κ} {a : α} {m m' : List (κ × α)}

/-- The values that a list of pairs has for a key. -/
def valuesAt (k : κ) (m : List (κ × α)) : List α :=
  m.filterMap fun x => if x.1 = k then some x.2 else none

@[simp] theorem valuesAt_nil : valuesAt k ([] : List (κ × α)) = [] := rfl

@[simp] theorem valuesAt_append : valuesAt k (m ++ m') = valuesAt k m ++ valuesAt k m' :=
  List.filterMap_append

@[simp] theorem valuesAt_self : valuesAt k [(k, a)] = [a] := by
  simp [valuesAt]

theorem valuesAt_of_ne (h : j ≠ k) : valuesAt k [(j, a)] = [] := by
  simp [valuesAt, h]

theorem mem_valuesAt : a ∈ valuesAt k m ↔ (k, a) ∈ m := by
  simp only [valuesAt, List.mem_filterMap]
  constructor
  · rintro ⟨⟨k', a'⟩, hx, he⟩
    split_ifs at he with hk
    obtain rfl := Option.some.inj he
    obtain rfl : k' = k := hk
    exact hx
  · exact fun h => ⟨(k, a), h, if_pos rfl⟩

theorem count_valuesAt [DecidableEq α] : (valuesAt k m).count a = m.count (k, a) := by
  induction m with
  | nil => rfl
  | cons x m ih =>
    obtain ⟨k', a'⟩ := x
    have hcons : valuesAt k ((k', a') :: m) = valuesAt k [(k', a')] ++ valuesAt k m :=
      valuesAt_append (m := [(k', a')])
    rw [hcons, List.count_append, ih, List.count_cons]
    by_cases hk : k' = k
    · subst hk
      rw [valuesAt_self, List.count_singleton, Nat.add_comm]
      by_cases ha : a' = a <;> simp [ha]
    · rw [valuesAt_of_ne hk]
      simp [hk]

theorem length_valuesAt : (valuesAt k m).length = m.countP fun x => x.1 = k := by
  induction m with
  | nil => rfl
  | cons x m ih =>
    have hcons : valuesAt k (x :: m) = valuesAt k [x] ++ valuesAt k m :=
      valuesAt_append (m := [x])
    rw [hcons, List.length_append, ih, List.countP_cons, Nat.add_comm]
    by_cases hk : x.1 = k <;> simp [valuesAt, hk]

theorem valuesAt_map {β : Type v} (f : α → β) :
    valuesAt k (m.map fun x => (x.1, f x.2)) = (valuesAt k m).map f := by
  unfold valuesAt
  rw [List.filterMap_map, List.map_filterMap]
  congr 1
  funext x
  simp only [Function.comp]
  split_ifs <;> rfl

theorem perm_valuesAt (h : m.Perm m') : (valuesAt k m).Perm (valuesAt k m') := h.filterMap _

end

end Wss.Lib
