import Mathlib.Data.List.Basic

/-!
# Stores in flight

A thread issues its stores in program order, and each arrives in memory some time later. Stores to
one location arrive in the order they were issued in. A release store arrives after every store
issued before it, and any other may overtake those to other locations.

* `Stores`: where a store goes, whether it is a release, and what its arrival does to memory.
* `arrive flight m k`: the `k`-th store in flight arrives, `none` where it may not.
* `drain flight m`: memory once all have arrived.
* `Along P flight m`: `P` holds of memory and of the stores still in flight now, and would after
  each arrival in program order.

Results:
* `arrive_drain`: which store arrives first is no matter in the end.
* `Along.issue`, `Along.arrive`: the rules for a store that is issued and one that arrives. Only a
  store that is no release has to be looked at there.
-/

namespace Wss.Lib

universe u v w

/-- What the stores `W` do to a memory `M` with the locations `L`. -/
structure Stores (W : Type u) (L : Type v) (M : Type w) where
  location : W → L
  release : W → Bool
  perform : W → M → M
  comm : ∀ {x y : W}, location x ≠ location y →
    ∀ m, perform x (perform y m) = perform y (perform x m)

namespace Stores

variable {W : Type u} {L : Type v} {M : Type w} (S : Stores W L M)

/-- Memory once the stores in flight have arrived. -/
def drain : List W → M → M
  | [], m => m
  | x :: flight, m => drain flight (S.perform x m)

/-- `P` holds of memory and the stores in flight, however many of these arrive in program order. -/
def Along (P : M → List W → Prop) : List W → M → Prop
  | [], m => P m []
  | x :: flight, m => P m (x :: flight) ∧ Along P flight (S.perform x m)

/-- The `k`-th store in flight arrives: the stores in flight and memory afterwards. -/
def arrive [DecidableEq L] (flight : List W) (m : M) (k : ℕ) : Option (List W × M) :=
  flight[k]?.bind fun x =>
    if (∀ y ∈ flight.take k, S.location y ≠ S.location x) ∧ (S.release x → k = 0) then
      some (flight.eraseIdx k, S.perform x m)
    else none

variable {S} {P Q : M → List W → Prop} {x : W} {xs ys flight flight' : List W} {m m' : M} {k : ℕ}

/-! ## `drain` -/

theorem drain_append : S.drain (xs ++ ys) m = S.drain ys (S.drain xs m) := by
  induction xs generalizing m with
  | nil => rfl
  | cons x xs ih => exact ih

/-- A store that overtakes others leaves memory as if it had not. -/
theorem drain_perform (h : ∀ y ∈ xs, S.location y ≠ S.location x) :
    S.drain xs (S.perform x m) = S.perform x (S.drain xs m) := by
  induction xs generalizing m with
  | nil => rfl
  | cons y xs ih =>
    rw [drain, drain, S.comm (h y List.mem_cons_self)]
    exact ih fun z hz => h z (List.mem_cons_of_mem _ hz)

/-- **What an arrival is**: of a store that overtakes only those to other locations, and none where
it is a release. -/
theorem arrive_eq_some [DecidableEq L] (h : S.arrive flight m k = some (flight', m')) :
    ∃ xs x ys, flight = xs ++ x :: ys ∧ flight' = xs ++ ys ∧ m' = S.perform x m ∧
      (∀ y ∈ xs, S.location y ≠ S.location x) ∧ (S.release x → xs = []) := by
  obtain ⟨x, hx, h⟩ := Option.bind_eq_some_iff.mp h
  obtain ⟨hlt, rfl⟩ := List.getElem?_eq_some_iff.mp hx
  split_ifs at h with harr
  obtain ⟨rfl, rfl⟩ := Prod.mk.inj (Option.some.inj h)
  refine ⟨flight.take k, flight[k], flight.drop (k + 1), ?_, List.eraseIdx_eq_take_drop_succ ..,
    rfl, harr.1, fun hrel => by rw [harr.2 hrel, List.take_zero]⟩
  rw [List.getElem_cons_drop, List.take_append_drop]

/-- **Memory is the same in the end, whichever store arrives first.** -/
theorem arrive_drain [DecidableEq L] (h : S.arrive flight m k = some (flight', m')) :
    S.drain flight' m' = S.drain flight m := by
  obtain ⟨xs, x, ys, rfl, rfl, rfl, hloc, -⟩ := arrive_eq_some h
  rw [drain_append, drain_append, drain_perform hloc, drain]

/-! ## `Along` -/

theorem Along.now (h : S.Along P flight m) : P m flight := by
  cases flight with
  | nil => exact h
  | cons x flight => exact h.1

theorem Along.drained (h : S.Along P flight m) : P (S.drain flight m) [] := by
  induction flight generalizing m with
  | nil => exact h
  | cons x flight ih => exact ih h.2

theorem Along.imp (hPQ : ∀ m ys, P m ys → Q m ys) (h : S.Along P flight m) :
    S.Along Q flight m := by
  induction flight generalizing m with
  | nil => exact hPQ _ _ h
  | cons x flight ih => exact ⟨hPQ _ _ h.1, ih h.2⟩

/-- **A store is issued.** -/
theorem Along.issue (hPQ : ∀ m ys, P m ys → Q m (ys ++ [x])) (h : S.Along P flight m)
    (hQ : Q (S.perform x (S.drain flight m)) []) : S.Along Q (flight ++ [x]) m := by
  induction flight generalizing m with
  | nil => exact ⟨hPQ _ _ h, hQ⟩
  | cons y flight ih => exact ⟨hPQ _ _ h.1, ih h.2 hQ⟩

/-- A step that issues a store or none. -/
theorem Along.issues (hxs : xs.length ≤ 1) (hPQ : ∀ m ys, P m ys → Q m (ys ++ xs))
    (h : S.Along P flight m) (hQ : Q (S.drain (flight ++ xs) m) []) :
    S.Along Q (flight ++ xs) m := by
  cases xs with
  | nil =>
    rw [List.append_nil]
    exact h.imp fun m ys hP => List.append_nil ys ▸ hPQ m ys hP
  | cons x xs =>
    obtain rfl : xs = [] := by simpa using hxs
    rw [drain_append] at hQ
    exact h.issue hPQ hQ

theorem Along.perform (hx : ∀ m zs, P m (zs ++ x :: ys) → P (S.perform x m) (zs ++ ys))
    (hloc : ∀ y ∈ xs, S.location y ≠ S.location x) (h : S.Along P (xs ++ x :: ys) m) :
    S.Along P (xs ++ ys) (S.perform x m) := by
  induction xs generalizing m with
  | nil => exact h.2
  | cons y xs ih =>
    refine ⟨hx m (y :: xs) h.1, ?_⟩
    rw [S.comm (hloc y List.mem_cons_self)]
    exact ih (fun z hz => hloc z (List.mem_cons_of_mem _ hz)) h.2

/-- **A store arrives.** -/
theorem Along.arrive [DecidableEq L]
    (hP : ∀ x, S.release x = false → ∀ m zs ys, P m (zs ++ x :: ys) → P (S.perform x m) (zs ++ ys))
    (h : S.Along P flight m) (ha : S.arrive flight m k = some (flight', m')) :
    S.Along P flight' m' := by
  obtain ⟨xs, x, ys, rfl, rfl, rfl, hloc, hrel⟩ := arrive_eq_some ha
  cases hx : S.release x with
  | false => exact Along.perform (fun m zs => hP x hx m zs ys) hloc h
  | true =>
    rw [hrel hx] at h ⊢
    exact h.2

end Stores

end Wss.Lib
