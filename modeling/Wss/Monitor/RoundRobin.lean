import Wss.Monitor.Target
import Mathlib.Data.Int.CardIntervalMod

/-!
# Jobs without a hint are spread evenly

A job that names no core goes to the one of its ticket, the ticket modulo `2 ^ 64` and then modulo
the number of cores. Each job draws one ticket at most, so what the cores are sent is counted by the
residues of the tickets drawn so far.

Results:
* `ticketCount_le`: the tickets of two cores differ by one, and one more for each time `next_` has
  come around to `0`.
* `reachable_drawn`: no job draws two.
* `round_robin_balanced`: so no core is sent more jobs than another one, but for these.
-/

namespace Wss.Monitor

open Wss.Lib

/-! ## Counting residues -/

/-- How many of the first `T` tickets are those of core `k`, if `next_` comes around after `W`. -/
def ticketCount (W N T k : ℕ) : ℕ := Nat.count (fun t => t % W % N = k) T

variable {W N T : ℕ}

/-- Before `next_` comes around. -/
theorem ticketCount_of_le (hN : 0 < N) (hT : T ≤ W) {k : ℕ} (hk : k < N) :
    ticketCount W N T k = T / N + if k < T % N then 1 else 0 := by
  have hcount := Nat.count_modEq_card T hN k
  rw [Nat.mod_eq_of_lt hk] at hcount
  rw [← hcount, ticketCount, Nat.count_eq_card_filter_range, Nat.count_eq_card_filter_range]
  refine congrArg Finset.card (Finset.filter_congr fun t ht => ?_)
  have htW : t < W := (Finset.mem_range.mp ht).trans_le hT
  rw [Nat.mod_eq_of_lt htW, Nat.ModEq, Nat.mod_eq_of_lt hk]

/-- Once around. -/
theorem ticketCount_add (T k : ℕ) :
    ticketCount W N (T + W) k = ticketCount W N T k + ticketCount W N W k := by
  unfold ticketCount
  rw [Nat.count_add']
  simp only [Nat.add_mod_right]

/-- **Two cores differ by one, and by one more for each time around.** -/
theorem ticketCount_le (hN : 0 < N) (hW : 0 < W) {j k : ℕ} (hj : j < N) (hk : k < N) (T : ℕ) :
    ticketCount W N T j ≤ ticketCount W N T k + T / W + 1 := by
  have hbase : ∀ T ≤ W, ticketCount W N T j ≤ ticketCount W N T k + 1 := fun T hT => by
    rw [ticketCount_of_le hN hT hj, ticketCount_of_le hN hT hk]
    split_ifs <;> omega
  induction T using Nat.strong_induction_on with
  | _ T ih =>
    by_cases hT : T < W
    · exact (hbase T hT.le).trans (Nat.add_le_add_right (Nat.le_add_right _ _) 1)
    · obtain ⟨T', rfl⟩ := Nat.exists_eq_add_of_le' (Nat.le_of_not_lt hT)
      have hprev := ih T' (by omega)
      have hround := hbase W le_rfl
      rw [ticketCount_add, ticketCount_add, Nat.add_div_right T' hW]
      omega

/-- In a list without duplicates, positions are counted like elements. -/
theorem countP_idxOf (p : ℕ → Bool) : ∀ {l : List ℕ}, l.Nodup →
    l.countP (fun x => p (l.idxOf x)) = Nat.count (fun t => p t = true) l.length := by
  intro l
  induction l using List.reverseRecOn with
  | nil => exact fun _ => rfl
  | append_singleton l x ih =>
    intro hl
    obtain ⟨hl', -, hx⟩ := List.nodup_append.mp hl
    have hnot : x ∉ l := fun h => hx x h x (List.mem_singleton_self x) rfl
    have hold : l.countP (fun y => p ((l ++ [x]).idxOf y)) = l.countP fun y => p (l.idxOf y) :=
      List.countP_congr fun y hy => by rw [List.idxOf_append_of_mem hy]
    have hnew : (l ++ [x]).idxOf x = l.length := by
      rw [List.idxOf_append_of_notMem hnot, List.idxOf_cons_self, Nat.add_zero]
    rw [List.countP_append, hold, ih hl', List.countP_singleton, hnew, List.length_append,
      List.length_singleton, Nat.count_succ]

/-! ## The tickets of a run -/

variable {K : ℕ} {Q ω : Type} {L : Layout N K Q} {s s' : State N K Q ω}

/-- Each job has drawn one ticket at most, and had no hint. -/
structure Drawn (L : Layout N K Q) (s : State N K Q ω) : Prop where
  nodup : s.tickets.Nodup
  unhinted : ∀ job ∈ s.tickets, (s.submitted[job]?).bind L.hinted = none

/-- A call of `submit` draws a ticket, or leaves them alone. -/
theorem Submitting.drawn {t : Thread N ω} {call : SubmitPc K} {call' : Option (SubmitPc K)}
    (h : Submitting L s t call s' call') : s'.submitted = s.submitted ∧
      (s'.tickets = s.tickets ∨ ∃ job p, call = .ticket job p ∧
        s'.tickets = s.tickets ++ [job]) := by
  cases h with
  | ticket => exact ⟨rfl, .inr ⟨_, _, rfl, rfl⟩⟩
  | lock | push | unlock | notifyNone | notify | done => exact ⟨rfl, .inl rfl⟩

/-- A step that draws no ticket. -/
theorem Drawn.same (hd : Drawn L s) (ht : Targets L s) {opts : List SubmitOptions}
    (hsub : s'.submitted = s.submitted ++ opts) (htic : s'.tickets = s.tickets) : Drawn L s' := by
  refine ⟨htic ▸ hd.nodup, fun job hjob => ?_⟩
  rw [htic] at hjob
  rw [hsub, List.getElem?_append_left (ht.tickets job hjob)]
  exact hd.unhinted job hjob

/-- A step of the call of `submit` that thread `t` is in. -/
theorem Drawn.call (hd : Drawn L s) (ht : Targets L s) {t : Thread N ω} {call : SubmitPc K}
    (hcall : s.call t = some call) (hsub : s'.submitted = s.submitted)
    (htic : s'.tickets = s.tickets ∨ ∃ job p, call = .ticket job p ∧
      s'.tickets = s.tickets ++ [job]) : Drawn L s' := by
  rcases htic with htic | ⟨job, p, rfl, htic⟩
  · exact hd.same ht (hsub.trans (List.append_nil _).symm) htic
  · obtain ⟨hnew, opts, ho, -, hhint⟩ := ht.calls t _ hcall
    refine ⟨?_, fun j hj => ?_⟩
    · rw [htic]
      have hconcat := hd.nodup.concat hnew
      rwa [List.concat_eq_append] at hconcat
    · rw [htic, List.mem_append, List.mem_singleton] at hj
      rw [hsub]
      rcases hj with hj | rfl
      · exact hd.unhinted j hj
      · rw [ho]
        exact hhint

variable [DecidableEq ω] {l : Label N ω}

/-- **Every step keeps the tickets apart.** -/
theorem Move.drawn (h : Move L s l s') (ht : Targets L s) (hd : Drawn L s) : Drawn L s' := by
  have hnil : s.submitted = s.submitted ++ [] := (List.append_nil _).symm
  cases h with
  | client | nested => exact hd.same ht rfl rfl
  | @clientStep c wakes call call' s₁ hc hsub =>
    exact hd.call ht (t := .inr c) hc hsub.drawn.1 hsub.drawn.2
  | @nestedStep w wakes job call call' s₁ hpc hsub =>
    exact hd.call ht (t := .inl w) (by simp only [State.call, hpc, WorkerPc.call]) hsub.drawn.1
      hsub.drawn.2
  | _ => exact hd.same ht hnil rfl

theorem reachable_drawn [Fintype ω] (h : (machine L ω).Reachable s) : Drawn L s := by
  refine h.invariant (fun s hs => ?_) fun _ _ _ hr _ hst hd =>
    (step_move hst).drawn (reachable_targets hr) hd
  simp only [machine, construct] at hs
  split_ifs at hs
  obtain rfl := Option.some.inj hs
  exact ⟨List.nodup_nil, fun _ hj => absurd hj List.not_mem_nil⟩

/-! ## Balance -/

/-- The jobs that a ticket has sent to core `k`. -/
def State.sentTo [NeZero N] (s : State N N CoreQueues ω) (k : Fin N) : List ℕ :=
  s.tickets.filter fun job => s.target (threadPerCore N) job = some k

omit [DecidableEq ω] in
/-- A ticket sends its job to the core of its residue. -/
theorem length_sentTo [NeZero N] {s : State N N CoreQueues ω} (hd : Drawn (threadPerCore N) s)
    (ht : Targets (threadPerCore N) s) (k : Fin N) :
    (s.sentTo k).length = ticketCount (2 ^ 64) N s.tickets.length k := by
  have hcount := countP_idxOf (fun t => decide (t % 2 ^ 64 % N = k)) hd.nodup
  simp only [decide_eq_true_eq] at hcount
  unfold State.sentTo ticketCount
  rw [← List.countP_eq_length_filter, ← hcount]
  refine List.countP_congr fun job hjob => ?_
  have hlt := ht.tickets job hjob
  have hhint : (threadPerCore N).hinted (s.submitted[job]) = none := by
    have hnone := hd.unhinted job hjob
    rwa [List.getElem?_eq_getElem hlt, Option.bind_some] at hnone
  have htarget : s.target (threadPerCore N) job =
      some ((threadPerCore N).ticketed (s.tickets.idxOf job % 2 ^ 64)) := by
    unfold State.target
    rw [List.getElem?_eq_getElem hlt, Option.bind_some, hhint]
    exact if_pos hjob
  rw [htarget, decide_eq_true_eq, decide_eq_true_eq, Option.some_inj]
  exact Fin.ext_iff

/-- **Round-robin is balanced.** For every number of cores and every interleaving: of the jobs that
named no core, at most one more was sent to a core than to another one, and one more for each time
`next_` has come around to `0`. -/
theorem round_robin_balanced [NeZero N] [Fintype ω] {s : State N N CoreQueues ω}
    (h : (machine (threadPerCore N) ω).Reachable s) (j k : Fin N) :
    (s.sentTo j).length ≤ (s.sentTo k).length + s.next / 2 ^ 64 + 1 := by
  have ht := reachable_targets h
  have hd := reachable_drawn h
  rw [length_sentTo hd ht, length_sentTo hd ht, ht.next]
  exact ticketCount_le (Nat.pos_of_neZero N) (by omega) j.isLt k.isLt _

/-- On two cores, three jobs without a hint one after another. -/
def threeUnhinted : List (Label 2 Unit) :=
  (List.replicate 3 (.client () ⟨.normal, none⟩ :: List.replicate 6 (.clientStep () none))).flatten

theorem round_robin_balanced_three : ∃ s : State 2 2 CoreQueues Unit,
    s.sentTo ⟨0, Nat.two_pos⟩ = [0, 2] ∧ s.sentTo ⟨1, Nat.one_lt_two⟩ = [1] ∧
      (s.sentTo ⟨0, Nat.two_pos⟩).length ≤ (s.sentTo ⟨1, Nat.one_lt_two⟩).length + 1 := by
  let L := threadPerCore 2
  let s₀ : State 2 2 CoreQueues Unit := (construct L Unit).get (by decide)
  let s := ((machine L Unit).exec s₀ threeUnhinted).get (by decide +kernel)
  have hreach : (machine L Unit).Reachable s :=
    Machine.reachable_of_exec (Option.some_get _).symm (Option.some_get _).symm
  have hround : s.next / 2 ^ 64 = 0 := by decide +kernel
  have hle := round_robin_balanced hreach ⟨0, Nat.two_pos⟩ ⟨1, Nat.one_lt_two⟩
  rw [hround] at hle
  exact ⟨s, by decide +kernel, by decide +kernel, hle⟩

end Wss.Monitor
