import Wss.Monitor.Account
import Mathlib.Data.Fintype.BigOperators
import Mathlib.Data.Fintype.Sum

/-!
# The core a job goes to

`State.target`: the core that the options of a job name, or the one of its ticket.

Results:
* `reachable_targets`: a job is pushed to this core, with its own priority, and to no other.
-/

namespace Wss.Monitor

open Wss.Lib

variable {N K : ℕ} {Q ω : Type} {L : Layout N K Q}

/-- The core of a job, once it is settled. -/
def State.target (L : Layout N K Q) (s : State N K Q ω) (job : ℕ) : Option (Fin K) :=
  (s.submitted[job]?).bind fun opts =>
    match L.hinted opts with
    | some k => some k
    | none =>
      if job ∈ s.tickets then some (L.ticketed (s.tickets.idxOf job % 2 ^ 64)) else none

/-- The call of `submit` that a thread is in. -/
def State.call (s : State N K Q ω) : Thread N ω → Option (SubmitPc K)
  | .inl w => (s.worker w).call
  | .inr c => s.client c

/-- Job `job` goes to core `k` with priority `p`. -/
def GoesTo (L : Layout N K Q) (s : State N K Q ω) (job : ℕ) (k : Fin K) (p : Priority) : Prop :=
  s.target L job = some k ∧ (s.submitted[job]?).map (·.priority) = some p

/-- A call of `submit` is on its way to the core of its job. -/
def CallOk (L : Layout N K Q) (s : State N K Q ω) : SubmitPc K → Prop
  | .ticket job p => job ∉ s.tickets ∧ ∃ opts, s.submitted[job]? = some opts ∧
      opts.priority = p ∧ L.hinted opts = none
  | .lock job k p | .push job k p => GoesTo L s job k p
  | .unlock _ _ | .notify _ _ | .done _ => True

/-- Every call of `submit` is on its way to the core of its job, and what was pushed went there. -/
structure Targets (L : Layout N K Q) (s : State N K Q ω) : Prop where
  next : s.next = s.tickets.length
  tickets : ∀ job ∈ s.tickets, job < s.submitted.length
  calls : ∀ t call, s.call t = some call → CallOk L s call
  log : ∀ k p job, (k, .enqueue p job) ∈ s.log → GoesTo L s job k p

variable {s s' : State N K Q ω} {job : ℕ} {k : Fin K} {p : Priority}

/-- What is settled stays so. -/
theorem GoesTo.mono (h : GoesTo L s job k p) {opts : List SubmitOptions} {jobs : List ℕ}
    (hsub : s'.submitted = s.submitted ++ opts) (htic : s'.tickets = s.tickets ++ jobs) :
    GoesTo L s' job k p := by
  obtain ⟨htarget, hp⟩ := h
  obtain ⟨o, ho, rfl⟩ := Option.map_eq_some_iff.mp hp
  have ho' : s'.submitted[job]? = some o := by
    rw [hsub, List.getElem?_append_left (List.getElem?_eq_some_iff.mp ho).1, ho]
  refine ⟨?_, by rw [ho']; rfl⟩
  unfold State.target at htarget ⊢
  rw [ho, Option.bind_some] at htarget
  rw [ho', Option.bind_some]
  split at htarget
  · exact htarget
  · split_ifs at htarget with hmem
    rw [htic, if_pos (List.mem_append_left _ hmem), List.idxOf_append_of_mem hmem]
    exact htarget

/-- The same of a call whose job draws no ticket in between. -/
theorem CallOk.mono {call : SubmitPc K} (h : CallOk L s call) {opts : List SubmitOptions}
    {jobs : List ℕ} (hsub : s'.submitted = s.submitted ++ opts)
    (htic : s'.tickets = s.tickets ++ jobs) (hnot : ∀ job p, call = .ticket job p → job ∉ jobs) :
    CallOk L s' call := by
  cases call with
  | ticket job p =>
    obtain ⟨hmem, o, ho, hp, hh⟩ := h
    refine ⟨?_, o, ?_, hp, hh⟩
    · rw [htic, List.mem_append, not_or]
      exact ⟨hmem, hnot job p rfl⟩
    · rw [hsub, List.getElem?_append_left (List.getElem?_eq_some_iff.mp ho).1, ho]
  | lock | push => exact GoesTo.mono h hsub htic
  | unlock | notify | done => trivial

variable {t : Thread N ω} {call : SubmitPc K} {call' : Option (SubmitPc K)}

/-- A step of thread `t`. -/
theorem Targets.step (ht : Targets L s) (opts : List SubmitOptions) (jobs : List ℕ)
    (ev : List (Fin K × Event N)) (hsub : s'.submitted = s.submitted ++ opts)
    (htic : s'.tickets = s.tickets ++ jobs) (hnext : s'.next = s.next + jobs.length)
    (hlog : s'.log = s.log ++ ev) (hjobs : ∀ job ∈ jobs, job < s.submitted.length)
    (hev : ∀ k p job, (k, .enqueue p job) ∈ ev → GoesTo L s' job k p)
    (hself : ∀ call, s'.call t = some call → CallOk L s' call)
    (hother : ∀ u, u ≠ t → s'.call u = s.call u)
    (hnot : ∀ u, u ≠ t → ∀ job p, s.call u = some (.ticket job p) → job ∉ jobs) : Targets L s' where
  next := by rw [hnext, htic, List.length_append, ht.next]
  tickets job hmem := by
    have hlen : s.submitted.length ≤ s'.submitted.length := by
      rw [hsub, List.length_append]
      omega
    rcases List.mem_append.mp (htic ▸ hmem) with h | h
    · exact (ht.tickets job h).trans_le hlen
    · exact (hjobs job h).trans_le hlen
  calls u call hu := by
    by_cases hut : u = t
    · subst hut
      exact hself call hu
    · rw [hother u hut] at hu
      exact (ht.calls u call hu).mono hsub htic fun job p he => hnot u hut job p (he ▸ hu)
  log k p job hmem := by
    rcases List.mem_append.mp (hlog ▸ hmem) with h | h
    · exact (ht.log k p job h).mono hsub htic
    · exact hev k p job h

/-- A step that touches no call of `submit`. -/
theorem Targets.congr (ht : Targets L s) {ev : List (Fin K × Event N)}
    (hsub : s'.submitted = s.submitted) (htic : s'.tickets = s.tickets) (hnext : s'.next = s.next)
    (hlog : s'.log = s.log ++ ev) (hev : ∀ k p job, (k, .enqueue p job) ∉ ev)
    (hcall : ∀ u, s'.call u = s.call u) : Targets L s' := by
  have hsub' : s'.submitted = s.submitted ++ [] := by rw [hsub, List.append_nil]
  have htic' : s'.tickets = s.tickets ++ [] := by rw [htic, List.append_nil]
  refine ⟨by rw [hnext, htic, ht.next], by rw [htic, hsub]; exact ht.tickets, fun u call hu => ?_,
    fun k p job hmem => ?_⟩
  · exact (ht.calls u call (hcall u ▸ hu)).mono hsub' htic' (by simp)
  · rcases List.mem_append.mp (hlog ▸ hmem) with h | h
    · exact (ht.log k p job h).mono hsub' htic'
    · exact absurd h (hev k p job)

/-- A step of thread `t` in its call of `submit`. -/
theorem Targets.advance (ht : Targets L s) (hsub : s'.submitted = s.submitted)
    (htic : s'.tickets = s.tickets) (hnext : s'.next = s.next) (hlog : s'.log = s.log)
    (hself : ∀ call, s'.call t = some call → CallOk L s' call)
    (hother : ∀ u, u ≠ t → s'.call u = s.call u) : Targets L s' :=
  ht.step (t := t) [] [] [] (hsub.trans (List.append_nil _).symm)
    (htic.trans (List.append_nil _).symm) hnext (hlog.trans (List.append_nil _).symm) (by simp)
    (by simp) hself hother fun _ _ _ _ _ => List.not_mem_nil

theorem call_of_worker {w : Fin N} {pc : WorkerPc K}
    (hw : s'.worker = Function.update s.worker w pc) (hc : s'.client = s.client) :
    ∀ u, u ≠ .inl w → s'.call u = s.call u
  | .inl u, hu => by
    have hne : u ≠ w := fun e => hu (congrArg Sum.inl e)
    simp only [State.call, hw, Function.update_of_ne hne]
  | .inr _, _ => by simp only [State.call, hc]

theorem call_of_client [DecidableEq ω] {c : ω} (hw : s'.worker = s.worker)
    (hc : s'.client = Function.update s.client c call') : ∀ u, u ≠ .inr c → s'.call u = s.call u
  | .inl _, _ => by simp only [State.call, hw]
  | .inr d, hu => by
    have hne : d ≠ c := fun e => hu (congrArg Sum.inr e)
    simp only [State.call, hc, Function.update_of_ne hne]

theorem call_of_wake (hw : ∀ u, s'.worker u = s.worker u ∨
      s.worker u = .waiting ∧ s'.worker u = .lock) (hc : s'.client = s.client) :
    ∀ u, s'.call u = s.call u
  | .inl u => by
    rcases hw u with h | ⟨h, h'⟩
    · simp only [State.call, h]
    · simp only [State.call, h, h']
      rfl
  | .inr _ => by simp only [State.call, hc]

/-- A step of worker `w` outside `submit`. -/
theorem Targets.worker (ht : Targets L s) {w : Fin N} {pc : WorkerPc K}
    {ev : List (Fin K × Event N)} (hw : s'.worker = Function.update s.worker w pc)
    (hc : s'.client = s.client) (hsub : s'.submitted = s.submitted) (htic : s'.tickets = s.tickets)
    (hnext : s'.next = s.next) (hlog : s'.log = s.log ++ ev)
    (hev : ∀ k p job, (k, .enqueue p job) ∉ ev) (hcall : pc.call = (s.worker w).call) :
    Targets L s' := by
  refine ht.congr hsub htic hnext hlog hev fun u => ?_
  by_cases hu : u = .inl w
  · subst hu
    simp only [State.call, hw, Function.update_self, hcall]
  · exact call_of_worker hw hc u hu

section Moves

variable [Fintype ω]

omit [Fintype ω] in
/-- No two calls are before the ticket of one job. -/
theorem Account.ticket_unique [Fintype ω] [DecidableEq ω] (ha : Account s) {u : Thread N ω}
    {p' : Priority}
    (ht : s.call t = some (.ticket job p)) (hu : s.call u = some (.ticket job p')) : u = t := by
  by_contra hut
  have hsum : s.unpushed (only job) = ∑ t, unpushed (only job) (s.call t) := by
    rw [Fintype.sum_sum_type, Nat.add_comm]
    rfl
  have h1 := ha.jobs (only job)
  have h2 := two_le_sum (fun t => unpushed (only job) (s.call t)) hut
  have h3 := mass_only_range s.submitted.length job
  have h4 : unpushed (only job) (s.call t) = 1 := by rw [ht]; exact only_self
  have h5 : unpushed (only job) (s.call u) = 1 := by rw [hu]; exact only_self
  simp only [h4, h5] at h2
  split_ifs at h3 <;> omega

theorem Submitting.targets [DecidableEq ω] {s₁ : State N K Q ω}
    (h : Submitting L s t call s₁ call') (s' : State N K Q ω)
    (ht : Targets L s) (ha : Account s) (hcall : s.call t = some call) (hself : s'.call t = call')
    (hother : ∀ u, u ≠ t → s'.call u = s.call u) (hsub : s'.submitted = s₁.submitted)
    (htic : s'.tickets = s₁.tickets) (hnext : s'.next = s₁.next) (hlog : s'.log = s₁.log) :
    Targets L s' := by
  have hok := ht.calls t call hcall
  cases h with
  | @ticket job p =>
    obtain ⟨hmem, o, ho, hp, hh⟩ := hok
    have hlt := (List.getElem?_eq_some_iff.mp ho).1
    have hgoes : GoesTo L s' job (L.ticketed (s.next % 2 ^ 64)) p := by
      refine ⟨?_, by rw [hsub, ho, ← hp]; rfl⟩
      simp only [State.target, hsub, htic, ho, Option.bind_some, hh, List.mem_append,
        List.mem_singleton, or_true, if_true, List.idxOf_append_of_notMem hmem, ht.next]
      simp
    refine ht.step (t := t) [] [job] [] (hsub.trans (List.append_nil _).symm) htic hnext
      (hlog.trans (List.append_nil _).symm) (by simpa using hlt) (by simp) (fun call hc => ?_)
        hother
      fun u hu j p' hj => ?_
    · rw [hself] at hc
      obtain rfl := Option.some.inj hc
      exact hgoes
    · rw [List.mem_singleton]
      rintro rfl
      exact hu (ha.ticket_unique hcall hj)
  | @push job k p =>
    have hgoes : GoesTo L s' job k p :=
      GoesTo.mono hok (hsub.trans (List.append_nil _).symm) (htic.trans (List.append_nil _).symm)
    refine ht.step (t := t) [] [] [(k, .enqueue p job)] (hsub.trans (List.append_nil _).symm)
      (htic.trans (List.append_nil _).symm) hnext hlog (by simp) (fun k' p' j hmem => ?_)
      (fun call hc => ?_) hother fun _ _ _ _ _ => List.not_mem_nil
    · obtain ⟨rfl, he⟩ := Prod.mk.inj (List.mem_singleton.mp hmem)
      obtain ⟨rfl, rfl⟩ := Event.enqueue.inj he
      exact hgoes
    · rw [hself] at hc
      obtain rfl := Option.some.inj hc
      trivial
  | lock =>
    refine ht.advance hsub htic hnext hlog (fun call hc => ?_) hother
    obtain rfl := Option.some.inj (hself.symm.trans hc)
    exact GoesTo.mono hok (hsub.trans (List.append_nil _).symm)
      (htic.trans (List.append_nil _).symm)
  | unlock | notifyNone | notify =>
    refine ht.advance hsub htic hnext hlog (fun call hc => ?_) hother
    obtain rfl := Option.some.inj (hself.symm.trans hc)
    trivial
  | done =>
    refine ht.advance hsub htic hnext hlog (fun call hc => ?_) hother
    exact absurd (hself.symm.trans hc) (by simp)

variable [DecidableEq ω] {l : Label N ω}

omit [DecidableEq ω] [Fintype ω] in
/-- A call of `submit` starts on the way to its core. -/
theorem Targets.enter (ht : Targets L s) (opts : SubmitOptions)
    (hsub : s'.submitted = s.submitted ++ [opts]) (htic : s'.tickets = s.tickets) :
    CallOk L s' (Monitor.enter L s.submitted.length opts) := by
  have ho : s'.submitted[s.submitted.length]? = some opts := by
    rw [hsub]
    exact List.getElem?_concat_length
  unfold Monitor.enter
  split
  · rename_i k hk
    exact ⟨by simp only [State.target, ho, Option.bind_some, hk], by rw [ho]; rfl⟩
  · rename_i hk
    refine ⟨fun hmem => ?_, opts, ho, rfl, hk⟩
    have := ht.tickets _ (htic ▸ hmem)
    omega

/-- **Every step keeps the jobs on the way to their cores.** -/
theorem Move.targets (ht : Targets L s) (ha : Account s) (h : Move L s l s') : Targets L s' := by
  have hnil : ∀ {α : Type} {l : List α}, l = l ++ [] := (List.append_nil _).symm
  cases h with
  | shutdown | store | join =>
    exact ht.congr rfl rfl rfl hnil (by simp) (call_of_wake (fun _ => .inl rfl) rfl)
  | notifyAll =>
    exact ht.congr rfl rfl rfl hnil (by simp) (call_of_wake (notifyAll_worker s _) rfl)
  | @client c opts hc =>
    refine ht.step (t := .inr c) [opts] [] [] rfl hnil rfl hnil (by simp)
      (by simp) (fun call h => ?_) (call_of_client (by rfl) (by rfl))
      fun _ _ _ _ _ => List.not_mem_nil
    simp only [State.call, Function.update_self] at h
    obtain rfl := Option.some.inj h
    exact ht.enter opts rfl rfl
  | @nested w opts job hpc =>
    refine ht.step (t := .inl w) [opts] [] [] rfl hnil rfl hnil (by simp)
      (by simp) (fun call h => ?_) (call_of_worker (by rfl) (by rfl))
      fun _ _ _ _ _ => List.not_mem_nil
    simp only [State.call, setWorker_self] at h
    obtain rfl := Option.some.inj h
    exact ht.enter opts rfl rfl
  | @clientStep c wakes call call' s₁ hc hsub =>
    obtain ⟨hwk, hcl, -⟩ := hsub.frame
    refine hsub.targets { s₁ with client := Function.update s₁.client c call' } ht ha hc
      (by simp [State.call]) (fun u hu => ?_) rfl rfl rfl rfl
    exact (call_of_client (s := s₁) (by rfl) (by rfl) u hu).trans (call_of_wake hwk hcl u)
  | @nestedStep w wakes job call call' s₁ hpc hsub =>
    obtain ⟨hwk, hcl, -⟩ := hsub.frame
    refine hsub.targets (s₁.setWorker w (.body job call')) ht ha
      (by simp [State.call, hpc, WorkerPc.call]) (by simp [State.call, WorkerPc.call])
      (fun u hu => ?_) rfl rfl rfl rfl
    exact (call_of_worker (s := s₁) (by rfl) (by rfl) u hu).trans (call_of_wake hwk hcl u)
  | @take w wakes job q hpc hq =>
    exact ht.worker rfl rfl rfl rfl rfl rfl (by simp) (by rw [hpc]; rfl)
  | finish hpc | unlock hpc | lock hpc | noJob hpc | flag hpc | noFlag hpc | wait hpc | leave hpc
  | spurious hpc =>
    exact ht.worker rfl rfl rfl rfl rfl hnil (by simp) (by rw [hpc]; rfl)

/-- **A job is pushed to its own core with its own priority.** -/
theorem reachable_targets (h : (machine L ω).Reachable s) : Targets L s := by
  refine h.invariant (fun s hs => ?_) fun _ _ _ hr _ hst ht =>
    (step_move hst).targets ht (reachable_account hr)
  simp only [machine, construct] at hs
  split_ifs at hs
  obtain rfl := Option.some.inj hs
  refine ⟨rfl, by simp, fun t call hc => ?_, by simp⟩
  cases t <;> exact absurd hc (by simp [State.call, WorkerPc.call])

end Moves

end Wss.Monitor
