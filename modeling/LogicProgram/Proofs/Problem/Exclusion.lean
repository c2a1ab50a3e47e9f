import LogicProgram.Proofs.Problem.Process
import Mathlib.Data.List.Nodup

/-!
# One proof at a time

Any number of calls may ask for a proof on one problem, step by step and in any order,
and the provers may call for another proof themselves while they work. A call that
starts while another has not returned is refused and changes nothing.
-/

namespace LogicProgram

open List
open Process (refusal acquire step)

/-- What a prover does with a text: it works on what it keeps, or asks for a proof on the
problem that it works for. -/
inductive Script (σ : Type) where
  | answer (result : Except Error Verdict)
  | work (change : σ → σ) (next : σ → Script σ)
  /-- Asks for a proof in a direction, to be done by some prover, and waits for it. -/
  | call (prover : Text → Script σ) (direction : Direction) (next : Except Error ProofStatus → Script σ)

namespace Script

variable {σ : Type}

/-- A script as a step of a proof run. -/
def toProving : Script σ → Proving σ Verdict
  | answer result => .ofExcept result
  | work change next => ExceptT.mk fun s =>
    outcome (next s.environment).toProving { s with environment := change s.environment }
  | call prover direction next => ExceptT.mk fun s =>
    let (result, t) := outcome (Proving.prove (fun text => (prover text).toProving) direction) s
    outcome (next result).toProving t

/-- The script with every call for a proof answered by a refusal. -/
def alone : Script σ → Script σ
  | answer result => answer result
  | work change next => work change fun env => (next env).alone
  | call _ _ next => (next (.error refusal)).alone

/-- A script as the steps that it takes. -/
def process : Script σ → Process σ Verdict
  | answer result => .done result
  | work change next => .step (fun s => { s with environment := change s.environment }) fun s =>
    (next s.environment).process
  | call prover direction next =>
    (Process.prove (fun text => (prover text).process) direction).andThen fun result =>
      (next result).process

variable {s : ProofState σ}

/-- While the problem is in use, a call for a proof is refused. -/
theorem outcome_call (prover : Text → Script σ) (direction : Direction)
    (next : Except Error ProofStatus → Script σ)
    (hs : s.problem.proving = true) :
    outcome (call prover direction next).toProving s = outcome (next (.error refusal)).toProving s := by
  have hrefused := Proving.outcome_prove_of_proving (fun text => (prover text).toProving) direction hs
  show (fun run => outcome (next run.1).toProving run.2) (outcome (Proving.prove _ direction) s) = _
  rw [hrefused]
  rfl

theorem process_follows (script : Script σ) : script.process.Follows script.toProving := by
  induction script with
  | answer result => exact .done result
  | work change next ih =>
    exact ⟨fun s hs => ⟨hs, (ih s.environment).keeps⟩, fun s hs => (ih s.environment).same _ hs⟩
  | call prover direction next _ ihnext =>
    have hnext := ihnext (.error refusal)
    refine ⟨fun s hs => ?_, fun s hs => ?_⟩
    · simp only [acquire, hs, if_true, Process.andThen]
      exact ⟨trivial, hnext.keeps⟩
    · show (Process.andThen _ _).run s = _
      rw [Process.run_andThen, Process.run_prove_of_proving _ _ hs, outcome_call _ _ _ hs]
      exact hnext.same s hs

theorem outcome_alone (script : Script σ) (hs : s.problem.proving = true) :
    outcome script.toProving s = outcome script.alone.toProving s := by
  induction script generalizing s with
  | answer result => rfl
  | work change next ih => exact ih s.environment hs
  | call prover direction next _ ihnext =>
    rw [outcome_call _ _ _ hs]
    exact ihnext _ hs

end Script

/-- A call for a proof. -/
structure Call (σ : Type) where
  prover : Text → Script σ
  direction : Direction

namespace Call

variable {σ : Type}

/-- The proof run that is called for. -/
def run (c : Call σ) : Proving σ ProofStatus :=
  Proving.prove (fun text => (c.prover text).toProving) c.direction

/-- The call without those that its prover makes. -/
def alone (c : Call σ) : Call σ := { c with prover := fun text => (c.prover text).alone }

/-- The body of an accepted call. -/
def body (c : Call σ) : Process σ ProofStatus :=
  .proveDirections (fun text => (c.prover text).process) c.direction.parts

/-- The call as the steps that it takes. -/
def process (c : Call σ) : Process σ ProofStatus :=
  .prove (fun text => (c.prover text).process) c.direction

theorem outcome_run (c : Call σ) (s : ProofState σ) : outcome c.run s = c.process.run s :=
  (Process.Follows.run_prove (fun text => (c.prover text).process_follows) c.direction s).symm

/-- Calls from inside the prover do not change a run. -/
theorem outcome_alone (c : Call σ) (s : ProofState σ) : outcome c.run s = outcome c.alone.run s := by
  have halone : ∀ text, (c.prover text).process.Follows (c.prover text).alone.toProving := fun text =>
    ⟨(c.prover text).process_follows.keeps, fun s hs =>
      ((c.prover text).process_follows.same s hs).trans ((c.prover text).outcome_alone hs)⟩
  rw [outcome_run]
  exact Process.Follows.run_prove halone c.direction s

theorem keepsUse_body (c : Call σ) : c.body.KeepsUse :=
  (Process.Follows.proveDirections (fun text => (c.prover text).process_follows) c.direction.parts).keeps

end Call

/-- Some calls on one problem, with what each has still to do. -/
structure Pool (σ : Type) where
  state : ProofState σ
  /-- The steps that are left of each call. -/
  threads : List (Process σ ProofStatus)

namespace Pool

variable {σ : Type} {i : Nat} {pool : Pool σ}

/-- All calls before their first steps. -/
def start (calls : List (Call σ)) (s : ProofState σ) : Pool σ := ⟨s, calls.map Call.process⟩

/-- The next step of one call, if it has one. -/
def advance (pool : Pool σ) (i : Nat) : Pool σ :=
  match pool.threads[i]? with
  | some (.step change next) => ⟨change pool.state, pool.threads.set i (next pool.state)⟩
  | _ => pool

/-- Steps of the calls in some order. -/
def run (pool : Pool σ) (schedule : List Nat) : Pool σ := schedule.foldl advance pool

theorem advance_step {change : ProofState σ → ProofState σ}
    {next : ProofState σ → Process σ ProofStatus} (h : pool.threads[i]? = some (.step change next)) :
    pool.advance i = ⟨change pool.state, pool.threads.set i (next pool.state)⟩ := by
  rw [advance, h]

theorem advance_done {result : Except Error ProofStatus}
    (h : pool.threads[i]? = some (.done result)) : pool.advance i = pool := by
  rw [advance, h]

theorem advance_none (h : pool.threads[i]? = none) : pool.advance i = pool := by
  rw [advance, h]

end Pool

/-- From a state, a process comes by its own steps to another state and what is left
of it. -/
inductive Process.Reaches {σ α : Type} (p : Process σ α) (s : ProofState σ) :
    Process σ α → ProofState σ → Prop where
  | refl : Reaches p s p s
  | step {change : ProofState σ → ProofState σ} {next : ProofState σ → Process σ α} {t : ProofState σ}
      (h : Reaches p s (.step change next) t) : Reaches p s (next t) (change t)

theorem Process.Reaches.run {σ α : Type} {p q : Process σ α} {s t : ProofState σ} (h : p.Reaches s q t) :
    p.run s = q.run t := by
  induction h with
  | refl => rfl
  | step _ ih => exact ih

/-- What has become of calls so far. -/
structure Book where
  /-- Those that have returned after they were accepted, in the order of their returns. -/
  finished : List Nat
  active : Option Nat
  refused : List Nat

/-- Calls that have started. -/
def Book.started (b : Book) : List Nat := b.finished ++ (b.active.toList ++ b.refused)

/-- The state after calls one after the other. -/
def serial {σ : Type} (calls : List (Call σ)) (s : ProofState σ) (order : List Nat) : ProofState σ :=
  order.foldl (fun s i => match calls[i]? with
    | some c => (outcome c.run s).2
    | none => s) s

variable {σ : Type}

/-- The accepted calls are done as if there were no others, one after the other. -/
structure Exclusive (calls : List (Call σ)) (s : ProofState σ) (pool : Pool σ) (b : Book) : Prop where
  nodup : b.started.Nodup
  length : pool.threads.length = calls.length
  /-- Calls that have not started are as they were. -/
  waiting : ∀ i c, calls[i]? = some c → i ∉ b.started → pool.threads[i]? = some c.process
  /-- Calls that are refused fail. -/
  refused : ∀ i ∈ b.refused, pool.threads[i]? = some (.done (.error refusal))
  /-- Calls that have returned gave what they give after those before them. -/
  finished : ∀ n i : Nat, b.finished[n]? = some i → ∃ c, calls[i]? = some c ∧
    pool.threads[i]? = some (.done (outcome c.run (serial calls s (b.finished.take n))).1)
  /-- The call that runs has come to where it comes by its own steps after those that have
  returned. -/
  running : ∀ i, b.active = some i → ∃ c thread, calls[i]? = some c ∧ pool.threads[i]? = some thread ∧
    c.process.Reaches (serial calls s b.finished) thread pool.state
  /-- If no call runs, those that have returned have led to the state. -/
  idle : b.active = none → pool.state = serial calls s b.finished
  /-- The problem is in use as long as a call runs. -/
  inUse : pool.state.problem.proving = b.active.isSome

/-- What a step of a call can be. -/
inductive Move (count i : Nat) (pool pool' : Pool σ) : Book → Book → Prop where
  /-- A call starts while none runs. -/
  | accepted {b : Book} (hstart : i ∉ b.started) (hfree : b.active = none) :
      Move count i pool pool' b { b with active := some i }
  /-- A call starts while another has not returned. -/
  | refused {b : Book} {j : Nat} (hstart : i ∉ b.started) (huse : b.active = some j)
      (hstate : pool'.state = pool.state) : Move count i pool pool' b { b with refused := b.refused ++ [i] }
  | continued {b : Book} (hactive : b.active = some i) : Move count i pool pool' b b
  | returned {b : Book} (hactive : b.active = some i) :
      Move count i pool pool' b { b with finished := b.finished ++ [i], active := none }
  /-- There is no such call, or it has nothing to do any more. -/
  | nothing {b : Book} (hdone : i ∈ b.finished ∨ i ∈ b.refused ∨ count ≤ i) (hpool : pool' = pool) :
      Move count i pool pool' b b

namespace Call

/-- An accepted call sets the problem free when it returns. -/
theorem outcome_run_free (c : Call σ) {s : ProofState σ} (hs : s.problem.proving = false) :
    (outcome c.run s).2.problem.proving = false := by
  rw [outcome_run, process, Process.run_prove_of_free _ _ hs]
  rfl

/-- An accepted call comes into its body, and from there to its end. -/
theorem reaches_cases {c : Call σ} {t u : ProofState σ} {thread : Process σ ProofStatus}
    (ht : t.problem.proving = false) (h : c.process.Reaches t thread u) :
    (thread = c.process ∧ u = t) ∨ (u.problem.proving = true ∧ ∃ body : Process σ ProofStatus,
        thread = body.andThen Process.release ∧ body.KeepsUse) ∨
      (u.problem.proving = false ∧ ∃ result, thread = .done result) := by
  induction h with
  | refl => exact .inl ⟨rfl, rfl⟩
  | @step change next t' _ ih =>
    rcases ih with ⟨hthread, rfl⟩ | ⟨huse, body, hthread, hbody⟩ | ⟨-, result, hthread⟩
    · -- The first step takes the problem into use.
      obtain ⟨rfl, rfl⟩ := step.inj hthread
      refine .inr (.inl ⟨?_, c.body, ?_, c.keepsUse_body⟩)
      · rw [acquire, if_neg (by simp [ht])]
        rfl
      · exact if_neg (by simp [ht])
    · cases body with
      | done result =>
        -- The last step sets it free.
        obtain ⟨rfl, rfl⟩ := step.inj hthread
        exact .inr (.inr ⟨rfl, result, rfl⟩)
      | step change' next' =>
        obtain ⟨rfl, rfl⟩ := step.inj hthread
        exact .inr (.inl ⟨(hbody t' huse).1, next' t', rfl, (hbody t' huse).2⟩)
    · cases hthread

end Call

theorem serial_append (calls : List (Call σ)) (s : ProofState σ) (order : List Nat) {i : Nat} {c : Call σ}
    (hc : calls[i]? = some c) :
    serial calls s (order ++ [i]) = (outcome c.run (serial calls s order)).2 := by
  simp only [serial, foldl_append, foldl_cons, foldl_nil, hc]

theorem serial_free (calls : List (Call σ)) {s : ProofState σ} (hs : s.problem.proving = false)
    (order : List Nat) : (serial calls s order).problem.proving = false := by
  induction order generalizing s with
  | nil => exact hs
  | cons i order ih =>
    refine ih ?_
    dsimp only
    split
    · exact Call.outcome_run_free _ hs
    · exact hs

namespace Exclusive

variable {calls : List (Call σ)} {s : ProofState σ} {pool : Pool σ} {b : Book} {i : Nat} {c : Call σ}

theorem start (hs : s.problem.proving = false) : Exclusive calls s (.start calls s) ⟨[], none, []⟩ where
  nodup := nodup_nil
  length := length_map _
  waiting i c hc _ := by
    show (calls.map Call.process)[i]? = _
    rw [getElem?_map, hc, Option.map_some]
  refused i hi := absurd hi not_mem_nil
  finished n i h := by simp at h
  running i h := by cases h
  idle _ := rfl
  inUse := hs

/-- A step of a call leaves all others as they are. -/
theorem others (h : Exclusive calls s pool b) (hfinished : i ∉ b.finished) (hrefused : i ∉ b.refused)
    (thread : Process σ ProofStatus) : (∀ k c, calls[k]? = some c → k ∉ b.started → k ≠ i →
      (pool.threads.set i thread)[k]? = some c.process) ∧
    (∀ k ∈ b.refused, (pool.threads.set i thread)[k]? = some (.done (.error refusal))) ∧
    ∀ n k : Nat, b.finished[n]? = some k → ∃ c, calls[k]? = some c ∧
      (pool.threads.set i thread)[k]? =
        some (.done (outcome c.run (serial calls s (b.finished.take n))).1) := by
  refine ⟨fun k c hc hk hki => ?_, fun k hk => ?_, fun n k hk => ?_⟩
  · rw [getElem?_set_ne (Ne.symm hki)]
    exact h.waiting k c hc hk
  · rw [getElem?_set_ne fun heq : i = k => hrefused (heq ▸ hk)]
    exact h.refused k hk
  · rw [getElem?_set_ne fun heq : i = k => hfinished (heq ▸ mem_of_getElem? hk)]
    exact h.finished n k hk

/-- A call that starts while another runs changes nothing. -/
theorem refuse (h : Exclusive calls s pool b) (hc : calls[i]? = some c) (hi : i ∉ b.started) {j : Nat}
    (huse : b.active = some j) : (pool.advance i).state = pool.state ∧
      Exclusive calls s (pool.advance i) { b with refused := b.refused ++ [i] } := by
  have hproving : pool.state.problem.proving = true := by rw [h.inUse, huse]; rfl
  have hadvance : pool.advance i =
      ⟨pool.state, pool.threads.set i (.done (.error refusal))⟩ := by
    rw [Pool.advance_step (h.waiting i c hc hi), acquire, if_pos hproving, if_pos hproving]
  have hlt : i < pool.threads.length := h.length ▸ (List.getElem?_eq_some_iff.mp hc).1
  have hnew : Book.started { b with refused := b.refused ++ [i] } = b.started ++ [i] := by
    simp [Book.started]
  have hold := hi
  simp only [Book.started, mem_append, not_or] at hold
  obtain ⟨hwaiting, hrefused, hfinished⟩ := h.others hold.1 hold.2.2 (.done (.error refusal))
  rw [hadvance]
  refine ⟨rfl, ?_⟩
  exact {
    nodup := by
      rw [hnew, ← concat_eq_append]
      exact h.nodup.concat hi
    length := by rw [length_set, h.length]
    waiting := fun k c' hc' hk => by
      rw [hnew, mem_append, mem_singleton, not_or] at hk
      exact hwaiting k c' hc' hk.1 hk.2
    refused := fun k hk => by
      rcases mem_append.mp hk with hk | hk
      · exact hrefused k hk
      · rw [mem_singleton.mp hk, getElem?_set_self hlt]
    finished := hfinished
    running := fun k hk => by
      have hki : i ≠ k := by
        rintro rfl
        exact hold.2.1 (by simp [show b.active = some i from hk])
      rw [getElem?_set_ne hki]
      exact h.running k hk
    idle := fun hnone => by
      rw [show b.active = none from hnone] at huse
      cases huse
    inUse := h.inUse }

/-- A call that starts while none runs is accepted. -/
theorem accept (h : Exclusive calls s pool b) (hc : calls[i]? = some c) (hi : i ∉ b.started)
    (hfree : b.active = none) : Exclusive calls s (pool.advance i) { b with active := some i } := by
  have hproving : pool.state.problem.proving = false := by rw [h.inUse, hfree]; rfl
  have hlt : i < pool.threads.length := h.length ▸ (List.getElem?_eq_some_iff.mp hc).1
  have hnew : Book.started { b with active := some i } = b.finished ++ i :: b.refused := rfl
  have hold : b.started = b.finished ++ b.refused := by simp [Book.started, hfree]
  have hother := hi
  rw [hold, mem_append, not_or] at hother
  obtain ⟨hwaiting, hrefused, hfinished⟩ := h.others hother.1 hother.2
    (if pool.state.problem.proving then .done (.error refusal) else c.body.andThen Process.release)
  rw [Pool.advance_step (h.waiting i c hc hi)]
  exact {
    nodup := by
      rw [hnew, nodup_middle, nodup_cons, ← hold]
      exact ⟨hi, h.nodup⟩
    length := by rw [length_set, h.length]
    waiting := fun k c' hc' hk => by
      rw [hnew, mem_append, mem_cons, not_or, not_or] at hk
      refine hwaiting k c' hc' ?_ hk.2.1
      rw [hold, mem_append, not_or]
      exact ⟨hk.1, hk.2.2⟩
    refused := hrefused
    finished := hfinished
    running := fun k hk => by
      obtain rfl : i = k := Option.some.inj hk
      refine ⟨c, _, hc, getElem?_set_self hlt, ?_⟩
      rw [← h.idle hfree]
      exact .step .refl
    idle := fun hnone => by cases hnone
    inUse := by
      rw [acquire, if_neg (by simp [hproving])]
      rfl }

theorem started_of_active (hactive : b.active = some i) : b.started = b.finished ++ i :: b.refused := by
  simp [Book.started, hactive]

theorem not_mem_of_active (h : Exclusive calls s pool b) (hactive : b.active = some i) :
    i ∉ b.finished ∧ i ∉ b.refused := by
  have hnodup := h.nodup
  rw [started_of_active hactive, nodup_middle, nodup_cons, mem_append, not_or] at hnodup
  exact hnodup.1

/-- The call that runs goes on. -/
theorem goOn (h : Exclusive calls s pool b) (hactive : b.active = some i)
    {change : ProofState σ → ProofState σ} {next : ProofState σ → Process σ ProofStatus}
    (hthread : pool.threads[i]? = some (.step change next))
    (hproving : (change pool.state).problem.proving = true) : Exclusive calls s (pool.advance i) b := by
  have hmem : i ∈ b.started := by simp [started_of_active hactive]
  obtain ⟨hwaiting, hrefused, hfinished⟩ :=
    h.others (h.not_mem_of_active hactive).1 (h.not_mem_of_active hactive).2 (next pool.state)
  obtain ⟨c, thread, hc, hthread', hreaches⟩ := h.running i hactive
  obtain rfl := Option.some.inj (hthread.symm.trans hthread')
  rw [Pool.advance_step hthread]
  exact {
    nodup := h.nodup
    length := by rw [length_set, h.length]
    waiting := fun k c' hc' hk => hwaiting k c' hc' hk fun heq => hk (heq ▸ hmem)
    refused := hrefused
    finished := hfinished
    running := fun k hk => by
      obtain rfl : i = k := Option.some.inj (hactive.symm.trans hk)
      exact ⟨c, _, hc, getElem?_set_self (List.getElem?_eq_some_iff.mp hthread).1, .step hreaches⟩
    idle := fun hnone => by
      rw [hnone] at hactive
      cases hactive
    inUse := by
      rw [hactive]
      exact hproving }

/-- The call that runs returns. -/
theorem leave (h : Exclusive calls s pool b) (hactive : b.active = some i) {result : Except Error ProofStatus}
    (hthread : pool.threads[i]? = some (.release result)) :
    Exclusive calls s (pool.advance i) { b with finished := b.finished ++ [i], active := none } := by
  have hmem : i ∈ b.started := by simp [started_of_active hactive]
  have hlt := (List.getElem?_eq_some_iff.mp hthread).1
  obtain ⟨hwaiting, hrefused, hfinished⟩ :=
    h.others (h.not_mem_of_active hactive).1 (h.not_mem_of_active hactive).2 (.done result)
  obtain ⟨c, thread, hc, hthread', hreaches⟩ := h.running i hactive
  obtain rfl := Option.some.inj (hthread.symm.trans hthread')
  have hrun : outcome c.run (serial calls s b.finished) = (result, Proving.setProving false pool.state) := by
    rw [Call.outcome_run, hreaches.run]
    rfl
  have hnew : Book.started { b with finished := b.finished ++ [i], active := none } = b.started := by
    simp [Book.started, hactive]
  rw [Pool.advance_step hthread]
  exact {
    nodup := hnew ▸ h.nodup
    length := by rw [length_set, h.length]
    waiting := fun k c' hc' hk => by
      rw [hnew] at hk
      exact hwaiting k c' hc' hk fun heq => hk (heq ▸ hmem)
    refused := hrefused
    finished := fun n k hk => by
      by_cases hn : n < b.finished.length
      · rw [getElem?_append_left hn] at hk
        rw [take_append_of_le_length (Nat.le_of_lt hn)]
        exact hfinished n k hk
      · rw [getElem?_append_right (Nat.le_of_not_lt hn), getElem?_singleton] at hk
        obtain ⟨hzero, rfl⟩ : n - b.finished.length = 0 ∧ i = k := by simpa using hk
        refine ⟨c, hc, ?_⟩
        rw [show n = b.finished.length by omega, take_left, hrun]
        exact getElem?_set_self hlt
    running := fun k hk => by cases hk
    idle := fun _ => by rw [serial_append calls s _ hc, hrun]
    inUse := rfl }

/-- The call that runs goes on or returns. -/
theorem proceed (h : Exclusive calls s pool b) (hs : s.problem.proving = false)
    (hactive : b.active = some i) :
    Exclusive calls s (pool.advance i) b ∨
      Exclusive calls s (pool.advance i) { b with finished := b.finished ++ [i], active := none } := by
  have hproving : pool.state.problem.proving = true := by rw [h.inUse, hactive]; rfl
  have hfree := serial_free calls hs b.finished
  obtain ⟨c, thread, hc, hthread, hreaches⟩ := h.running i hactive
  -- The call is in its body, since the problem is in use.
  rcases Call.reaches_cases hfree hreaches with ⟨-, hstate⟩ | ⟨-, body, rfl, hbody⟩ | ⟨hstate, -⟩
  · rw [hstate, hfree] at hproving
    cases hproving
  · cases body with
    | step change next => exact .inl (h.goOn hactive hthread (hbody pool.state hproving).1)
    | done result => exact .inr (h.leave hactive hthread)
  · rw [hstate] at hproving
    cases hproving

/-- Whatever call takes the next step, accepted ones come one by one. -/
theorem advance (h : Exclusive calls s pool b) (hs : s.problem.proving = false) (i : Nat) :
    ∃ b', Exclusive calls s (pool.advance i) b' ∧ Move calls.length i pool (pool.advance i) b b' := by
  cases hc : calls[i]? with
  | none =>
    have hle := getElem?_eq_none_iff.mp hc
    have hpool : pool.advance i = pool := Pool.advance_none (getElem?_eq_none (h.length ▸ hle))
    exact ⟨b, hpool.symm ▸ h, .nothing (.inr (.inr hle)) hpool⟩
  | some c =>
    by_cases hi : i ∈ b.started
    · simp only [Book.started, mem_append, Option.mem_toList] at hi
      rcases hi with hi | hi | hi
      · obtain ⟨n, hn⟩ := mem_iff_getElem?.mp hi
        obtain ⟨_, -, hthread⟩ := h.finished n i hn
        have hpool := Pool.advance_done hthread
        exact ⟨b, hpool.symm ▸ h, .nothing (.inl hi) hpool⟩
      · rcases h.proceed hs hi with hnext | hnext
        · exact ⟨b, hnext, .continued hi⟩
        · exact ⟨_, hnext, .returned hi⟩
      · have hpool := Pool.advance_done (h.refused i hi)
        exact ⟨b, hpool.symm ▸ h, .nothing (.inr (.inl hi)) hpool⟩
    · cases hactive : b.active with
      | none => exact ⟨_, h.accept hc hi hactive, .accepted hi hactive⟩
      | some j =>
        obtain ⟨hstate, hnext⟩ := h.refuse hc hi hactive
        exact ⟨_, hnext, .refused hi hactive hstate⟩

theorem run (h : Exclusive calls s pool b) (hs : s.problem.proving = false) (schedule : List Nat) :
    ∃ b', Exclusive calls s (pool.run schedule) b' := by
  induction schedule generalizing pool b with
  | nil => exact ⟨b, h⟩
  | cons i schedule ih =>
    obtain ⟨b', hnext, -⟩ := h.advance hs i
    exact ih hnext

end Exclusive

/-- Only one proof runs at a time. Whatever calls there are and in whatever order they take
their steps, those that start while another has not returned are refused and change
nothing, and the others run as if they were alone, one after the other. The same goes for
calls from inside a prover. -/
theorem prove_exclusive (calls : List (Call σ)) {s : ProofState σ} (hs : s.problem.proving = false)
    (schedule : List Nat) :
    (∃ b, Exclusive calls s ((Pool.start calls s).run schedule) b ∧ ∀ i, ∃ b',
      Exclusive calls s (((Pool.start calls s).run schedule).advance i) b' ∧
      Move calls.length i ((Pool.start calls s).run schedule)
        (((Pool.start calls s).run schedule).advance i) b b') ∧
    ∀ (c : Call σ) (t : ProofState σ), t.problem.proving = false →
      outcome c.run t = outcome c.alone.run t ∧ (outcome c.run t).2.problem.proving = false := by
  obtain ⟨b, hb⟩ := (Exclusive.start hs).run hs schedule
  exact ⟨⟨b, hb, fun i => hb.advance hs i⟩, fun c t ht => ⟨c.outcome_alone t, c.outcome_run_free ht⟩⟩

/-- A call whose prover asks for a proof itself, and passes on the error that it gets. -/
def Call.reentering : Call Unit where
  prover _ := .call (fun _ => .answer (.ok ⟨.proven, none⟩)) .backward fun
    | .ok _ => .answer (.ok ⟨.proven, none⟩)
    | .error e => .answer (.error e)
  direction := .forward

/-- A problem with one assertion. -/
def ProofState.assertion : ProofState Unit :=
  ⟨(Problem.empty .empty).add .assertions (.fresh .assertion (.atom "p" [])), [], ()⟩

/-- The second of two calls starts after the first step of the other. -/
theorem prove_exclusive_reentering :
    ProofState.assertion.problem.proving = false ∧
    ((Pool.start [.reentering, .reentering] ProofState.assertion).run [0, 1]).threads[1]? =
      some (.done (.error Process.refusal)) ∧
    (∃ b, Exclusive [.reentering, .reentering] ProofState.assertion
      ((Pool.start [.reentering, .reentering] ProofState.assertion).run [0, 1]) b) ∧
    (outcome Call.reentering.run ProofState.assertion).1 =
      .error (.during "failed to prove assertion" Process.refusal) ∧
    outcome Call.reentering.run ProofState.assertion =
      outcome Call.reentering.alone.run ProofState.assertion := by
  obtain ⟨⟨b, hb, -⟩, halone⟩ := prove_exclusive [Call.reentering, Call.reentering]
    (s := ProofState.assertion) rfl [0, 1]
  exact ⟨rfl, rfl, ⟨b, hb⟩, by decide +kernel, (halone Call.reentering ProofState.assertion rfl).1⟩

end LogicProgram
