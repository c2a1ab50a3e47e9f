import LogicProgram.Proofs.Problem.Run

/-!
# Proof runs step by step

Between two steps of a proof run others may change the problem. A process is a
computation as the steps that it takes. The run of the prover on a problem is written as
a process here.
-/

namespace LogicProgram

/-- A computation on a shared state, step by step. What comes after a step may depend on
the state that it found. -/
inductive Process (σ α : Type) where
  | done (result : Except Error α)
  /-- The state is changed at once. -/
  | step (change : ProofState σ → ProofState σ) (next : ProofState σ → Process σ α)

namespace Process

variable {σ α β : Type} {p : Process σ α} {s : ProofState σ}

/-- All steps, with nothing between them. -/
def run : Process σ α → ProofState σ → Except Error α × ProofState σ
  | done result, s => (result, s)
  | step change next, s => (next s).run (change s)

/-- Goes on with another process, whether the first one fails or not. -/
def andThen : Process σ α → (Except Error α → Process σ β) → Process σ β
  | done result, k => k result
  | step change next, k => step change fun s => (next s).andThen k

instance : Monad (Process σ) where
  pure a := done (.ok a)
  bind p k := p.andThen fun
    | .ok a => k a
    | .error e => done (.error e)

/-- Reads the state. -/
def read : Process σ (ProofState σ) := step id fun s => done (.ok s)

/-- Changes the state. -/
def write (change : ProofState σ → ProofState σ) : Process σ Unit := step change fun _ => done (.ok ())

/-- A process is followed by what its outcome asks for. -/
theorem run_andThen (p : Process σ α) (k : Except Error α → Process σ β) (s : ProofState σ) :
    (p.andThen k).run s = (k (p.run s).1).run (p.run s).2 := by
  induction p generalizing s with
  | done result => rfl
  | step change next ih => exact ih s (change s)

/-- Notes that something happened. -/
def report (e : ProofEvent) : Process σ Unit := write fun s => { s with events := s.events ++ [e] }

/-- Changes the problem. -/
def update (f : Problem → Problem) : Process σ Unit := write fun s => { s with problem := f s.problem }

/-- Reports the statements that are assumed. -/
def reportAssumed (r : Registry) : List Problem.Entry → Process σ Unit
  | [] => return ()
  | e :: rest => do
    if e.statement.status = .assumedProven then
      let formula ← done (e.statement.formula.human r)
      report (.assumed e.part formula e.statement.status)
    reportAssumed r rest

/-- What a prover says, with the statement named in its errors. -/
def ask (prover : Text → Process σ Verdict) (part : SectionKind) (obligation : Text) : Process σ Verdict :=
  (prover obligation).andThen fun
    | .ok v => done (.ok v)
    | .error e => done (.error (.during ("failed to prove " ++ part.singular) e))

/-- Proves the statement at a position. -/
def proveStatement (prover : Text → Process σ Verdict) (i : Nat) (e : Problem.Entry) :
    Process σ ProofStatus := do
  update (·.setStatus i .toProveNow)
  let formula ← done (e.statement.formula.human (← read).problem.registry)
  report (.started e.part formula .toProveNow)
  let obligation ← done (← read).problem.obligation.result
  let verdict ← ask prover e.part obligation
  let status := ProofStatus.ofOutcome verdict.outcome
  update (·.setStatus i status)
  report (.finished e.part status verdict)
  return status

/-- Proves the statements that are pending. -/
def provePending (prover : Text → Process σ Verdict) : (rounds : Nat) → Process σ ProofStatus
  | 0 => return .toProveLater
  | rounds + 1 => do
    match (← read).problem.nextPending? with
    | none => return .proven
    | some (e, i) =>
      let status ← proveStatement prover i e
      if status = .proven then provePending prover rounds else return status

/-- A run in a single direction. -/
def proveDirection (prover : Text → Process σ Verdict) (d : Direction) : Process σ ProofStatus := do
  update (·.reset d)
  let p := (← read).problem
  report (.directionStarted d p.pendingCount)
  reportAssumed p.registry p.entries
  let status ← provePending prover (p.entries.length + 1)
  report (.directionFinished d status)
  return status

/-- Runs in several directions. -/
def proveDirections (prover : Text → Process σ Verdict) : List Direction → Process σ ProofStatus
  | [] => return .proven
  | d :: rest => do
    let status ← proveDirection prover d
    let others ← proveDirections prover rest
    return if status = .proven then others else status

/-- The error of a run that is refused. -/
def refusal : Error := Fault.logic "a proof is already running on this problem"

/-- Takes the problem into use, if it is free. -/
def acquire (s : ProofState σ) : ProofState σ := if s.problem.proving then s else Proving.setProving true s

/-- Ends with a result after setting the problem free. -/
def release (result : Except Error α) : Process σ α := step (Proving.setProving false) fun _ => done result

/-- A run, which is refused in its first step if the problem is in use. -/
def prove (prover : Text → Process σ Verdict) (d : Direction) : Process σ ProofStatus :=
  step acquire fun s =>
    if s.problem.proving then done (.error refusal)
    else (proveDirections prover d.parts).andThen release

/-- A run is refused while another has not ended. -/
theorem run_prove_of_proving (prover : Text → Process σ Verdict) (d : Direction)
    (hs : s.problem.proving = true) : (prove prover d).run s = (.error refusal, s) := by
  rw [prove, run, acquire, if_pos hs, if_pos hs, run]

/-- Otherwise the problem is in use until the run ends. -/
theorem run_prove_of_free (prover : Text → Process σ Verdict) (d : Direction)
    (hs : s.problem.proving = false) : (prove prover d).run s =
      (((proveDirections prover d.parts).run (Proving.setProving true s)).1,
        Proving.setProving false ((proveDirections prover d.parts).run (Proving.setProving true s)).2) := by
  rw [prove, run, acquire, if_neg (by simp [hs]), if_neg (by simp [hs]), run_andThen]
  rfl

/-- Started on a problem in use, the process keeps it in use at every step. -/
def KeepsUse : Process σ α → Prop
  | done _ => True
  | step change next => ∀ s, s.problem.proving = true →
    (change s).problem.proving = true ∧ (next s).KeepsUse

/-- Such a process leaves the problem in use. -/
theorem KeepsUse.run (hp : p.KeepsUse) (hs : s.problem.proving = true) :
    (p.run s).2.problem.proving = true := by
  induction p generalizing s with
  | done result => exact hs
  | step change next ih => exact ih s (hp s hs).2 (hp s hs).1

theorem KeepsUse.andThen {k : Except Error α → Process σ β} (hp : p.KeepsUse)
    (hk : ∀ r, (k r).KeepsUse) : (p.andThen k).KeepsUse := by
  induction p with
  | done result => exact hk result
  | step change next ih => exact fun s hs => ⟨(hp s hs).1, ih s (hp s hs).2⟩

/-- On a problem in use, which it keeps in use, a process comes to the same as a step of a proof run. -/
structure Follows (p : Process σ α) (x : Proving σ α) : Prop where
  keeps : p.KeepsUse
  same : ∀ s, s.problem.proving = true → p.run s = outcome x s

namespace Follows

theorem bind {x : Proving σ α} {k : α → Process σ β} {l : α → Proving σ β} (hp : p.Follows x)
    (hk : ∀ a, (k a).Follows (l a)) : (p >>= k).Follows (x >>= l) := by
  refine ⟨hp.keeps.andThen fun r => ?_, fun s hs => ?_⟩
  · cases r with
    | error e => trivial
    | ok a => exact (hk a).keeps
  · have huse := hp.keeps.run hs
    show (p.andThen _).run s = _
    rw [run_andThen, outcome_bind, ← hp.same s hs]
    rcases hrun : p.run s with ⟨e | a, t⟩
    · rfl
    · rw [hrun] at huse
      exact (hk a).same t huse

theorem pure (a : α) : (pure a : Process σ α).Follows (pure a) := ⟨trivial, fun _ _ => rfl⟩

theorem done (x : Except Error α) : (done x : Process σ α).Follows (Proving.ofExcept x) :=
  ⟨trivial, fun s _ => (Proving.outcome_ofExcept x s).symm⟩

theorem read : (read : Process σ (ProofState σ)).Follows get := ⟨fun _ hs => ⟨hs, trivial⟩, fun _ _ => rfl⟩

theorem report (e : ProofEvent) : (report e : Process σ Unit).Follows (Proving.report e) :=
  ⟨fun _ hs => ⟨hs, trivial⟩, fun _ _ => rfl⟩

theorem update {f : Problem → Problem} (h : ∀ p, (f p).proving = p.proving) :
    (update f : Process σ Unit).Follows (Proving.update f) :=
  ⟨fun s hs => ⟨(h s.problem).trans hs, trivial⟩, fun _ _ => rfl⟩

theorem reportAssumed (r : Registry) (es : List Problem.Entry) :
    (reportAssumed r es : Process σ Unit).Follows (Proving.reportAssumed r es) := by
  induction es with
  | nil => exact .pure _
  | cons e es ih =>
    rw [Process.reportAssumed, Proving.reportAssumed]
    split
    · exact .bind (.done _) fun _ => .bind (.report _) fun _ => ih
    · exact ih

variable {prover : Text → Process σ Verdict} {q : ProverStep σ} (h : ∀ text, (prover text).Follows (q text))

include h

theorem ask (part : SectionKind) (obligation : Text) :
    (ask prover part obligation).Follows (Proving.ask q part obligation) := by
  refine ⟨(h obligation).keeps.andThen fun r => ?_, fun s hs => ?_⟩
  · cases r <;> trivial
  · show _ = outcome (tryCatch _ _) s
    rw [Process.ask, run_andThen, outcome_rethrow, (h obligation).same s hs]
    rcases outcome (q obligation) s with ⟨e | v, t⟩
    · rfl
    · rfl

theorem proveStatement (i : Nat) (e : Problem.Entry) :
    (proveStatement prover i e).Follows (Proving.proveStatement q i e) :=
  .bind (.update fun _ => rfl) fun _ => .bind .read fun _ => .bind (.done _) fun _ =>
    .bind (.report _) fun _ => .bind .read fun _ => .bind (.done _) fun _ =>
    .bind (ask h _ _) fun _ => .bind (.update fun _ => rfl) fun _ => .bind (.report _) fun _ => .pure _

theorem provePending (rounds : Nat) :
    (provePending prover rounds).Follows (Proving.provePending q rounds) := by
  induction rounds with
  | zero => exact .pure _
  | succ rounds ih =>
    refine .bind .read fun s => ?_
    cases s.problem.nextPending? with
    | none => exact .pure _
    | some next =>
      refine .bind (proveStatement h next.2 next.1) fun status => ?_
      split
      · exact ih
      · exact .pure _

theorem proveDirection (d : Direction) : (proveDirection prover d).Follows (Proving.proveDirection q d) :=
  .bind (.update fun _ => rfl) fun _ => .bind .read fun _ => .bind (.report _) fun _ =>
    .bind (.reportAssumed _ _) fun _ => .bind (provePending h _) fun _ =>
    .bind (.report _) fun _ => .pure _

theorem proveDirections (ds : List Direction) :
    (proveDirections prover ds).Follows (Proving.proveDirections q ds) := by
  induction ds with
  | nil => exact .pure _
  | cons d ds ih => exact .bind (proveDirection h d) fun _ => .bind ih fun _ => .pure _

/-- With nothing between its steps, the process is the run. -/
theorem run_prove (d : Direction) (s : ProofState σ) :
    (prove prover d).run s = outcome (Proving.prove q d) s := by
  cases hs : s.problem.proving with
  | true => rw [run_prove_of_proving prover d hs, Proving.outcome_prove_of_proving _ d hs, refusal]
  | false =>
    rw [run_prove_of_free prover d hs, Proving.outcome_prove _ d hs, (proveDirections h d.parts).same _ rfl]

end Follows

/-- A prover that works in one step. -/
def ofProver (p : Prover σ) (text : Text) : Process σ Verdict :=
  step (fun s => { s with environment := (outcome (p text) s.environment).2 }) fun s =>
    done (outcome (p text) s.environment).1

/-- A prover that does not see the problem takes one step. -/
theorem ofProver_follows (p : Prover σ) (text : Text) :
    (ofProver p text).Follows (ProverStep.ofProver p text) :=
  ⟨fun _ hs => ⟨hs, trivial⟩, fun _ _ => rfl⟩

end Process

end LogicProgram
