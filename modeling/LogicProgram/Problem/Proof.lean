import LogicProgram.Problem.Basic
import LogicProgram.Prover.Verdict

/-!
# Proof runs

A run in one direction proves the pending statements one after the other, each
from what is assumed and what was proven before it, and stops at the first that
is not proven. A run in both directions does one and then the other, whatever
the first found, unless it failed. Only one run at a time is accepted.

The prover is a step on the whole state, so that it may itself ask for a run on
the problem that it is working for; such a request is refused.
-/

namespace LogicProgram

/-- What happens in a proof run. -/
inductive ProofEvent where
  /-- A direction starts with a number of pending statements. -/
  | directionStarted (direction : Direction) (pending : Nat)
  /-- A statement, with its formula as written, is assumed. -/
  | assumed (part : SectionKind) (formula : Text) (status : ProofStatus)
  /-- The proof of a statement starts. -/
  | started (part : SectionKind) (formula : Text) (status : ProofStatus)
  /-- The proof of a statement ends with a verdict. -/
  | finished (part : SectionKind) (status : ProofStatus) (verdict : Verdict)
  | directionFinished (direction : Direction) (status : ProofStatus)
deriving DecidableEq, Repr

/-- What a proof run changes. -/
structure ProofState (σ : Type) where
  problem : Problem
  /-- What has happened, in order. -/
  events : List ProofEvent
  /-- What the prover keeps. -/
  environment : σ

/-- A step of a proof run; a failure keeps what was done before it. -/
abbrev Proving (σ : Type) := ExceptT Error (StateM (ProofState σ))

/-- A prover takes a proof problem as text. -/
abbrev ProverStep (σ : Type) := Text → Proving σ Verdict

/-- A prover as a step of a proof run, which leaves the problem alone. -/
def ProverStep.ofProver {σ : Type} (p : Prover σ) : ProverStep σ := fun problem => ExceptT.mk fun s =>
  let (verdict, environment) := ((p problem).run s.environment : Except Error Verdict × σ)
  (verdict, { s with environment })

/-- The status that an outcome gives a statement. -/
def ProofStatus.ofOutcome : Outcome → ProofStatus
  | .proven => .proven
  | .disproven => .disproven
  | _ => .notProven

/-- The single directions of a run. -/
def Direction.parts : Direction → List Direction
  | .both => [.forward, .backward]
  | d => [d]

namespace Proving

variable {σ : Type}

/-- Notes that something happened. -/
def report (e : ProofEvent) : Proving σ Unit :=
  modify fun s => { s with events := s.events ++ [e] }

def update (f : Problem → Problem) : Proving σ Unit :=
  modify fun s => { s with problem := f s.problem }

/-- The value of a computation that may fail. -/
def ofExcept {α : Type} : Except Error α → Proving σ α
  | .ok a => return a
  | .error e => throw e

/-- Reports the statements that are assumed, up to one that cannot be written. -/
def reportAssumed (r : Registry) : List Problem.Entry → Proving σ Unit
  | [] => return ()
  | e :: rest => do
    if e.statement.status = .assumedProven then
      let formula ← ofExcept (e.statement.formula.human r)
      report (.assumed e.part formula e.statement.status)
    reportAssumed r rest

/-- What a prover says, with the statement named in its errors. -/
def ask (prover : ProverStep σ) (part : SectionKind) (obligation : Text) : Proving σ Verdict :=
  tryCatch (prover obligation) fun e => throw (.during ("failed to prove " ++ part.singular) e)

/-- Proves the statement at a position. -/
def proveStatement (prover : ProverStep σ) (i : Nat) (e : Problem.Entry) :
    Proving σ ProofStatus := do
  update (·.setStatus i .toProveNow)
  let formula ← ofExcept (e.statement.formula.human (← get).problem.registry)
  report (.started e.part formula .toProveNow)
  let obligation ← ofExcept (← get).problem.obligation.result
  let verdict ← ask prover e.part obligation
  let status := ProofStatus.ofOutcome verdict.outcome
  update (·.setStatus i status)
  report (.finished e.part status verdict)
  return status

/-- Proves the statements that are pending, up to one that is not proven. Every round looks for the
first of them anew. After the last round what is still pending is left for later; a prover that
leaves the statements alone never gets there. -/
def provePending (prover : ProverStep σ) : (rounds : Nat) → Proving σ ProofStatus
  | 0 => return .toProveLater
  | rounds + 1 => do
    match (← get).problem.nextPending? with
    | none => return .proven
    | some (e, i) =>
      let status ← proveStatement prover i e
      if status = .proven then provePending prover rounds else return status

def proveDirection (prover : ProverStep σ) (d : Direction) : Proving σ ProofStatus := do
  update (·.reset d)
  let p := (← get).problem
  report (.directionStarted d p.pendingCount)
  reportAssumed p.registry p.entries
  let status ← provePending prover (p.entries.length + 1)
  report (.directionFinished d status)
  return status

/-- Runs in several directions; the status is the first that is not proven. -/
def proveDirections (prover : ProverStep σ) : List Direction → Proving σ ProofStatus
  | [] => return .proven
  | d :: rest => do
    let status ← proveDirection prover d
    let others ← proveDirections prover rest
    return if status = .proven then others else status

/-- Marks the problem as free or in use. -/
def setProving (proving : Bool) (s : ProofState σ) : ProofState σ :=
  { s with problem := { s.problem with proving } }

/-- A run, which is refused if one is going on already. However it ends, the
problem is free again afterwards. -/
def prove (prover : ProverStep σ) (d : Direction) : Proving σ ProofStatus :=
  ExceptT.mk fun s =>
    if s.problem.proving then
      (.error (Fault.logic "a proof is already running on this problem"), s)
    else
      let (outcome, s) := (proveDirections prover d.parts).run (setProving true s)
      (outcome, setProving false s)

end Proving

end LogicProgram
