import LogicProgram.Error
import LogicProgram.Number.Binary64

/-!
# Verdicts of a prover

A prover reports what it found in comment lines of its output. A remark starts
with a percent sign and a space, and may name the worker it comes from in
parentheses. A refutation of the negated conjecture is a proof, a model of it a
disproof. A prover that fails is only excused if it ran out of time.
-/

namespace LogicProgram

/-- What a prover found out about a conjecture. -/
inductive Outcome where
  | proven
  | notProven
  | disproven
  /-- None of these, which no output of a prover gives. -/
  | unknown
deriving DecidableEq, Repr, Inhabited

def Outcome.text : Outcome → Text
  | .proven => "proven"
  | .notProven => "not proven"
  | .disproven => "disproven"
  | .unknown => "unknown"

/-- The result of a prover run. -/
structure Verdict where
  /-- What was found out. -/
  outcome : Outcome
  /-- How long that took, if the prover said so. -/
  seconds : Option Binary64
deriving DecidableEq, Repr, Inhabited

namespace Verdict

/-- A text after the number of a worker in parentheses, if there is one. -/
def dropWorker (t : Text) : Text :=
  match t with
  | b :: r =>
    if Text.isChar '(' b then
      match r.takeWhile Text.isDigit, r.dropWhile Text.isDigit with
      | _ :: _, c :: rest => if Text.isChar ')' c then rest else t
      | _, _ => t
    else t
  | [] => t

/-- The ends of an output that start with a remark, from left to right. -/
def remarks : Text → List Text
  | [] => []
  | b :: r =>
    match Text.isChar '%' b, r with
    | true, c :: rest =>
      if Text.isChar ' ' c then dropWorker rest :: remarks r else remarks r
    | _, _ => remarks r

/-- What follows a beginning. -/
def after? (beginning t : Text) : Option Text :=
  if beginning.isPrefixOf t then some (t.drop beginning.length) else none

/-- A letter, digit or underscore of ASCII. -/
def isWordByte (b : UInt8) : Bool :=
  Text.isLower b || Text.isUpper b || Text.isDigit b || Text.isChar '_' b

/-- Whether a text does not continue a word that ended before it. -/
def endsWord : Text → Bool
  | [] => true
  | b :: _ => !isWordByte b

/-- Whether a remark gives a reason for the end of the search. -/
def isReason (reason t : Text) : Bool :=
  match after? ("Termination reason: " ++ reason) t with
  | some rest => endsWord rest
  | none => false

/-- Whether a remark says that the time was not enough. -/
def isTimeout (t : Text) : Bool := (after? "Proof not found in time" t).isSome

/-- A time in seconds, with or without decimal places, before its unit: its
digits and the number of those after the point. -/
def time? (t : Text) : Option (Nat × Nat) :=
  let whole := t.takeWhile Text.isDigit
  let rest := t.dropWhile Text.isDigit
  let (fraction, rest, complete) := match rest with
    | b :: r =>
      if Text.isChar '.' b then
        let fraction := r.takeWhile Text.isDigit
        (fraction, r.dropWhile Text.isDigit, !fraction.isEmpty)
      else ([], rest, true)
    | [] => ([], rest, true)
  if !whole.isEmpty && complete && (Text.ofString " s").isPrefixOf rest then
    some (Text.toNat (whole ++ fraction), fraction.length)
  else none

/-- The time in a remark on success. -/
def successTime? (t : Text) : Option (Nat × Nat) := (after? "Success in time " t).bind time?

/-- The first time of success in an output, if it is not too large. -/
def seconds? (stdout : Text) : Option Binary64 :=
  ((remarks stdout).findSome? successTime?).bind fun (digits, places) =>
    Binary64.ofDecimal? digits places

/-- The verdict in the output of a prover. -/
def ofOutput (exitCode : Int) (stdout stderr : Text) : Except Error Verdict :=
  let said := remarks stdout
  if exitCode != 0 then
    if said.any isTimeout then .ok ⟨.notProven, none⟩
    else .error (Fault.proverFailed exitCode stdout stderr)
  else if said.any (isReason "Refutation") then .ok ⟨.proven, seconds? stdout⟩
  else if said.any (isReason "Satisfiable") then .ok ⟨.disproven, seconds? stdout⟩
  else if said.any isTimeout then .ok ⟨.notProven, seconds? stdout⟩
  else .error (Fault.proverNotUnderstood stdout stderr)

end Verdict

/-- A prover with state of its own; a failure keeps what was done before it. -/
abbrev Prover (σ : Type) := Text → ExceptT Error (StateM σ) Verdict

end LogicProgram
