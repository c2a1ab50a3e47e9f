import LogicProgram.Error
import LogicProgram.Formula.Basic
import LogicProgram.Text.LowerCase

/-!
# Statements of a proof problem

A statement is a formula with the part it plays in a proof. In a forward proof
the program is assumed and the assertions are proven; in a backward proof it is
the other way round. Axioms and assumptions are assumed in both.
-/

namespace LogicProgram

/-- Which implication between program and specification is proven. -/
inductive Direction where
  /-- One after the other. -/
  | both
  /-- From the program to the assertions. -/
  | forward
  /-- From the assertions to the program. -/
  | backward
deriving DecidableEq, Repr, Inhabited

namespace Direction

def text : Direction → Text
  | both => "both"
  | forward => "forward"
  | backward => "backward"

/-- The direction of a name in any case. -/
def ofText? (name : Text) : Option Direction :=
  [forward, backward, both].find? (·.text == name.lower)

/-- The direction of a name, or the error that there is none. -/
def parse (name : Text) : Except Error Direction :=
  match ofText? name with
  | some d => .ok d
  | none => .error (Fault.unknownDirection name)

end Direction

/-- What a statement is for. -/
inductive StatementKind where
  /-- A completed definition or a constraint. -/
  | program
  /-- True of the background. -/
  | axiomatic
  /-- Assumed of the input. -/
  | assumption
  /-- A lemma, a step on the way. -/
  | auxiliary
  /-- What the program is to satisfy. -/
  | assertion
deriving DecidableEq, Repr, Inhabited

/-- The parts of a proof problem, in their order. -/
inductive SectionKind where
  | completedDefinitions
  | integrityConstraints
  | axioms
  | assumptions
  | lemmas
  | assertions
deriving DecidableEq, Repr, Inhabited

namespace SectionKind

def all : List SectionKind :=
  [completedDefinitions, integrityConstraints, axioms, assumptions, lemmas, assertions]

def title : SectionKind → Text
  | completedDefinitions => "completed definitions"
  | integrityConstraints => "integrity constraints"
  | axioms => "axioms"
  | assumptions => "assumptions"
  | lemmas => "lemmas"
  | assertions => "assertions"

/-- What one statement of a section is called. -/
def singular : SectionKind → Text
  | completedDefinitions => "completed definition"
  | integrityConstraints => "integrity constraint"
  | axioms => "axiom"
  | assumptions => "assumption"
  | lemmas => "lemma"
  | assertions => "assertion"

end SectionKind

/-- How far the proof of a statement has come. -/
inductive ProofStatus where
  | toProveLater
  | toProveNow
  | assumedProven
  | proven
  | notProven
  | disproven
  | ignored
deriving DecidableEq, Repr, Inhabited

namespace ProofStatus

def text : ProofStatus → Text
  | toProveLater => "to prove later"
  | toProveNow => "to prove now"
  | assumedProven => "assumed proven"
  | proven => "proven"
  | notProven => "not proven"
  | disproven => "disproven"
  | ignored => "ignored"

/-- Whether the statement is an axiom of the next proof. -/
def isAxiom (s : ProofStatus) : Bool := s == assumedProven || s == proven

/-- Whether the statement is still to be proven. -/
def isPending (s : ProofStatus) : Bool := s == toProveLater || s == toProveNow

end ProofStatus

/-- A formula and its part in the proof. -/
structure Statement where
  /-- What the statement is for. -/
  kind : StatementKind
  /-- The direction that a lemma is for. -/
  direction : Direction
  /-- Its name in proof problems, if it has one. -/
  name : Text
  /-- A comment on it, if there is one. -/
  description : Text
  formula : Formula
  /-- How far its proof has come. -/
  status : ProofStatus
deriving Repr, Inhabited

namespace Statement

/-- The status of a statement at the start of a proof in one direction. -/
def initialStatus (s : Statement) (d : Direction) : ProofStatus :=
  match d, s.kind with
  | .both, _ => s.status
  | _, .axiomatic | _, .assumption => .assumedProven
  | .forward, .program | .backward, .assertion => .assumedProven
  | .forward, .auxiliary => if s.direction = .backward then .ignored else .toProveLater
  | .backward, .auxiliary => if s.direction = .forward then .ignored else .toProveLater
  | .forward, .assertion | .backward, .program => .toProveLater

/-- The statement at the start of a proof in one direction. -/
def reset (d : Direction) (s : Statement) : Statement := { s with status := s.initialStatus d }

end Statement

end LogicProgram
