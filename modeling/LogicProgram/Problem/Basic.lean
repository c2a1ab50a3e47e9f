import LogicProgram.Problem.Statement
import LogicProgram.Rendering.Document

/-!
# Proof problems

A problem is a list of statements in the order of their sections, over one
registry. It can be written as a whole, and as the obligation that is to be
proven next: what is assumed or proven as axioms, and the statement to be
proven now as the conjecture.
-/

namespace LogicProgram

namespace SectionKind

/-- The place of a section among all sections. -/
def index : SectionKind → Nat
  | completedDefinitions => 0
  | integrityConstraints => 1
  | axioms => 2
  | assumptions => 3
  | lemmas => 4
  | assertions => 5

end SectionKind

/-- A statement with the section it is in. -/
structure Problem.Entry where
  part : SectionKind
  statement : Statement
deriving Repr, Inhabited

/-- Statements to be proven, with what is declared of their symbols. -/
structure Problem where
  registry : Registry
  /-- The statements by their sections, within a section in the order in which
  they were added. -/
  entries : List Problem.Entry
  /-- Whether a proof is running. -/
  proving : Bool
deriving Inhabited

namespace Statement

/-- A statement that nothing has been done about. -/
def fresh (kind : StatementKind) (formula : Formula) : Statement :=
  { kind, direction := .both, name := [], description := [], formula, status := .toProveLater }

end Statement

namespace Problem

/-- A problem without statements. -/
def empty (r : Registry) : Problem := ⟨r, [], false⟩

/-- Adds a statement at the end of a section. -/
def add (part : SectionKind) (s : Statement) (p : Problem) : Problem :=
  let isBefore (e : Entry) : Bool := e.part.index ≤ part.index
  { p with entries := p.entries.takeWhile isBefore ++ ⟨part, s⟩ :: p.entries.dropWhile isBefore }

/-- The statements of a section in order. -/
def statements (p : Problem) (part : SectionKind) : List Statement :=
  (p.entries.filter (·.part == part)).map (·.statement)

/-- The statement at a position with another status. -/
def setStatus (i : Nat) (status : ProofStatus) (p : Problem) : Problem :=
  { p with entries := p.entries.modify i fun e =>
      { e with statement := { e.statement with status } } }

/-- All statements as they are at the start of a proof in one direction. -/
def reset (d : Direction) (p : Problem) : Problem :=
  { p with entries := p.entries.map fun e => { e with statement := e.statement.reset d } }

/-- The first statement that is still to be proven, with its position. -/
def nextPending? (p : Problem) : Option (Entry × Nat) :=
  p.entries.zipIdx.find? (·.1.statement.status.isPending)

/-- How many statements are still to be proven. -/
def pendingCount (p : Problem) : Nat := p.entries.countP (·.statement.status.isPending)

/-- Statements with their names, those without one being numbered from
`count + 1`. -/
def named (count : Nat) : List Statement → List (Text × Statement)
  | [] => []
  | s :: rest =>
    if s.name.isEmpty then ("statement_" ++ Text.ofNat (count + 1), s) :: named (count + 1) rest
    else (s.name, s) :: named count rest

/-- The sections with those statements that have a role. Names do not depend on
which ones these are. -/
def sections (p : Problem) (role? : Statement → Option Text) : List DocumentSection :=
  SectionKind.all.map fun part =>
    { title := part.title
      formulas := (named 0 (p.statements part)).filterMap fun (name, s) =>
        (role? s).map fun role => { name, description := s.description, role, formula := s.formula } }

/-- The role of a statement in the next obligation. -/
def roleInObligation (s : Statement) : Option Text :=
  if s.status.isAxiom then some (Text.ofString "axiom")
  else if s.status = .toProveNow then some (Text.ofString "conjecture")
  else none

/-- What is to be proven next. -/
def obligation (p : Problem) : Document := .tptp p.registry (p.sections roleInObligation)

/-- The whole problem, with every statement as an axiom. -/
def document (p : Problem) (format : Format) : Document :=
  .ofFormat format p.registry (p.sections fun _ => some (Text.ofString "axiom"))

end Problem

end LogicProgram
