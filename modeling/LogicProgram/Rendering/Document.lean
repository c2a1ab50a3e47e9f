import LogicProgram.Rendering.Human
import LogicProgram.Text.LowerCase
import LogicProgram.Tff.Background

/-!
# Written problems

A problem is written as titled sections of formulas, for people or for a
prover. A document is a list of pieces that may fail to render; writing it
stops at the first that does, so the text before it has been written.
-/

namespace LogicProgram

/-- The ways to write a problem. -/
inductive Format where
  /-- In the notation of specifications. -/
  | human
  /-- As input of a prover. -/
  | tptp
deriving DecidableEq, Repr, Inhabited

namespace Format

def text : Format → Text
  | human => "human-readable"
  | tptp => "tptp"

/-- The format of a name in any case. -/
def parse (name : Text) : Except Error Format :=
  let lowered := name.lower
  if lowered == Text.ofString "human-readable" || lowered == Text.ofString "human" then .ok human
  else if lowered == Text.ofString "tptp" then .ok tptp
  else .error (Fault.badConfiguration ("unknown output format " ++ name.enquoted))

end Format

/-- A formula of a section with its annotations. -/
structure AnnotatedFormula where
  /-- The name, for provers. -/
  name : Text
  /-- A comment, empty for none. -/
  description : Text
  /-- The role, for provers. -/
  role : Text
  formula : Formula
deriving Repr, Inhabited

/-- A titled group of formulas. -/
structure DocumentSection where
  title : Text
  /-- The formulas in order. -/
  formulas : List AnnotatedFormula
deriving Repr, Inhabited

/-- The pieces of a text, each written or failed. -/
abbrev Document := List (Except Error Text)

namespace Document

/-- What is written before the first failure. -/
def written : Document → Text
  | .ok t :: rest => t ++ written rest
  | _ => []

/-- The first failure. -/
def failure? : Document → Option Error
  | [] => none
  | .ok _ :: rest => failure? rest
  | .error e :: _ => some e

/-- The whole text, or the first failure. -/
def result (d : Document) : Except Error Text :=
  match d.failure? with
  | none => .ok d.written
  | some e => .error e

/-- The result of writing to a place that holds at most `limit` bytes. A piece
that cannot be rendered is reported in the first place. -/
def resultWithin (d : Document) (limit : Nat) (full : Error) : Except Error Text :=
  match d.result with
  | .error e => .error e
  | .ok t => if limit < t.length then .error full else .ok t

/-- A title between two rules. -/
def heading (title : Text) : Text :=
  let rule := List.replicate 72 '%'.toUInt8
  rule ++ "\n% " ++ title ++ "\n" ++ rule ++ "\n"

/-- Titled groups of pieces with an empty line between neighbours. -/
def titled : List (Text × Document) → Document
  | [] => []
  | [(title, pieces)] => .ok (heading title) :: pieces
  | (title, pieces) :: rest => .ok (heading title) :: pieces ++ .ok (Text.ofString "\n") :: titled rest

/-- A comment line, or nothing for an empty comment. -/
def comment (t : Text) : Text := if t.isEmpty then [] else "% " ++ t ++ "\n"

/-- The sections that hold something, with `render` applied to their formulas. -/
def ofSections (render : AnnotatedFormula → Except Error Text) (sections : List DocumentSection) :
    List (Text × Document) :=
  (sections.filter (!·.formulas.isEmpty)).map fun s => (s.title, s.formulas.map render)

/-- A formula on a line of its own, after its comment. -/
def humanLine (r : Registry) (a : AnnotatedFormula) : Except Error Text :=
  (a.formula.human r).map fun t => comment a.description ++ t ++ "\n"

/-- A formula as a line of a proof problem, after its comment. -/
def tptpLine (r : Registry) (a : AnnotatedFormula) : Except Error Text :=
  (a.formula.tptp r).map fun t => comment a.description ++ Tff.line a.name a.role t

/-- Lines under a comment, or nothing if there are none. -/
def group (note : Text) (lines : List Text) : Text :=
  if lines.isEmpty then [] else comment note ++ lines.flatten

/-- The types of declared symbols, and what is known of symbolic constants. -/
def declarations (r : Registry) : Option Text :=
  let predicates := r.sortedPredicates.filter (!·.symbol.isBuiltInPredicate)
  let functions := r.sortedFunctions.filter (!·.symbol.isBuiltInFunction)
  let constants := (functions.filter (·.isSymbolicConstant)).map (·.symbol.name)
  if predicates.isEmpty && functions.isEmpty then none
  else some <|
    group "predicate types" (predicates.map fun p => Tff.typeLine (Tff.predicateType p.symbol))
      ++ group "function types"
        (functions.map fun f => Tff.typeLine (Tff.functionType f.symbol f.domain))
      ++ group "symbolic constants" (constants.map fun c => (Tff.symbolicConstant c).text)
      ++ group "axioms for order of symbolic constants"
        ((Tff.constantOrder constants).map (·.text))

/-- The sections that every proof problem starts with. -/
def background : List (Text × Document) :=
  [("anthem types", [.ok Tff.Background.typesText]),
    ("anthem axioms", [.ok Tff.Background.axiomsText])]

/-- A proof problem: the background theory, the types and the sections. -/
def tptp (r : Registry) (sections : List DocumentSection) : Document :=
  titled (background
    ++ ((declarations r).map fun t => ((Text.ofString "types"), [Except.ok t])).toList
    ++ ofSections (tptpLine r) sections)

/-- The sections in the notation of specifications. -/
def human (r : Registry) (sections : List DocumentSection) : Document :=
  titled (ofSections (humanLine r) sections)

/-- The sections in a format. -/
def ofFormat (format : Format) (r : Registry) (sections : List DocumentSection) : Document :=
  match format with
  | .human => human r sections
  | .tptp => tptp r sections

/-- The error for a place that cannot take the whole text. -/
def unwritable (format : Format) (cause : Error) : Error :=
  match format with
  | .tptp => .caused .unwritableProblem .unknown cause
  | .human => .during "failed to write problem" cause

end Document

end LogicProgram
