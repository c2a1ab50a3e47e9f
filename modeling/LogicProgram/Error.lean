import LogicProgram.Symbol

/-!
# Errors

Every operation that can fail says why with a `Fault`. An `Error` is a fault
with the place it was found at and the error behind it, an error of the lexer,
a plain message from outside, or another error in a wider context. The wording
of all of them is in `Fault.summary` and `Error.message`.
-/

namespace LogicProgram

/-- A place in a text, counted from one; nothing in a text is at line zero. -/
structure Position where
  /-- One more than the number of line feeds before the place. -/
  line : Nat
  /-- One more than the number of bytes since the last line feed. -/
  column : Nat
deriving DecidableEq, Repr, Inhabited

namespace Position

/-- The place of something that is not in a text. -/
def unknown : Position := ⟨0, 0⟩

/-- Where a text starts. -/
def start : Position := ⟨1, 1⟩

/-- The place after one byte. -/
def advance (p : Position) (b : UInt8) : Position :=
  if Text.isChar '\n' b then ⟨p.line + 1, 1⟩ else ⟨p.line, p.column + 1⟩

/-- The place after a text. -/
def after (p : Position) (t : Text) : Position := t.foldl advance p

end Position

/-- The place that an error is reported at, as it was given; line zero means
that it is not known. -/
structure Place where
  line : Int
  column : Int
deriving DecidableEq, Repr, Inhabited

namespace Place

def unknown : Place := ⟨0, 0⟩

/-- The place of a position in a text. -/
@[coe] def ofPosition (p : Position) : Place := ⟨p.line, p.column⟩

instance : Coe Position Place := ⟨ofPosition⟩

end Place

/-- The predicate that a fault is about. The number of arguments is reported as
it was given, also if no predicate can have it. -/
structure Subject where
  name : Text
  arity : Int
deriving DecidableEq, Repr, Inhabited

namespace Subject

/-- The subject of a fault about a predicate. -/
@[coe] def ofSymbol (s : Symbol) : Subject := ⟨s.name, s.arity⟩

instance : Coe Symbol Subject := ⟨ofSymbol⟩

/-- A subject as it is shown: `name/arity`. -/
def text (s : Subject) : Text := s.name ++ "/" ++ Text.ofInt s.arity

end Subject

/-- What went wrong. -/
inductive Fault where
  /-- A state that the program's own rules exclude. -/
  | logic (detail : Text)
  /-- A part of the program language without a first-order reading here. -/
  | unsupportedFeature (feature : Text)
  /-- A feature that is planned and missing. -/
  | notImplemented (feature : Text)
  /-- A file that could not be read. -/
  | unreadableFile (path : Text)
  /-- A specification statement must start with a keyword. -/
  | expectedStatement
  /-- The keyword of a statement must be followed by a colon. -/
  | expectedColon
  /-- A word that starts no statement. -/
  | unknownStatement (word : Text)
  /-- An opening parenthesis without its partner. -/
  | unmatchedParenthesis
  /-- A statement must end with a full stop. -/
  | missingTerminator
  /-- A declaration names a constant or predicate. -/
  | expectedIdentifier
  /-- An output declaration names a predicate with its arity. -/
  | expectedPredicateSpecifier
  | unknownDirection (name : Text)
  | unknownDomain (name : Text)
  | unknownColor (name : Text)
  /-- A formula that does not follow the grammar. -/
  | malformedFormula (detail : Text)
  /-- A program that does not follow the grammar. -/
  | malformedProgram (detail : Text)
  /-- A variable whose name determines no domain. -/
  | variableNameNotAllowed (name : Text)
  /-- A variable that was given two domains. -/
  | inconsistentDomain (label detail : Text)
  /-- A formula with free variables where a closed one is needed. -/
  | notClosed (free : List Text)
  /-- A predicate that has no completed definition. -/
  | noDefinition (predicate : Subject)
  /-- A predicate whose definition mentions it cannot be hidden. -/
  | cannotHide (predicate : Subject)
  /-- A private predicate that depends on itself. -/
  | privateCycle (predicate : Subject)
  /-- A private predicate in a specification. -/
  | privateInSpecification (predicate : Subject)
  /-- A private predicate that depends on a public one. -/
  | privateDependsOnPublic (predicate : Subject) (dependency : Text)
  /-- A proof problem that could not be written. -/
  | unwritableProblem
  /-- A prover that could not be started. -/
  | proverNotRun
  /-- A prover that ended with an error; a negative exit code means a signal. -/
  | proverFailed (exitCode : Int) (stdout stderr : Text)
  /-- A prover that ended well and said nothing understood. -/
  | proverNotUnderstood (stdout stderr : Text)
  | badConfiguration (detail : Text)
  /-- A configuration file that does not have the form of one. -/
  | malformedConfiguration (path detail : Text)
  /-- A fault of no known sort. Different ones have different numbers. -/
  | unspecified (number : Int)
deriving DecidableEq, Repr

namespace Fault

/-- Whether the fault is about a place in a text, which its message then names. -/
def isLocated : Fault → Bool
  | expectedStatement | expectedColon | unknownStatement _ | unmatchedParenthesis
  | missingTerminator | expectedIdentifier | expectedPredicateSpecifier
  | unknownDirection _ | unknownDomain _ | malformedFormula _ | malformedProgram _ => true
  | _ => false

/-- Both channels of a prover run under their headings. -/
def transcript (stdout stderr : Text) : Text :=
  "\n==== stdout ====\n" ++ stdout ++ "\n==== stderr ====\n" ++ stderr

/-- The wording of a fault, without place and cause. -/
def summary : Fault → Text
  | logic detail => "logic error, please report to bug tracker (" ++ detail ++ ")"
  | unsupportedFeature feature => "language feature not yet supported (" ++ feature ++ ")"
  | notImplemented feature => "not yet implemented (" ++ feature ++ ")"
  | unreadableFile path => "could not read file " ++ path.enquoted
  | expectedStatement => "expected statement"
  | expectedColon => "expected ‘:’"
  | unknownStatement word => "unknown statement " ++ word.enquoted
  | unmatchedParenthesis => "unmatched parenthesis"
  | missingTerminator => "statement not terminated with ‘.’ character"
  | expectedIdentifier => "expected constant or predicate specifier"
  | expectedPredicateSpecifier => "expected predicate specifier"
  | unknownDirection name => "unknown proof direction " ++ name.enquoted
  | unknownDomain name => "unknown domain " ++ name.enquoted
  | unknownColor name => "unknown color choice " ++ name.enquoted
  | malformedFormula detail => "could not parse formula (" ++ detail ++ ")"
  | malformedProgram detail => "could not parse program (" ++ detail ++ ")"
  | variableNameNotAllowed name =>
    "variable name " ++ name.enquoted ++ " not allowed (program variables must start with X, Y, or Z and integer variables with I, J, K, L, M, or N)"
  | inconsistentDomain label detail =>
    "inconsistent domain for variable " ++ label.enquoted ++ " (" ++ detail ++ ")"
  | notClosed free =>
    "formula may not contain free variables (free variables in this formula: " ++ Text.join ", " free ++ ")"
  | noDefinition p => "no completed definition found for " ++ p.text
  | cannotHide p =>
    "cannot hide predicate " ++ p.text ++ " (the completed definition transitively depends on itself)"
  | privateCycle p =>
    "program is not supertight (private predicate " ++ p.text ++ " transitively depends on itself)"
  | privateInSpecification p =>
    p.text ++ " should not occur in specification because it’s a private predicate (consider declaring it an input or output predicate)"
  | privateDependsOnPublic p dependency =>
    "private predicate " ++ p.text ++ " should not depend on public predicate " ++ dependency
  | unwritableProblem => "error writing TPTP program"
  | proverNotRun => "could not run the prover"
  | proverFailed exitCode stdout stderr =>
    "error proving program (exit code: " ++ (if exitCode < 0 then ("unknown" : Text) else Text.ofInt exitCode)
      ++ ")" ++ transcript stdout stderr
  | proverNotUnderstood stdout stderr =>
    "could not parse prover output" ++ transcript stdout stderr
  | badConfiguration detail => "invalid configuration (" ++ detail ++ ")"
  | malformedConfiguration path detail =>
    "invalid configuration (" ++ path ++ ": " ++ detail ++ ")"
  | unspecified _ => "unknown error"

end Fault

/-- A failure with everything that its message tells. -/
inductive Error where
  /-- A message from outside, such as the file system's. -/
  | plain (text : Text)
  /-- A text that cannot be split into tokens. -/
  | lexical (detail : Text) (position : Position)
  /-- An error met while doing something wider. -/
  | during (activity : Text) (cause : Error)
  /-- A fault found at a place. -/
  | fault (fault : Fault) (place : Place)
  /-- A fault found at a place, with the error behind it. -/
  | caused (fault : Fault) (place : Place) (cause : Error)
deriving DecidableEq, Repr

namespace Error

instance : Inhabited Error := ⟨.plain []⟩

instance : Coe Fault Error := ⟨fun f => .fault f .unknown⟩

/-- A fault's wording after the place it was found at, if it has one. -/
def locate (f : Fault) (p : Place) : Text :=
  if f.isLocated && p.line != 0 then
    Text.ofInt p.line ++ ":" ++ Text.ofInt p.column ++ ": " ++ f.summary
  else f.summary

/-- The full text of an error. -/
def message : Error → Text
  | plain t => t
  | lexical detail p =>
    "line " ++ Text.ofNat p.line ++ " col " ++ Text.ofNat p.column ++ ": " ++ detail
  | during activity cause => activity ++ ": " ++ cause.message
  | fault f p => locate f p
  | caused f p cause => locate f p ++ ": " ++ cause.message

/-- The faults of an error, from the outermost to the one behind all others. -/
def faults : Error → List Fault
  | plain _ | lexical _ _ => []
  | during _ cause => cause.faults
  | fault f _ => [f]
  | caused f _ cause => f :: cause.faults

end Error

end LogicProgram
