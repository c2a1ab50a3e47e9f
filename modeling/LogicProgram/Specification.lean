import LogicProgram.Formula.Parser
import LogicProgram.Problem.Statement

/-!
# Specifications

A specification is a list of statements, each ended by a full stop: axioms,
assumptions, lemmas for one or both directions, and assertions, with the
declarations of inputs and outputs between them. Declarations take effect at
once, so they remain when a later statement is refused.
-/

namespace LogicProgram

/-- A statement of a specification. -/
structure Specification.Item where
  /-- What the statement is for. -/
  kind : StatementKind
  /-- The direction that a lemma is for. -/
  direction : Direction
  formula : Formula
  /-- The line it starts on. -/
  line : Nat
deriving Repr, Inhabited

/-- The statements of a specification in order. -/
structure Specification where
  items : List Specification.Item
deriving Repr, Inhabited

namespace Specification

/-- The section of a proof problem for statements of a kind. -/
def sectionOf : StatementKind → SectionKind
  | .axiomatic => .axioms
  | .assumption => .assumptions
  | .auxiliary => .lemmas
  | .assertion | .program => .assertions

/-- The formulas of the statements of some kinds. -/
def formulas (s : Specification) (kinds : List StatementKind) : List Formula :=
  (s.items.filter (kinds.contains ·.kind)).map (·.formula)

namespace Grammar

/-- The kind of statement that a keyword starts. -/
def kindOf? (word : Text) : Option StatementKind :=
  if word == Text.ofString "axiom" then some .axiomatic
  else if word == Text.ofString "assume" then some .assumption
  else if word == Text.ofString "lemma" then some .auxiliary
  else if word == Text.ofString "assert" || word == Text.ofString "spec" then some .assertion
  else none

/-- Passes a colon, which must come next. -/
def colon : FormulaParser Unit := do
  unless ← Parser.accept ":" do Parser.failHere .expectedColon

/-- Passes a full stop, which must come next. -/
def terminator : FormulaParser Unit := do
  unless ← Parser.accept "." do Parser.failHere .missingTerminator

/-- The direction of a lemma after its opening parenthesis; both if none is
named. -/
def direction : FormulaParser Direction := do
  let t ← Parser.peek
  let d ← do
    if t.kind == .identifier then
      match Direction.ofText? t.value with
      | none => Parser.failHere (.unknownDirection t.value)
      | some d => do
        Parser.advance
        pure d
    else pure .both
  unless ← Parser.accept ")" do Parser.failHere .unmatchedParenthesis
  return d

/-- The largest arity that can be written. -/
def maxArity : Nat := Nat.pow 2 63 - 1

/-- The arity after a slash, if there is one. -/
def arity? : FormulaParser (Option Nat) := do
  unless ← Parser.accept "/" do return none
  let t ← Parser.peek
  unless t.kind == .number && Text.toNat t.value ≤ maxArity do
    Parser.failHere .expectedPredicateSpecifier
  Parser.advance
  return some (Text.toNat t.value)

def name : FormulaParser Text := do
  let t ← Parser.peek
  unless t.kind == .identifier do Parser.failHere .expectedIdentifier
  Parser.advance
  return t.value

/-- The domain after an arrow, if there is one. -/
def domain : FormulaParser Domain := do
  unless ← Parser.accept "->" do return .program
  let t ← Parser.peek
  unless t.kind == .identifier do Parser.failHere .expectedIdentifier
  let d ← do
    if t.value == Text.ofString "integer" then pure Domain.integer
    else if t.value == Text.ofString "program" then pure Domain.program
    else Parser.failHere (.unknownDomain t.value)
  Parser.advance
  return d

/-- One input: a predicate with its arity, or a constant with its domain. -/
def input : FormulaParser Unit := do
  let name ← name
  match ← arity? with
  | some arity =>
    FormulaParser.register do
      Registering.predicate ⟨name, arity⟩
      modify (·.updatePredicate ⟨name, arity⟩ ({ · with isInput := true }))
  | none => do
    let domain ← domain
    FormulaParser.register do
      Registering.function ⟨name, 0⟩
      modify (·.updateFunction ⟨name, 0⟩ ({ · with isInput := true, domain := some domain }))

/-- One output: a predicate with its arity. -/
def output : FormulaParser Unit := do
  let name ← name
  match ← arity? with
  | none => Parser.failHere .expectedPredicateSpecifier
  | some arity =>
    FormulaParser.register do
      Registering.predicate ⟨name, arity⟩
      modify (·.updatePredicate ⟨name, arity⟩ ({ · with isOutput := true }))

/-- A list of declarations after its keyword. -/
def declarations (n : Nat) (one : FormulaParser Unit) : FormulaParser Unit := do
  colon
  let _ ← Parser.oneOrMore one (Parser.accept ",") n
  terminator

/-- One statement, or nothing for a list of declarations. -/
def statement (n : Nat) : FormulaParser (Option Item) := do
  let t ← Parser.peek
  unless t.kind == .identifier do Parser.failHere .expectedStatement
  if t.value == Text.ofString "input" then
    Parser.advance
    declarations n input
    return none
  if t.value == Text.ofString "output" then
    Parser.advance
    declarations n output
    return none
  match kindOf? t.value with
  | none => Parser.failHere (.unknownStatement t.value)
  | some kind => do
    Parser.advance
    let direction ← do
      if kind == .auxiliary then
        if ← Parser.accept "(" then direction else pure .both
      else pure .both
    colon
    let formula ← FormulaParser.closedFormula n
    terminator
    return some ⟨kind, direction, formula, t.position.line⟩

/-- All statements up to the end, at most `rounds` of them. -/
def statements (n : Nat) : (rounds : Nat) → FormulaParser (List Item)
  | 0 => return []
  | rounds + 1 => do
    if ← Parser.atEnd then return []
    match ← statement n with
    | none => statements n rounds
    | some item => return item :: (← statements n rounds)

end Grammar

/-- The specification that a text spells. -/
def parse (t : Text) : Registering Specification :=
  Specification.mk <$> FormulaParser.onText (fun n => Grammar.statements n n) t

end Specification

end LogicProgram
