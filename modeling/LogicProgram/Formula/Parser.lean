import LogicProgram.Formula.Variables
import LogicProgram.Registry
import LogicProgram.Token.Lexer
import LogicProgram.Token.Parser

/-!
# Reading formulas

The formulas of specifications. Equivalences are weakest, then implications,
disjunctions, conjunctions, and negation and quantifiers; comparisons may be
chained. A variable is the one that the innermost quantifier with its name
lists; names that no quantifier lists are collected, and a formula that has any
is refused. Functions and predicates are declared as they are read.

As for rules, the number `n` that the parsers take bounds nesting and
repetition, and is the number of tokens.
-/

namespace LogicProgram

/-- Names and the variables they stand for. -/
abbrev Scope := List (Text × Variable)

/-- What the parser of formulas keeps. -/
structure FormulaContext where
  registry : Registry
  /-- The variables of the quantifiers around the current place, the innermost
  first. -/
  scopes : List Scope
  /-- The variables that no quantifier lists, by first occurrence. -/
  free : Scope

/-- A parser of parts of specifications. -/
abbrev FormulaParser := Parser FormulaContext

namespace FormulaParser

variable {α : Type}

def register (step : Registering α) : FormulaParser α := do
  let s ← get
  let (r, registry) := (step.run s.context.registry : Except Error α × Registry)
  set { s with context := { s.context with registry } }
  match r with
  | .ok a => return a
  | .error e => throw e

/-- Fails at the current token. -/
def failHere (detail : Text) : FormulaParser α := Parser.failHere (.malformedFormula detail)

/-- Passes the symbol or identifier `word`, which must come next. -/
def expect (word : Text) : FormulaParser Unit := do
  unless ← Parser.accept word do
    failHere ("expected " ++ word.enquoted ++ ", found " ++ (← Parser.peek).text)

/-- A new variable of a given name, in the domain that the name determines. -/
def newVariable (name : Text) : FormulaParser Variable := do
  match Domain.ofVariableName name with
  | .error e => throw e
  | .ok domain => register do
    let v ← Registering.namedVariable name
    Registering.assignDomain v (some domain)
    return v

/-- The variable that a name stands for at the current place. -/
def resolve (name : Text) : FormulaParser Variable := do
  let context := (← get).context
  match context.scopes.findSome? (·.lookup name) with
  | some v => return v
  | none =>
    match context.free.lookup name with
    | some v => return v
    | none => do
      let v ← newVariable name
      modify fun s =>
        { s with context := { s.context with free := s.context.free ++ [(name, v)] } }
      return v

/-- The relation that the current token spells. -/
def comparison? : FormulaParser (Option Comparison) := do
  let t ← Parser.peek
  return if t.kind == .symbol then Comparison.ofText? t.value else none

/-- Passes one of several operators if it comes next. -/
def acceptOperator (ops : List Term.Operator) : FormulaParser (Option (Term → Term → Term)) := do
  let t ← Parser.peek
  match ops.find? (fun op => t.is op.text) with
  | none => return none
  | some op => do
    Parser.advance
    return some (Term.binary op)

/-- The error for a number token that is out of range. -/
def outOfRange (t : Token) : FormulaParser α :=
  throw (.fault (.malformedFormula "integer out of range") t.position)

section TermLayers

-- `n` bounds nesting and repetition; `term` reads a whole term inside brackets.
variable (n : Nat) (term : FormulaParser Term)

/-- The arguments of a function or predicate, if an opening parenthesis comes
next. -/
def arguments : FormulaParser (List Term) := do
  unless ← Parser.accept "(" do return []
  let args ← Parser.oneOrMore term (Parser.accept ",") n
  expect ")"
  return args

/-- A term without operators outside brackets. -/
def primaryTerm : FormulaParser Term := do
  let t ← Parser.peek
  match t.kind with
  | .number => do
    Parser.advance
    if Nat.pow 2 31 ≤ Text.toNat t.value then outOfRange t
    return .integer (Text.toNat t.value)
  | .string => do
    Parser.advance
    return .string t.value
  | .variable => do
    Parser.advance
    return .variable (← resolve t.value)
  | .directive =>
    if t.value == Text.ofString "inf" || t.value == Text.ofString "infimum" then do
      Parser.advance
      return .infimum
    else if t.value == Text.ofString "sup" || t.value == Text.ofString "supremum" then do
      Parser.advance
      return .supremum
    else if t.value == Text.ofString "true" then do
      Parser.advance
      return .boolean true
    else if t.value == Text.ofString "false" then do
      Parser.advance
      return .boolean false
    else failHere ("expected term, found " ++ t.text)
  | .identifier => do
    Parser.advance
    let args ← arguments n term
    register (Registering.function ⟨t.value, args.length⟩)
    return .function t.value args
  | .symbol | .endOfInput => do
    if ← Parser.accept "(" then
      let inner ← term
      expect ")"
      return inner
    if ← Parser.accept "|" then
      let inner ← term
      expect "|"
      return .unary .absolute inner
    failHere ("expected term, found " ++ t.text)

/-- A primary term after any number of minus signs. A sign directly before a
number belongs to it. -/
def unaryTerm : (rounds : Nat) → FormulaParser Term
  | 0 => primaryTerm n term
  | rounds + 1 => do
    unless ← Parser.accept "-" do return ← primaryTerm n term
    let t ← Parser.peek
    if t.kind == .number then
      Parser.advance
      if Nat.pow 2 31 < Text.toNat t.value then outOfRange t
      return .integer (-(Text.toNat t.value : Int))
    return .unary .negative (← unaryTerm rounds)

def multiplicative : FormulaParser Term := do
  Parser.chainLeft (unaryTerm n term n) (acceptOperator [.multiply, .divide, .modulo]) n
    (← unaryTerm n term n)

def additive : FormulaParser Term := do
  Parser.chainLeft (multiplicative n term) (acceptOperator [.add, .subtract]) n
    (← multiplicative n term)

end TermLayers

/-- A term, nested at most `depth` deep. -/
def term (n : Nat) : (depth : Nat) → FormulaParser Term
  | 0 => throw (.fault (.logic "terms are nested deeper than there are tokens") .unknown)
  | depth + 1 => additive n (term n depth)

/-- Whether a token continues a term: a relation or an arithmetic operator. -/
def continuesTerm (t : Token) : Bool :=
  (t.kind == .symbol && (Comparison.ofText? t.value).isSome)
    || [Term.Operator.add, .subtract, .multiply, .divide, .modulo].any fun op => t.is op.text

/-- The tokens after the parenthesis that closes `depth + 1` open ones. -/
def afterGroup : (depth : Nat) → List Token → List Token
  | _, [] => []
  | depth, t :: r =>
    if t.is "(" then afterGroup (depth + 1) r
    else if t.is ")" then
      match depth with
      | 0 => r
      | depth + 1 => afterGroup depth r
    else afterGroup depth r

/-- Whether the identifier, application or group at the start of a stream is
part of a term, because something that continues a term comes after it. -/
def startsTerm (s : Stream) : Bool :=
  let after : List Token :=
    match s.ahead with
    | [] => []
    | t :: r =>
      if t.kind == .identifier then
        match r with
        | u :: r' => if u.is "(" then afterGroup 0 r' else r
        | [] => []
      else afterGroup 0 r
  continuesTerm (after.headD s.last)

/-- The comparisons of a chain after its first term. -/
def links (n : Nat) : (rounds : Nat) → Term → FormulaParser (List Formula)
  | 0, _ => return []
  | rounds + 1, left => do
    match ← comparison? with
    | none => return []
    | some op => do
      Parser.advance
      let right ← term n n
      return .compare op left right :: (← links n rounds right)

/-- A formula, or several joined by a connective. -/
def joinAll (connective : Connective) : List Formula → Formula
  | [f] => f
  | fs => .join connective fs

/-- One or more comparisons in a row, which all have to hold. -/
def comparisons (n : Nat) : FormulaParser Formula := do
  let left ← term n n
  let fs ← links n n left
  if fs.isEmpty then
    failHere ("expected comparison operator, found " ++ (← Parser.peek).text)
  return joinAll .and fs

def predicate (n : Nat) : FormulaParser Formula := do
  let name ← Parser.next
  let args ← arguments n (term n n)
  register (Registering.predicate ⟨name.value, args.length⟩)
  return .atom name.value args

/-- The variables that a quantifier lists. -/
def parameters : (rounds : Nat) → Scope → FormulaParser Scope
  | 0, scope => return scope
  | rounds + 1, scope => do
    let t ← Parser.peek
    unless t.kind == .variable do return scope
    Parser.advance
    if (scope.lookup t.value).isSome then
      throw (.fault (.malformedFormula ("variable " ++ t.value ++ " is bound twice")) t.position)
    let v ← newVariable t.value
    parameters rounds (scope ++ [(t.value, v)])

/-- A parser inside one more scope. -/
def inScope (scope : Scope) (p : FormulaParser α) : FormulaParser α := do
  let outer := (← get).context.scopes
  modify fun s => { s with context := { s.context with scopes := scope :: outer } }
  let a ← p
  modify fun s => { s with context := { s.context with scopes := outer } }
  return a

section FormulaLayers

-- `n` bounds nesting and repetition; `formula` reads a whole formula inside parentheses.
variable (n : Nat) (formula : FormulaParser Formula)

/-- Whether the current token is a truth value. -/
def isTruthValue (t : Token) (name : Text) : Bool :=
  t.is name || (t.kind == .directive && t.value == name)

/-- A formula without connectives outside parentheses. -/
def primary : FormulaParser Formula := do
  let t ← Parser.peek
  let isTerm := startsTerm (← get).stream
  if t.is "(" && !isTerm then
    Parser.advance
    let f ← formula
    expect ")"
    return f
  if isTruthValue t "true" then
    Parser.advance
    return .boolean true
  if isTruthValue t "false" then
    Parser.advance
    return .boolean false
  if t.kind == .identifier && !isTerm then predicate n
  else comparisons n

/-- The quantifier that a token names. -/
def quantifier? (t : Token) : Option Quantifier :=
  if t.is "forall" then some .universal
  else if t.is "exists" then some .existential
  else none

/-- A primary formula after any number of negations and quantifiers. -/
def unary : (rounds : Nat) → FormulaParser Formula
  | 0 => primary n formula
  | rounds + 1 => do
    if ← Parser.accept "not" then return .not (← unary rounds)
    let t ← Parser.peek
    match quantifier? t with
    | none => primary n formula
    | some quantifier => do
      Parser.advance
      let scope ← parameters n []
      if scope.isEmpty then
        failHere ("expected variable after " ++ t.value.enquoted ++ ", found "
          ++ (← Parser.peek).text)
      let body ← inScope scope (unary rounds)
      return .quantified quantifier (scope.map (·.2)) body

def conjunction : FormulaParser Formula :=
  joinAll .and <$> Parser.oneOrMore (unary n formula n) (Parser.accept "and") n

def disjunction : FormulaParser Formula :=
  joinAll .or <$> Parser.oneOrMore (conjunction n formula) (Parser.accept "or") n

/-- Passes an arrow to the left. -/
def acceptReverseArrow : FormulaParser (Option (Formula → Formula → Formula)) := do
  if ← Parser.accept "<-" then return some fun consequent antecedent => .implies antecedent consequent
  return none

/-- Implications. Arrows to the right group to the right, and arrows to the
left to the left. -/
def implication : (rounds : Nat) → FormulaParser Formula
  | 0 => disjunction n formula
  | rounds + 1 => do
    let f ← disjunction n formula
    if ← Parser.accept "->" then return .implies f (← implication rounds)
    Parser.chainLeft (disjunction n formula) acceptReverseArrow n f

def equivalence : FormulaParser Formula :=
  joinAll .iff <$> Parser.oneOrMore (implication n formula n) (Parser.accept "<->") n

end FormulaLayers

/-- A formula, nested at most `depth` deep. -/
def formula (n : Nat) : (depth : Nat) → FormulaParser Formula
  | 0 => throw (.fault (.logic "formulas are nested deeper than there are tokens") .unknown)
  | depth + 1 => equivalence n (formula n depth)

/-- A formula without free variables. -/
def closedFormula (n : Nat) : FormulaParser Formula := do
  modify fun s => { s with context := { s.context with scopes := [], free := [] } }
  let f ← formula n n
  let free := (← get).context.free
  unless free.isEmpty do throw (Fault.notClosed (free.map (·.1)) : Error)
  return f

/-- A closed formula with an optional full stop and nothing after it. -/
def wholeFormula (n : Nat) : FormulaParser Formula := do
  let f ← closedFormula n
  let _ ← Parser.accept "."
  unless ← Parser.atEnd do
    failHere ("unexpected " ++ (← Parser.peek).text ++ " after formula")
  return f

/-- Runs a parser on a text. The parser is given the number of tokens. -/
def onText (p : Nat → FormulaParser α) (t : Text) : Registering α := do
  match Token.tokenize t with
  | .error (.lexical detail position) => throw (.fault (.malformedFormula detail) position)
  | .error e => throw e
  | .ok tokens =>
    let (r, s) := Parser.runOn (p tokens.length) tokens ⟨← get, [], []⟩
    set s.context.registry
    match r with
    | .ok a => return a
    | .error e => throw e

end FormulaParser

/-- The closed formula that a text spells. -/
def Formula.parse (t : Text) : Registering Formula :=
  FormulaParser.onText FormulaParser.wholeFormula t

end LogicProgram
