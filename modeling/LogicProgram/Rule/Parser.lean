import LogicProgram.Rule.Printer
import LogicProgram.Token.Lexer
import LogicProgram.Token.Parser

/-!
# Reading rules

A recursive-descent parser. Terms are read in layers, from intervals down to
primary terms, and only a primary term that has passed an opening bracket reads
a whole term again. The number `n` that all parsers take bounds both the depth
of that nesting and the length of every repetition; `parse` sets it to the
number of tokens.
-/

namespace LogicProgram.Rule

namespace Grammar

/-- A parser of parts of rules. -/
abbrev RuleParser := Parser Unit

def failHere {α : Type} (detail : Text) : RuleParser α := Parser.failHere (.malformedProgram detail)

/-- Passes the symbol or identifier `word`, which must come next. -/
def expect (word : Text) : RuleParser Unit := do
  unless ← Parser.accept word do
    failHere ("expected " ++ word.enquoted ++ ", found " ++ (← Parser.peek).text)

/-- The largest integer literal. -/
def maxNumber : Nat := Nat.pow 2 31 - 1

/-- The relation that a token spells; `==` and `<>` are second spellings. -/
def comparison? (t : Token) : Option Comparison :=
  if t.kind != .symbol then none
  else if t.value == Text.ofString "==" then some .equal
  else if t.value == Text.ofString "<>" then some .notEqual
  else Comparison.ofText? t.value

/-- Passes a relation if one comes next. -/
def acceptComparison : RuleParser (Option Comparison) := do
  match comparison? (← Parser.peek) with
  | none => return none
  | some op => do
    Parser.advance
    return some op

/-- Passes one of several operators if it comes next. -/
def acceptOperator (ops : List Operator) : RuleParser (Option (Term → Term → Term)) := do
  let t ← Parser.peek
  match ops.find? (fun op => t.is op.text) with
  | none => return none
  | some op => do
    Parser.advance
    return some (Term.binary op)

/-- The negation before a literal. -/
def sign : RuleParser Sign := do
  if ← Parser.accept "not" then
    if ← Parser.accept "not" then return .doublyNegated
    return .negated
  return .plain

/-- A group of terms: the term itself, or a tuple of several. -/
def tuple : List Term → Term
  | [t] => t
  | ts => .function false [] ts

section Layers

-- `n` bounds nesting and repetition; `term` reads a whole term inside brackets.
variable (n : Nat) (term : RuleParser Term)

/-- Groups of terms between commas, separated by semicolons. -/
def alternatives : RuleParser (List Term) :=
  Parser.oneOrMore (tuple <$> Parser.oneOrMore term (Parser.accept ",") n) (Parser.accept ";") n

/-- The arguments of a function, if an opening parenthesis comes next. Several
alternatives are one pool, and a single tuple gives its components. -/
def arguments : RuleParser (List Term) := do
  unless ← Parser.accept "(" do return []
  if ← Parser.accept ")" then return []
  let ts ← alternatives n term
  expect ")"
  match ts with
  | [.function _ [] args] => return args
  | [_] => return ts
  | _ => return [.pool ts]

/-- The value of a number token. -/
def number (t : Token) : RuleParser Term := do
  let value := Text.toNat t.value
  if maxNumber < value then
    throw (.fault (.malformedProgram ("integer " ++ t.value ++ " out of range")) t.position)
  return .number value

/-- A term that starts with a symbol. -/
def bracketed : RuleParser Term := do
  if ← Parser.accept "@" then
    let name ← Parser.peek
    unless name.kind == .identifier do failHere "expected function name after “@”"
    Parser.advance
    return .function true name.value (← arguments n term)
  if ← Parser.accept "|" then
    let arg ← term
    expect "|"
    return .unary .absolute arg
  if ← Parser.accept "(" then
    let ts ← alternatives n term
    expect ")"
    match ts with
    | [t] => return t
    | _ => return .pool ts
  failHere ("expected term, found " ++ (← Parser.peek).text)

/-- A term without operators outside brackets. -/
def primary : RuleParser Term := do
  let t ← Parser.peek
  match t.kind with
  | .number => do
    Parser.advance
    number t
  | .string => do
    Parser.advance
    return .string t.value
  | .variable => do
    Parser.advance
    return .variable t.value
  | .directive =>
    if t.value == Text.ofString "inf" || t.value == Text.ofString "infimum" then do
      Parser.advance
      return .infimum
    else if t.value == Text.ofString "sup" || t.value == Text.ofString "supremum" then do
      Parser.advance
      return .supremum
    else failHere ("unexpected " ++ t.text)
  | .identifier =>
    if t.value == Text.ofString "not" then failHere "unexpected “not”"
    else do
      Parser.advance
      return .function false t.value (← arguments n term)
  | .symbol | .endOfInput => bracketed n term

/-- A term after minus: an integer takes the sign into its value. -/
def negate : Term → Term
  | .number value => .number (-value)
  | t => .unary .minus t

/-- A primary term after any number of unary operators. -/
def unary : (rounds : Nat) → RuleParser Term
  | 0 => primary n term
  | rounds + 1 => do
    if ← Parser.accept "-" then return negate (← unary rounds)
    if ← Parser.accept "~" then return .unary .bitNegation (← unary rounds)
    primary n term

/-- Terms joined to the right by a power sign. -/
def joinPowers : List Term → Term
  | [] => .infimum
  | [t] => t
  | t :: u :: r => .binary .power t (joinPowers (u :: r))

/-- Powers, which group to the right. -/
def power : RuleParser Term :=
  joinPowers <$> Parser.oneOrMore (unary n term n) (Parser.accept "**") n

/-- Products. -/
def multiplicative : RuleParser Term := do
  Parser.chainLeft (power n term)
    (acceptOperator [.multiply, .divide, .modulo]) n (← power n term)

/-- Sums and bitwise operations. -/
def additive : RuleParser Term := do
  Parser.chainLeft (multiplicative n term)
    (acceptOperator [.add, .subtract, .bitAnd, .bitOr, .bitXor]) n
    (← multiplicative n term)

/-- A sum or an interval between two. -/
def intervalOrSum : RuleParser Term := do
  let lower ← additive n term
  unless ← Parser.accept ".." do return lower
  return .interval lower (← additive n term)

end Layers

/-- A term, nested at most `depth` deep. -/
def term (n : Nat) : (depth : Nat) → RuleParser Term
  | 0 => throw (.fault (.logic "terms are nested deeper than there are tokens") .unknown)
  | depth + 1 => intervalOrSum n (term n depth)

def atom (n : Nat) : RuleParser Atom := do
  let t ← Parser.peek
  if t.kind == .directive && t.value == Text.ofString "true" then
    Parser.advance
    return .boolean true
  if t.kind == .directive && t.value == Text.ofString "false" then
    Parser.advance
    return .boolean false
  let left ← term n n
  match ← acceptComparison with
  | some op => return .comparison op left (← term n n)
  | none => return .symbolic left

/-- An atom after its sign. -/
def literal (n : Nat) : RuleParser Literal := do
  let sign ← sign
  return ⟨sign, ← atom n⟩

/-- A literal and the literals after a colon. -/
def conditionalLiteral (n : Nat) : RuleParser ConditionalLiteral := do
  let head ← literal n
  unless ← Parser.accept ":" do return ⟨head, []⟩
  return ⟨head, ← Parser.oneOrMore (literal n) (Parser.accept ",") n⟩

/-- The bound before a choice: a term and perhaps a relation, then a brace. -/
def leftGuard (n : Nat) : RuleParser (Option Guard) := do
  let bound ← term n n
  if ← Parser.isAt "\x7b" then return some ⟨.lessOrEqual, bound⟩
  match ← acceptComparison with
  | none => return none
  | some op =>
    if ← Parser.isAt "\x7b" then return some ⟨op, bound⟩
    return none

/-- The bound after a choice: a relation and a term, or a term that starts with
a number or variable. -/
def rightGuard (n : Nat) : RuleParser (Option Guard) := do
  match ← acceptComparison with
  | some op => return some ⟨op, ← term n n⟩
  | none =>
    let t ← Parser.peek
    if t.kind == .number || t.kind == .variable then
      return some ⟨.lessOrEqual, ← term n n⟩
    return none

/-- A choice after its left bound. -/
def choice (n : Nat) (left : Option Guard) : RuleParser Head := do
  expect "\x7b"
  let elements ← do
    if ← Parser.isAt "\x7d" then pure []
    else Parser.oneOrMore (conditionalLiteral n) (Parser.accept ";") n
  expect "\x7d"
  return .choice left (← rightGuard n) elements

/-- Passes a separator of disjuncts. -/
def acceptDisjunctSeparator : RuleParser Bool := do
  if ← Parser.accept ";" then return true
  Parser.accept "|"

def head (n : Nat) : RuleParser Head := do
  if ← Parser.isAt "\x7b" then return ← choice n none
  if let some guard ← Parser.attempt (leftGuard n) then return ← choice n (some guard)
  match ← Parser.oneOrMore (conditionalLiteral n) acceptDisjunctSeparator n with
  | [⟨l, []⟩] => return .literal l
  | elements => return .disjunction elements

/-- The directives that may start a literal. -/
def literalDirectives : List Text :=
  List.map Text.ofString ["true", "false", "inf", "sup", "infimum", "supremum"]

/-- Whether a token is a directive that starts no literal. -/
def isForeignDirective (t : Token) : Bool :=
  t.kind == .directive && !literalDirectives.contains t.value

/-- Passes everything up to the brace that closes `depth + 1` open ones. -/
def skipBraces : (rounds depth : Nat) → RuleParser Unit
  | 0, _ => failHere "aggregate is not closed"
  | rounds + 1, depth => do
    let t ← Parser.next
    if t.kind == .endOfInput then failHere "aggregate is not closed"
    else if t.is "\x7b" then skipBraces rounds (depth + 1)
    else if t.is "\x7d" then
      match depth with
      | 0 => return ()
      | depth + 1 => skipBraces rounds depth
    else skipBraces rounds depth

/-- An aggregate in a body, whose elements and bound are passed over. -/
def bodyAggregate (n : Nat) : RuleParser BodyElement := do
  let function ← Parser.next
  expect "\x7b"
  skipBraces (n + 1) 0
  if (← acceptComparison).isSome then
    let _ ← term n n
  return .aggregate function.value

/-- An element of a body. -/
def bodyLiteral (n : Nat) : RuleParser BodyLiteral := do
  let t ← Parser.peek
  if isForeignDirective t || (t.is "not" && isForeignDirective (← Parser.peekAt 1)) then
    let sign ← sign
    return ⟨sign, ← bodyAggregate n⟩
  let head ← literal n
  unless ← Parser.accept ":" do return ⟨.plain, .literal head⟩
  let condition ← Parser.oneOrMore (literal n) (Parser.accept ",") n
  return ⟨.plain, .conditional ⟨head, condition⟩⟩

/-- Passes a separator of body elements. -/
def acceptBodySeparator : RuleParser Bool := do
  if ← Parser.accept "," then return true
  Parser.accept ";"

def body (n : Nat) : RuleParser (List BodyLiteral) :=
  Parser.oneOrMore (bodyLiteral n) acceptBodySeparator n

/-- The head of a constraint. -/
def constraintHead : Head := .literal ⟨.plain, .boolean false⟩

/-- A rule with its full stop. -/
def rule (n : Nat) : RuleParser Rule := do
  let t ← Parser.peek
  if isForeignDirective t then failHere ("directive #" ++ t.value ++ " is not supported")
  let h ← do
    if ← Parser.isAt ":-" then pure constraintHead else head n
  let b ← do
    if ← Parser.accept ":-" then body n else pure []
  expect "."
  return ⟨h, b, t.position.line⟩

/-- All rules up to the end, at most `rounds` of them. -/
def rules (n : Nat) : (rounds : Nat) → RuleParser (List Rule)
  | 0 => return []
  | rounds + 1 => do
    if ← Parser.atEnd then return []
    let r ← rule n
    return r :: (← rules n rounds)

end Grammar

/-- The rules that a list of tokens spells. -/
def ofTokens (tokens : List Token) : Except Error (List Rule) :=
  (Parser.runOn (Grammar.rules tokens.length tokens.length) tokens ()).1

/-- The rules of a program text. -/
def parse (t : Text) : Except Error (List Rule) :=
  match Token.tokenize t with
  | .error (.lexical detail p) => .error (.fault (.malformedProgram detail) p)
  | .error e => .error e
  | .ok tokens => ofTokens tokens

end LogicProgram.Rule
