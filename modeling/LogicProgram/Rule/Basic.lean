import LogicProgram.Comparison

/-!
# Rules

The syntax of logic programs: terms, literals, heads with choices and
disjunctions, bodies with aggregates and conditions.
-/

namespace LogicProgram

namespace Rule

/-- How often a literal is negated by default. -/
inductive Sign where
  | plain
  | negated
  | doublyNegated
deriving DecidableEq, Repr, Inhabited

inductive Operator where
  | add
  | subtract
  | multiply
  | divide
  | modulo
  | power
  | bitAnd
  | bitOr
  | bitXor
deriving DecidableEq, Repr, Inhabited

inductive UnaryOperator where
  | minus
  | absolute
  | bitNegation
deriving DecidableEq, Repr, Inhabited

/-- A term of a logic program. -/
inductive Term where
  | number (value : Int)
  /-- A string literal. -/
  | string (value : Text)
  | infimum
  | supremum
  /-- A variable; `_` is a new one each time. -/
  | variable (name : Text)
  /-- A constant, an applied function, or a tuple, whose name is empty.
  External functions are written with `@`. -/
  | function (external : Bool) (name : Text) (args : List Term)
  | binary (op : Operator) (left right : Term)
  | unary (op : UnaryOperator) (arg : Term)
  /-- All integers from one value to another. -/
  | interval (lower upper : Term)
  /-- Alternatives. -/
  | pool (args : List Term)
deriving Repr, Inhabited

/-- What a literal asserts. -/
inductive Atom where
  | boolean (value : Bool)
  /-- A term in the place of an atom. -/
  | symbolic (term : Term)
  | comparison (op : Comparison) (left right : Term)
deriving Repr, Inhabited

/-- An atom with its sign. -/
structure Literal where
  /-- The negation before the atom. -/
  sign : Sign
  /-- What is asserted. -/
  atom : Atom
deriving Repr, Inhabited

/-- A literal with the condition under which it counts. -/
structure ConditionalLiteral where
  literal : Literal
  /-- The literals after the colon. -/
  condition : List Literal
deriving Repr, Inhabited

/-- A bound on the number of chosen elements. -/
structure Guard where
  /-- How the bound relates to the number. -/
  op : Comparison
  term : Term
deriving Repr, Inhabited

/-- The head of a rule. -/
inductive Head where
  /-- One literal; a constraint has `#false`. -/
  | literal (literal : Literal)
  /-- A choice among elements, with bounds on either side. -/
  | choice (left right : Option Guard) (elements : List ConditionalLiteral)
  | disjunction (elements : List ConditionalLiteral)
deriving Repr, Inhabited

/-- What stands in a rule body. -/
inductive BodyElement where
  | literal (literal : Literal)
  /-- An aggregate, of which only the function is kept. -/
  | aggregate (function : Text)
  /-- A literal with a condition. -/
  | conditional (element : ConditionalLiteral)
deriving Repr, Inhabited

/-- An element of a rule body with the negation of the element as a whole. -/
structure BodyLiteral where
  /-- The negation before an aggregate. -/
  sign : Sign
  element : BodyElement
deriving Repr, Inhabited

end Rule

/-- A rule `head :- body.` -/
structure Rule where
  /-- What the rule derives. -/
  head : Rule.Head
  /-- What it needs. -/
  body : List Rule.BodyLiteral
  /-- The line that the rule starts on. -/
  line : Nat
deriving Repr, Inhabited

end LogicProgram
