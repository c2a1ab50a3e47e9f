import LogicProgram.Formula.Basic
import LogicProgram.Formula.Domain

/-!
# Typed first-order form

The language of proof problems: first-order formulas with the sort of integers
and a sort of objects. Binary connectives are printed in parentheses, and
further parentheses are part of the formula, so that printing has no choices.
-/

namespace LogicProgram.Tff

/-- A term of a proof problem. -/
inductive Term where
  | numeral (value : Nat)
  /-- A variable, known by its name. -/
  | variable (name : Text)
  /-- A constant or an applied function, also one of arithmetic. -/
  | apply (function : Text) (args : List Term)
deriving Repr, Inhabited

/-- The binary connectives. -/
inductive Connective where
  | and
  | or
  | implies
  | iff
deriving DecidableEq, Repr, Inhabited

/-- A formula of a proof problem. -/
inductive Formula where
  | truth (value : Bool)
  /-- A predicate of some arguments. -/
  | atom (predicate : Text) (args : List Term)
  /-- An equation or, if `positive` is false, its negation. -/
  | equation (positive : Bool) (left right : Term)
  | not (arg : Formula)
  | group (arg : Formula)
  /-- Two or more formulas with a connective between neighbours, in
  parentheses. -/
  | chain (connective : Connective) (args : List Formula)
  /-- A formula under a quantifier of variables with their sorts. -/
  | quantified (quantifier : Quantifier) (params : List (Text × Domain)) (body : Formula)
deriving Repr, Inhabited

/-- The name of a sort. -/
def sortText : Domain → Text
  | .integer => "$int"
  | .program => "object"

def Connective.text : Connective → Text
  | and => " & "
  | or => " | "
  | implies => " => "
  | iff => " <=> "

/-- The sign of a quantifier. -/
def quantifierText : Quantifier → Text
  | .existential => "?"
  | .universal => "!"

/-- A name before its arguments. -/
def application (name : Text) (args : List Text) : Text :=
  if args.isEmpty then name else name ++ "(" ++ Text.join ", " args ++ ")"

mutual

def Term.text : Term → Text
  | .numeral value => Text.ofNat value
  | .variable name => name
  | .apply function args => application function (Term.texts args)

def Term.texts : List Term → List Text
  | [] => []
  | t :: r => t.text :: Term.texts r

end

mutual

def Formula.text : Formula → Text
  | .truth true => "$true"
  | .truth false => "$false"
  | .atom predicate args => application predicate (Term.texts args)
  | .equation true left right => left.text ++ " = " ++ right.text
  | .equation false left right => left.text ++ " != " ++ right.text
  | .not arg => "~" ++ arg.text
  | .group arg => "(" ++ arg.text ++ ")"
  | .chain connective args => "(" ++ Text.join connective.text (Formula.texts args) ++ ")"
  | .quantified quantifier params body =>
    quantifierText quantifier ++ "["
      ++ Text.join ", " (params.map fun (name, domain) => name ++ ": " ++ sortText domain)
      ++ "]: " ++ body.text

def Formula.texts : List Formula → List Text
  | [] => []
  | f :: r => f.text :: Formula.texts r

end

/-- The part that a formula plays in a proof problem. -/
inductive Role where
  /-- It may be used. -/
  | hypothesis
  /-- It is to be proven. -/
  | conjecture
deriving DecidableEq, Repr, Inhabited

def Role.text : Role → Text
  | hypothesis => "axiom"
  | conjecture => "conjecture"

/-- A line of a proof problem. -/
def line (name role content : Text) : Text :=
  "tff(" ++ name ++ ", " ++ role ++ ", " ++ content ++ ").\n"

/-- The arguments of a symbol in its type. -/
def argumentTypes (arity : Nat) : Text :=
  "(" ++ Text.join " * " (List.replicate arity ("object" : Text)) ++ ") > "

/-- The type of a predicate. -/
def predicateType (p : Symbol) : Text :=
  p.name ++ ": " ++ (if p.arity = 0 then [] else argumentTypes p.arity) ++ "$o"

/-- The type of a function; a value of unknown domain is an object. -/
def functionType (f : Symbol) (domain : Option Domain) : Text :=
  f.name ++ ": " ++ (if f.arity = 0 then [] else argumentTypes f.arity)
    ++ sortText (domain.getD .program)

end LogicProgram.Tff
