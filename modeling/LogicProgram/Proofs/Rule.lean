import LogicProgram.Proofs.Semantics
import LogicProgram.Rule.Basic

/-!
# The meaning of rules

A term of a rule has values: an interval has several and a sum with a string
has none. An assignment of objects to the names of variables makes a literal
hold if some values of its terms do. A rule supports an atom if some assignment
makes its body hold and the arguments of the atom values of those of its head.
This says nothing of formulas.
-/

namespace LogicProgram.Rule

universe u

/-- The function of an operator that is defined on all integers. -/
def Operator.onIntegers? : Operator → Option (Int → Int → Int)
  | .add => some (· + ·)
  | .subtract => some (· - ·)
  | .multiply => some (· * ·)
  | _ => none

namespace Term

/-- Induction over terms, without the arguments of functions and pools. -/
@[elab_as_elim, induction_eliminator]
theorem inductionOn {P : Term → Prop} (number : ∀ n, P (.number n))
    (string : ∀ s, P (.string s)) (infimum : P .infimum) (supremum : P .supremum)
    (var : ∀ name, P (.variable name))
    (function : ∀ external name args, P (.function external name args))
    (binary : ∀ op left right, P left → P right → P (.binary op left right))
    (unary : ∀ op arg, P arg → P (.unary op arg))
    (interval : ∀ lower upper, P lower → P upper → P (.interval lower upper))
    (pool : ∀ args, P (.pool args)) (t : Term) : P t :=
  @Term.rec P (fun _ => True) number string infimum supremum var
    (fun external name args _ => function external name args) binary unary interval
    (fun args _ => pool args) trivial (fun _ _ _ _ => trivial) t

/-- An object is one of the values of a term. Dividend and divisor are both
values of the left operand; a remainder is less than its quotient. -/
def HasValue (I : Interpretation.{u}) (ρ : Text → I.Object) : Term → I.Object → Prop
  | .number n, d => d = I.ofInt n
  | .string s, d => d = I.ofText s
  | .infimum, d => d = I.infimum
  | .supremum, d => d = I.supremum
  | .variable name, d => d = ρ name
  | .function external name args, d => external = false ∧ args = [] ∧ d = I.function name []
  | .binary .divide left _, d => ∃ i j q r : Int, left.HasValue I ρ (I.ofInt i) ∧
      left.HasValue I ρ (I.ofInt j) ∧ i = j * q + r ∧ j ≠ 0 ∧ 0 ≤ r ∧ r < q ∧ d = I.ofInt q
  | .binary .modulo left _, d => ∃ i j q r : Int, left.HasValue I ρ (I.ofInt i) ∧
      left.HasValue I ρ (I.ofInt j) ∧ i = j * q + r ∧ j ≠ 0 ∧ 0 ≤ r ∧ r < q ∧ d = I.ofInt r
  | .binary op left right, d => ∃ f, op.onIntegers? = some f ∧ ∃ i j : Int,
      left.HasValue I ρ (I.ofInt i) ∧ right.HasValue I ρ (I.ofInt j) ∧ d = I.ofInt (f i j)
  | .unary .minus arg, d => ∃ n : Int, arg.HasValue I ρ (I.ofInt n) ∧ d = I.ofInt (-n)
  | .unary _ _, _ => False
  | .interval lower upper, d => ∃ i j k : Int, lower.HasValue I ρ (I.ofInt i) ∧
      upper.HasValue I ρ (I.ofInt j) ∧ i ≤ k ∧ k ≤ j ∧ d = I.ofInt k
  | .pool _, _ => False

mutual

/-- The names of the variables of a term. -/
def names : Term → List Text
  | .variable name => [name]
  | .function _ _ args => namesOfAll args
  | .binary _ left right => left.names ++ right.names
  | .unary _ arg => arg.names
  | .interval lower upper => lower.names ++ upper.names
  | .pool args => namesOfAll args
  | .number _ | .string _ | .infimum | .supremum => []

/-- The names of the variables of several terms. -/
def namesOfAll : List Term → List Text
  | [] => []
  | t :: r => t.names ++ namesOfAll r

end

end Term

/-- What a sign makes of a statement; a double negation is none. -/
def Sign.Holds : Sign → Prop → Prop
  | .negated, p => ¬ p
  | .plain, p | .doublyNegated, p => p

namespace Literal

/-- Some values of the terms of a literal make it hold. -/
def Holds (I : Interpretation.{u}) (ρ : Text → I.Object) (l : Literal) : Prop :=
  match l.atom with
  | .boolean value => l.sign.Holds (value = true)
  | .symbolic (.function false name args) =>
    ∃ ds, List.Forall₂ (Term.HasValue I ρ) args ds ∧ l.sign.Holds (I.predicate name ds)
  | .symbolic _ => False
  | .comparison op left right =>
    ∃ x y, left.HasValue I ρ x ∧ right.HasValue I ρ y ∧ l.sign.Holds (I.Compares op x y)

/-- The names of the variables of a literal. -/
def names (l : Literal) : List Text :=
  match l.atom with
  | .boolean _ => []
  | .symbolic t => t.names
  | .comparison _ left right => left.names ++ right.names

/-- A comparison stands without negation. -/
def HasUnsignedComparison (l : Literal) : Prop :=
  ∀ op left right, l.atom = .comparison op left right → l.sign = .plain

end Literal

namespace ConditionalLiteral

/-- The names of the variables of a literal and its condition. -/
def names (l : ConditionalLiteral) : List Text := l.literal.names ++ l.condition.flatMap (·.names)

end ConditionalLiteral

namespace BodyLiteral

/-- A literal of a body holds; other elements have no reading. -/
def Holds (I : Interpretation.{u}) (ρ : Text → I.Object) (b : BodyLiteral) : Prop :=
  match b.sign, b.element with
  | .plain, .literal l => l.Holds I ρ
  | _, _ => False

/-- The names of the variables of an element of a body. -/
def names (b : BodyLiteral) : List Text :=
  match b.element with
  | .literal l => l.names
  | .aggregate _ => []
  | .conditional l => l.names

end BodyLiteral

namespace Head

/-- The head that is an atom. -/
abbrev ofAtom (name : Text) (args : List Term) : Head :=
  .literal ⟨.plain, .symbolic (.function false name args)⟩

/-- The head that is a choice of an atom. -/
abbrev ofChoice (name : Text) (args : List Term) : Head :=
  .choice none none [⟨⟨.plain, .symbolic (.function false name args)⟩, []⟩]

/-- The head of a constraint and that of a rule that says nothing. -/
abbrev ofBoolean (value : Bool) : Head := .literal ⟨.plain, .boolean value⟩

/-- The names of the variables of a head. -/
def names : Head → List Text
  | .literal l => l.names
  | .choice left right elements =>
    (left.toList ++ right.toList).flatMap (·.term.names) ++ elements.flatMap (·.names)
  | .disjunction elements => elements.flatMap (·.names)

end Head

/-- The names of the variables of a rule. -/
def names (rule : Rule) : List Text := rule.head.names ++ rule.body.flatMap (·.names)

/-- No comparison in a body is negated. -/
def HasUnsignedComparisons (rule : Rule) : Prop :=
  ∀ b ∈ rule.body, ∀ l, b.element = .literal l → l.HasUnsignedComparison

/-- An assignment makes the whole body of a rule hold. -/
def BodyHolds (I : Interpretation.{u}) (ρ : Text → I.Object) (rule : Rule) : Prop :=
  ∀ b ∈ rule.body, b.Holds I ρ

/-- A rule gives a reason for an atom. A choice gives one for what holds. -/
def Supports (I : Interpretation.{u}) (rule : Rule) (name : Text) (ds : List I.Object) : Prop :=
  ∃ args ρ, (rule.head = .ofAtom name args ∨ rule.head = .ofChoice name args ∧ I.predicate name ds) ∧
    List.Forall₂ (Term.HasValue I ρ) args ds ∧ rule.BodyHolds I ρ

/-- A constraint has a body that holds. -/
def Violated (I : Interpretation.{u}) (rule : Rule) : Prop :=
  rule.head = .ofBoolean false ∧ ∃ ρ, rule.BodyHolds I ρ

end LogicProgram.Rule
