import LogicProgram.Proofs.Rule
import LogicProgram.Proofs.Token.Lexing
import LogicProgram.Rule.Parser

/-!
# The parts of rules

The terms of a rule with all their parts, those of divisors and of the arguments of
functions among them.
-/

namespace LogicProgram.Rule

open List

namespace Term

variable {P : Term → Prop}

/-- Induction over terms, with arguments and alternatives. -/
@[elab_as_elim] theorem inductionOnParts (number : ∀ n, P (.number n)) (string : ∀ s, P (.string s))
    (infimum : P .infimum) (supremum : P .supremum) (var : ∀ name, P (.variable name))
    (function : ∀ external name args, (∀ t ∈ args, P t) → P (.function external name args))
    (binary : ∀ op left right, P left → P right → P (.binary op left right))
    (unary : ∀ op arg, P arg → P (.unary op arg))
    (interval : ∀ lower upper, P lower → P upper → P (.interval lower upper))
    (pool : ∀ args, (∀ t ∈ args, P t) → P (.pool args)) (t : Term) : P t :=
  @Term.rec P (fun ts => ∀ t ∈ ts, P t) number string infimum supremum var function binary unary
    interval pool (nofun)
    (fun _ _ ht hts => forall_mem_cons.mpr ⟨ht, hts⟩) t

mutual

/-- The parts of a term, the term itself among them. -/
def subterms : Term → List Term
  | .number n => [.number n]
  | .string s => [.string s]
  | .infimum => [.infimum]
  | .supremum => [.supremum]
  | .variable name => [.variable name]
  | .function external name args => .function external name args :: subtermsOfAll args
  | .binary op left right => .binary op left right :: (left.subterms ++ right.subterms)
  | .unary op arg => .unary op arg :: arg.subterms
  | .interval lower upper => .interval lower upper :: (lower.subterms ++ upper.subterms)
  | .pool args => .pool args :: subtermsOfAll args

/-- The parts of several terms. -/
def subtermsOfAll : List Term → List Term
  | [] => []
  | t :: rest => t.subterms ++ subtermsOfAll rest

end

theorem forall_subtermsOfAll {ts : List Term} :
    (∀ u ∈ subtermsOfAll ts, P u) ↔ ∀ t ∈ ts, ∀ u ∈ t.subterms, P u := by
  induction ts with
  | nil => simp [subtermsOfAll]
  | cons t ts ih => rw [subtermsOfAll, forall_mem_append, ih, forall_mem_cons]

theorem forall_subterms_function {external : Bool} {name : Text} {args : List Term} :
    (∀ u ∈ (function external name args).subterms, P u) ↔
      P (function external name args) ∧ ∀ t ∈ args, ∀ u ∈ t.subterms, P u := by
  rw [subterms, forall_mem_cons, forall_subtermsOfAll]

theorem forall_subterms_binary {op : Operator} {left right : Term} :
    (∀ u ∈ (binary op left right).subterms, P u) ↔
      P (binary op left right) ∧ (∀ u ∈ left.subterms, P u) ∧ ∀ u ∈ right.subterms, P u := by
  rw [subterms, forall_mem_cons, forall_mem_append]

theorem forall_subterms_unary {op : UnaryOperator} {arg : Term} :
    (∀ u ∈ (unary op arg).subterms, P u) ↔ P (unary op arg) ∧ ∀ u ∈ arg.subterms, P u := by
  rw [subterms, forall_mem_cons]

theorem forall_subterms_interval {lower upper : Term} :
    (∀ u ∈ (interval lower upper).subterms, P u) ↔
      P (interval lower upper) ∧ (∀ u ∈ lower.subterms, P u) ∧ ∀ u ∈ upper.subterms, P u := by
  rw [subterms, forall_mem_cons, forall_mem_append]

theorem forall_subterms_pool {args : List Term} :
    (∀ u ∈ (pool args).subterms, P u) ↔ P (pool args) ∧ ∀ t ∈ args, ∀ u ∈ t.subterms, P u := by
  rw [subterms, forall_mem_cons, forall_subtermsOfAll]

/-- A term is a tuple. -/
def isTuple : Term → Bool
  | .function _ [] _ => true
  | _ => false

/-- A term is an interval. -/
def isInterval : Term → Bool
  | .interval _ _ => true
  | _ => false

/-- What a term that was read has, besides its parts. -/
def Formed : Term → Prop
  | .number n => n.natAbs ≤ Grammar.maxNumber
  | .variable name => Token.IsVariableName name
  | .function external [] args => external = false ∧ 2 ≤ args.length
  | .function external name args => Token.IsIdentifier name ∧
    (external = false → name ≠ "not") ∧ ∀ arg, args = [arg] → arg.isTuple = false
  | .unary .minus arg => ∀ n, arg ≠ .number n
  | .pool args => 2 ≤ args.length
  | .string _ | .infimum | .supremum | .binary _ _ _ | .unary _ _ | .interval _ _ => True

/-- All parts of a term are formed. -/
def Parsed (t : Term) : Prop := ∀ u ∈ t.subterms, u.Formed

/-- A string is made of printable characters, tabs and new lines. -/
def hasPlainText : Term → Bool
  | .string s => s.all Token.isPlain
  | _ => true

/-- An operator or an interval is applied to an interval. Bars close what is between them. -/
def hasIntervalOperand : Term → Bool
  | .binary _ left right => left.isInterval || right.isInterval
  | .unary .absolute _ => false
  | .unary _ arg => arg.isInterval
  | .interval lower upper => lower.isInterval || upper.isInterval
  | _ => false

end Term

/-- The terms of an atom. -/
def Atom.terms : Atom → List Term
  | .boolean _ => []
  | .symbolic t => [t]
  | .comparison _ left right => [left, right]

/-- The terms of a literal. -/
def Literal.terms (l : Literal) : List Term := l.atom.terms

/-- The terms of a literal and its condition. -/
def ConditionalLiteral.terms (l : ConditionalLiteral) : List Term :=
  l.literal.terms ++ l.condition.flatMap (·.terms)

/-- The terms of a head. -/
def Head.terms : Head → List Term
  | .literal l => l.terms
  | .choice left right elements =>
    (left.toList ++ right.toList).map (·.term) ++ elements.flatMap (·.terms)
  | .disjunction elements => elements.flatMap (·.terms)

/-- The terms of an element of a body. -/
def BodyLiteral.terms (b : BodyLiteral) : List Term :=
  match b.element with
  | .literal l => l.terms
  | .aggregate _ => []
  | .conditional l => l.terms

/-- The terms of a rule. -/
def terms (rule : Rule) : List Term := rule.head.terms ++ rule.body.flatMap (·.terms)

/-- The terms of a rule with all their parts. -/
def subterms (rule : Rule) : List Term := rule.terms.flatMap (·.subterms)

/-- The strings of a rule are made of printable characters, tabs and new lines. -/
def HasPlainStrings (rule : Rule) : Prop := ∀ u ∈ rule.subterms, u.hasPlainText = true

instance (rule : Rule) : Decidable rule.HasPlainStrings :=
  inferInstanceAs (Decidable (∀ u ∈ rule.subterms, u.hasPlainText = true))

/-- No interval is an operand, so that none needs parentheses. -/
def NoIntervalOperand (rule : Rule) : Prop := ∀ u ∈ rule.subterms, u.hasIntervalOperand = false

instance (rule : Rule) : Decidable rule.NoIntervalOperand :=
  inferInstanceAs (Decidable (∀ u ∈ rule.subterms, u.hasIntervalOperand = false))

end LogicProgram.Rule
