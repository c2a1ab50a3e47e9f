import LogicProgram.Comparison
import LogicProgram.Symbol

/-!
# Terms and formulas

First-order terms over integers, strings, the least and the greatest object,
constants and functions, and formulas over them with conjunctions,
disjunctions and equivalences of any number of formulas and quantifiers over
any number of variables. Variables are numbers; a registry knows their names
and domains.
-/

namespace LogicProgram

/-- A function on lists that goes from member to member is a map. Functions on terms and
formulas have such companions for lists of them. -/
theorem eq_map_of_cons {α : Type u} {β : Type v} {g : List α → List β} {f : α → β} (hnil : g [] = [])
    (hcons : ∀ a l, g (a :: l) = f a :: g l) (l : List α) : g l = l.map f := by
  induction l with
  | nil => exact hnil
  | cons a l ih => rw [hcons, ih, List.map_cons]

theorem eq_flatMap_of_append {α : Type u} {β : Type v} {g : List α → List β} {f : α → List β}
    (hnil : g [] = [])
    (hcons : ∀ a l, g (a :: l) = f a ++ g l) (l : List α) : g l = l.flatMap f := by
  induction l with
  | nil => exact hnil
  | cons a l ih => rw [hcons, ih, List.flatMap_cons]

/-- A variable, known by its number. -/
abbrev Variable := Nat

/-- The arithmetic operators between two terms. -/
inductive Term.Operator where
  | add
  | subtract
  | multiply
  | divide
  | modulo
  | power
deriving DecidableEq, Repr, Inhabited

/-- The arithmetic operators on one term. -/
inductive Term.UnaryOperator where
  | negative
  | absolute
deriving DecidableEq, Repr, Inhabited

/-- A first-order term. -/
inductive Term where
  | integer (value : Int)
  | boolean (value : Bool)
  | string (value : Text)
  /-- The least object. -/
  | infimum
  /-- The greatest object. -/
  | supremum
  | variable (v : Variable)
  /-- A constant or an applied function. -/
  | function (name : Text) (args : List Term)
  | binary (op : Term.Operator) (left right : Term)
  | unary (op : Term.UnaryOperator) (arg : Term)
  /-- An interval, which has no place in a finished formula. -/
  | interval (lower upper : Term)
deriving Repr, Inhabited

namespace Term

def Operator.text : Operator → Text
  | add => "+"
  | subtract => "-"
  | multiply => "*"
  | divide => "/"
  | modulo => "\\"
  | power => "**"

/-- The symbol of an applied function. -/
def symbol (name : Text) (args : List Term) : Symbol := ⟨name, args.length⟩

end Term

/-- The connectives of any number of formulas. -/
inductive Connective where
  /-- All hold; so does the conjunction of none. -/
  | and
  /-- Some holds; the disjunction of none does not. -/
  | or
  /-- All neighbours agree. -/
  | iff
deriving DecidableEq, Repr, Inhabited

inductive Quantifier where
  | existential
  | universal
deriving DecidableEq, Repr, Inhabited

/-- A first-order formula. -/
inductive Formula where
  | boolean (value : Bool)
  | compare (op : Comparison) (left right : Term)
  /-- A predicate of some arguments. -/
  | atom (name : Text) (args : List Term)
  | not (arg : Formula)
  | implies (antecedent consequent : Formula)
  | join (connective : Connective) (args : List Formula)
  /-- A formula under a quantifier of several variables. -/
  | quantified (quantifier : Quantifier) (params : List Variable) (body : Formula)
deriving Repr, Inhabited

namespace Formula

@[match_pattern] abbrev and (args : List Formula) : Formula := .join .and args

@[match_pattern] abbrev or (args : List Formula) : Formula := .join .or args

/-- A chain of equivalences. -/
@[match_pattern] abbrev iff (args : List Formula) : Formula := .join .iff args

@[match_pattern] abbrev existential (params : List Variable) (body : Formula) : Formula :=
  .quantified .existential params body

@[match_pattern] abbrev universal (params : List Variable) (body : Formula) : Formula :=
  .quantified .universal params body

abbrev equals (left right : Term) : Formula := .compare .equal left right

/-- A predicate of variables. -/
def atomOf (p : Symbol) (params : List Variable) : Formula := .atom p.name (params.map .variable)

/-- The formula under a quantifier of variables, or itself if there are none. -/
def close (quantifier : Quantifier) (params : List Variable) (f : Formula) : Formula :=
  if params.isEmpty then f else .quantified quantifier params f

end Formula

end LogicProgram
