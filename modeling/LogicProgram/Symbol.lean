import LogicProgram.Text.Basic

/-!
# Symbols

Predicates and functions are told apart by name and number of arguments. The
order of symbols is by the bytes of the name and then by arity.
-/

namespace LogicProgram

/-- The name and arity by which a predicate or function is known. -/
structure Symbol where
  /-- The name as it is written. -/
  name : Text
  arity : Nat
deriving DecidableEq, Repr, Inhabited

namespace Symbol

/-- A symbol as it is shown in messages and descriptions: `name/arity`. -/
def text (s : Symbol) : Text := s.name ++ "/" ++ Text.ofNat s.arity

/-- The order by name and then by arity. -/
def le (a b : Symbol) : Bool :=
  a.name.precedes b.name || (a.name == b.name && a.arity ≤ b.arity)

/-- Whether a name is reserved for symbols of the background theory: `lead`,
at least one more byte, and two underscores. -/
def isReserved (lead name : Text) : Bool :=
  lead.length + 2 < name.length && lead.isPrefixOf name && List.isSuffixOf ("__" : Text) name

/-- A function of the background theory. -/
def isBuiltInFunction (s : Symbol) : Bool := isReserved "f__" s.name

/-- A predicate of the background theory. -/
def isBuiltInPredicate (s : Symbol) : Bool := isReserved "p__" s.name

end Symbol

end LogicProgram
