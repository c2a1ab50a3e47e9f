import LogicProgram.Encoding.Value

/-!
# Heads of rules

The heads that have a first-order reading here: an atom, a choice of one atom,
falsity and truth.
-/

namespace LogicProgram.Encoding

/-- What a rule does when its body holds. -/
inductive HeadShape where
  /-- It derives an atom. -/
  | atom (name : Text) (args : List Rule.Term)
  /-- It allows an atom. -/
  | choice (name : Text) (args : List Rule.Term)
  /-- It excludes the situation. -/
  | constraint
  /-- It says nothing. -/
  | trivial
deriving Repr, Inhabited

/-- The name and arguments of a term that can be an atom of a head. -/
def headAtom (t : Rule.Term) (place : Text) : Step (Text × List Rule.Term) :=
  match t with
  | .function false name args => do
    Step.register (Registering.predicate ⟨name, args.length⟩)
    return (name, args)
  | _ => Step.unsupported ("elements other than atoms in " ++ place)

/-- The shape of a head that is a literal. -/
def literalShape (l : Rule.Literal) : Step HeadShape := do
  if l.sign != .plain then Step.unsupported "negated head literals"
  match l.atom with
  | .boolean true => return .trivial
  | .boolean false => return .constraint
  | .symbolic t => do
    let (name, args) ← headAtom t "rule head"
    return .atom name args
  | .comparison _ _ _ => Step.unsupported "elements other than terms in rule head"

/-- The shape of a head that is a choice of one element. -/
def choiceShape (element : Rule.ConditionalLiteral) : Step HeadShape := do
  if !element.condition.isEmpty then Step.unsupported "conditional literals in aggregates"
  if element.literal.sign != .plain then Step.unsupported "negated literals in aggregates"
  match element.literal.atom with
  | .symbolic t => do
    let (name, args) ← headAtom t "aggregates"
    return .choice name args
  | _ => Step.unsupported "elements other than terms in aggregates"

def headShape : Rule.Head → Step HeadShape
  | .literal l => literalShape l
  | .choice left right elements => do
    if left.isSome || right.isSome then Step.unsupported "aggregates with guards"
    match elements with
    | [element] => choiceShape element
    | _ => Step.unsupported "aggregates not containing exactly one element"
  | .disjunction _ =>
    Step.unsupported "elements other than literals and aggregates in rule head"

end LogicProgram.Encoding
