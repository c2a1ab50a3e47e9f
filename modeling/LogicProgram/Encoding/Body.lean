import LogicProgram.Encoding.Value

/-!
# Bodies of rules

A body literal holds if some values of its terms make it hold: the values are
chosen by existential quantifiers in front of the atom or comparison.
-/

namespace LogicProgram.Encoding

/-- The formulas that choose values for terms, one variable for each. -/
def chooseValues : List Rule.Term → List Variable → Step (List Formula)
  | t :: terms, z :: params => return (← chooseValue t z) :: (← chooseValues terms params)
  | _, _ => return []

/-- An atom in a body. A double negation is the same as none. -/
def bodyAtom (sign : Rule.Sign) (name : Text) (args : List Rule.Term) : Step Formula := do
  let predicate : Symbol := ⟨name, args.length⟩
  Step.register (Registering.predicate predicate)
  let params ← Step.objects args.length
  let atom := Formula.atomOf predicate params
  let literal := if sign = .negated then .not atom else atom
  if args.isEmpty then return literal
  return .existential params (.and ((← chooseValues args params) ++ [literal]))

/-- A comparison in a body, whose sign does not count. -/
def bodyComparison (op : Comparison) (left right : Rule.Term) : Step Formula := do
  let x ← Step.register (Registering.generated (some .program))
  let y ← Step.register (Registering.generated (some .program))
  let chooseLeft ← chooseValue left x
  let chooseRight ← chooseValue right y
  return .existential [x, y] (.and [
    chooseLeft, chooseRight, .compare op (.variable x) (.variable y)])

def bodyLiteral (l : Rule.Literal) : Step Formula :=
  match l.atom with
  | .boolean value => do
    if l.sign != .plain then throw (Fault.logic "unexpected negated Boolean value" : Error)
    return .boolean value
  | .symbolic (.function false name args) => bodyAtom l.sign name args
  | .symbolic _ => Step.unsupported "only functions supported as body terms"
  | .comparison op left right => bodyComparison op left right

def bodyElement (b : Rule.BodyLiteral) : Step Formula := do
  if b.sign != .plain then Step.unsupported "signed body literals"
  match b.element with
  | .literal l => bodyLiteral l
  | _ => Step.unsupported "only plain body literals supported"

def body : List Rule.BodyLiteral → Step (List Formula)
  | [] => return []
  | b :: rest => return (← bodyElement b) :: (← body rest)

end LogicProgram.Encoding
