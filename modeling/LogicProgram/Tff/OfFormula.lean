import LogicProgram.Rendering.Namer
import LogicProgram.Tff.Basic

/-!
# Formulas in typed form

Where an object is expected, an integer is embedded with `f__integer__`. Two
integers are compared as integers, and all other pairs as objects. Strings,
division, remainders, powers and absolute values have no typed form.
-/

namespace LogicProgram

namespace Tff

/-- The embedding of the integers into the objects. -/
def embed (t : Term) : Term := .apply "f__integer__" [t]

/-- A term, embedded if `wanted`. -/
def embedIf (wanted : Bool) (t : Term) : Term := if wanted then embed t else t

/-- The negative of a term. -/
def negative (t : Term) : Term := .apply "$uminus" [t]

def integer (value : Int) : Term :=
  if value < 0 then negative (.numeral value.natAbs) else .numeral value.natAbs

/-- The function of the integers for an operator. -/
def operatorName? : Term.Operator → Option Text
  | .add => some "$sum"
  | .subtract => some "$difference"
  | .multiply => some "$product"
  | .divide | .modulo | .power => none

/-- The predicate for an order relation between integers. -/
def integerRelation? : Comparison → Option Text
  | .less => some "$less"
  | .lessOrEqual => some "$lesseq"
  | .greater => some "$greater"
  | .greaterOrEqual => some "$greatereq"
  | .equal | .notEqual => none

/-- The predicate for an order relation between objects. -/
def objectRelation? : Comparison → Option Text
  | .less => some "p__less__"
  | .lessOrEqual => some "p__less_equal__"
  | .greater => some "p__greater__"
  | .greaterOrEqual => some "p__greater_equal__"
  | .equal | .notEqual => none

/-- Whether an argument is an integer that has to be embedded. An applied
function is one if it is declared so. -/
def isIntegerArgument (r : Registry) : LogicProgram.Term → Except Error Bool
  | .function name args =>
    if args.isEmpty then r.isArithmetic (.function name args)
    else .ok (r.isIntegerFunction ⟨name, args.length⟩)
  | t => r.isArithmetic t

mutual

/-- The typed form of a term. -/
def ofTerm (r : Registry) : LogicProgram.Term → Naming Term
  | .integer value => return integer value
  | .infimum => return .apply "c__infimum__" []
  | .supremum => return .apply "c__supremum__" []
  | .boolean true => return .apply "$true" []
  | .boolean false => return .apply "$false" []
  | .string _ => throw (Fault.unsupportedFeature "strings in TPTP output" : Error)
  | .variable v => return .variable (← Naming.nameOf r v)
  | .function name args => return .apply name (← ofArguments r args)
  | .unary .negative arg => return negative (← ofTerm r arg)
  | .unary .absolute _ =>
    throw (Fault.unsupportedFeature "absolute value in TPTP output" : Error)
  | .binary op left right =>
    match operatorName? op with
    | none =>
      throw (Fault.unsupportedFeature ("binary operator " ++ op.text ++ " in TPTP output") : Error)
    | some name => do
      let l ← ofTerm r left
      let s ← ofTerm r right
      return .apply name [l, s]
  | .interval _ _ => throw (Fault.logic "intervals cannot occur in formulas" : Error)

/-- The typed form of arguments, which are objects. -/
def ofArguments (r : Registry) : List LogicProgram.Term → Naming (List Term)
  | [] => return []
  | t :: rest => do
    let isInteger ← Naming.ofExcept (isIntegerArgument r t)
    let u ← ofTerm r t
    return embedIf isInteger u :: (← ofArguments r rest)

end

/-- The typed form of a comparison. If only one side is an integer, it is
embedded. -/
def ofComparison (r : Registry) (op : Comparison) (left right : LogicProgram.Term) :
    Naming Formula := do
  let leftInteger ← Naming.ofExcept (r.isArithmetic left)
  let rightInteger ← Naming.ofExcept (r.isArithmetic right)
  let l := embedIf (leftInteger && !rightInteger) (← ofTerm r left)
  let s := embedIf (rightInteger && !leftInteger) (← ofTerm r right)
  let relation := if leftInteger && rightInteger then integerRelation? op else objectRelation? op
  match relation with
  | some predicate => return .atom predicate [l, s]
  | none => return .equation (op == .equal) l s

/-- Formulas joined by a connective; one alone stands for itself. -/
def chainOf (connective : Connective) (empty : Bool) : List Formula → Formula
  | [] => .truth empty
  | [f] => f
  | fs => .chain connective fs

/-- The equivalences of the neighbours in a list. -/
def neighbours : List Formula → List Formula
  | f :: g :: rest => .chain .iff [f, g] :: neighbours (g :: rest)
  | _ => []

/-- Formulas that are all equivalent: the equivalences of neighbours; one
alone stands for itself. -/
def equivalences : List Formula → Formula
  | [] => .truth true
  | [f] => f
  | fs => chainOf .and true (neighbours fs)

/-- Whether a formula is written as an equation, which cannot follow `~`
directly. -/
def isEquation : LogicProgram.Formula → Bool
  | .compare op _ _ => op == .equal || op == .notEqual
  | _ => false

/-- The variables that a quantifier lists, with their sorts. -/
def ofParameters (r : Registry) : List Variable → Naming (List (Text × Domain))
  | [] => return []
  | v :: rest => do
    let name ← Naming.nameOf r v
    let domain ← Naming.domainOf r v
    return (name, domain) :: (← ofParameters r rest)

mutual

/-- The typed form of a formula. A chain of equivalences is the conjunction of
the equivalences of neighbours. -/
def ofFormula (r : Registry) : LogicProgram.Formula → Naming Formula
  | .boolean value => return .truth value
  | .atom name args => return .atom name (← ofArguments r args)
  | .compare op left right => ofComparison r op left right
  | .not arg => do
    let f ← ofFormula r arg
    return .not (if isEquation arg then .group f else f)
  | .implies antecedent consequent => do
    let a ← ofFormula r antecedent
    let c ← ofFormula r consequent
    return .chain .implies [a, c]
  | .join .and args => return chainOf .and true (← ofFormulas r args)
  | .join .or args => return chainOf .or false (← ofFormulas r args)
  | .join .iff args => return equivalences (← ofFormulas r args)
  | .quantified quantifier params body => do
    let typed ← ofParameters r params
    let f ← ofFormula r body
    return if typed.isEmpty then f else .quantified quantifier typed f

def ofFormulas (r : Registry) : List LogicProgram.Formula → Naming (List Formula)
  | [] => return []
  | f :: rest => return (← ofFormula r f) :: (← ofFormulas r rest)

end

end Tff

/-- The typed form of a formula, with names of its own. -/
def Formula.typed (r : Registry) (f : Formula) : Except Error Tff.Formula :=
  (Tff.ofFormula r f).fresh

/-- A formula as it is written in proof problems. -/
def Formula.tptp (r : Registry) (f : Formula) : Except Error Text :=
  (f.typed r).map Tff.Formula.text

end LogicProgram
