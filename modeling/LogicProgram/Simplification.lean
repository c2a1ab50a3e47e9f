import LogicProgram.Formula.Variables
import LogicProgram.Registry

/-!
# Simplification

Three rules make formulas smaller without changing what they mean. A variable
of an existential quantifier goes together with a conjunct that says what it
equals. A quantifier of no variables goes. A connective of no formulas becomes
a truth value, and one of a single formula becomes that formula. `simplify`
applies the first rule that changes something to the whole formula, and starts
again until none does.
-/

namespace LogicProgram.Formula

/-- Whether a term is the variable `v`. -/
def isVariable (v : Variable) : Term → Bool
  | .variable w => w == v
  | _ => false

/-- The other side of an equation with `v` on one side. -/
def equatedTerm? (v : Variable) : Formula → Option Term
  | .compare .equal left right =>
    if isVariable v left then some right
    else if isVariable v right then some left
    else none
  | _ => none

/-- The term that a conjunct allows in the place of `v`: one that does not
mention `v` and, if `v` is an integer, is one too. -/
def assignedTerm (r : Registry) (v : Variable) (f : Formula) : Except Error (Option Term) :=
  match equatedTerm? v f with
  | none => .ok none
  | some t =>
    if t.mentions v then .ok none
    else match r.variableDomain v with
      | none => .error (r.unspecifiedDomain v)
      | some .program => .ok (some t)
      | some .integer =>
        match r.isArithmetic t with
        | .error e => .error e
        | .ok arithmetic => .ok (if arithmetic then some t else none)

/-- The first conjunct that gives a term for `v`: the term and the other
conjuncts. -/
def takeAssignment (r : Registry) (v : Variable) :
    List Formula → Except Error (Option (Term × List Formula))
  | [] => .ok none
  | f :: rest =>
    match assignedTerm r v f with
    | .error e => .error e
    | .ok (some t) => .ok (some (t, rest))
    | .ok none =>
      match takeAssignment r v rest with
      | .error e => .error e
      | .ok none => .ok none
      | .ok (some (t, others)) => .ok (some (t, f :: others))

/-- The variables that remain after each that some conjunct gives a term for
has been replaced by it, the remaining conjuncts, and whether any has been. -/
def eliminateParams (r : Registry) :
    List Variable → List Formula → Except Error (List Variable × List Formula × Bool)
  | [], conjuncts => .ok ([], conjuncts, false)
  | v :: params, conjuncts =>
    match takeAssignment r v conjuncts with
    | .error e => .error e
    | .ok (some (t, others)) =>
      match eliminateParams r params (replaceInAll v t others) with
      | .error e => .error e
      | .ok (kept, remaining, _) => .ok (kept, remaining, true)
    | .ok none =>
      match eliminateParams r params conjuncts with
      | .error e => .error e
      | .ok (kept, remaining, changed) => .ok (v :: kept, remaining, changed)

/-- The elimination at one existential quantifier, whose body may have changed. -/
def eliminateAt (r : Registry) (params : List Variable) (body : Formula) (changed : Bool) :
    Except Error (Formula × Bool) :=
  match body with
  | .join .and conjuncts =>
    match eliminateParams r params conjuncts with
    | .error e => .error e
    | .ok (kept, remaining, here) => .ok (.existential kept (.and remaining), changed || here)
  | _ => .ok (.existential params body, changed)

mutual

/-- The elimination of equated variables at all existential quantifiers, from
the inside out, and whether there was any. -/
def eliminateEquated (r : Registry) : Formula → Except Error (Formula × Bool)
  | .boolean b => .ok (.boolean b, false)
  | .compare op left right => .ok (.compare op left right, false)
  | .atom name args => .ok (.atom name args, false)
  | .not arg => do
    let (f, changed) ← eliminateEquated r arg
    return (.not f, changed)
  | .implies antecedent consequent => do
    let (a, first) ← eliminateEquated r antecedent
    let (c, second) ← eliminateEquated r consequent
    return (.implies a c, first || second)
  | .join connective args => do
    let (fs, changed) ← eliminateEquatedInAll r args
    return (.join connective fs, changed)
  | .quantified .universal params body => do
    let (f, changed) ← eliminateEquated r body
    return (.universal params f, changed)
  | .quantified .existential params body => do
    let (f, changed) ← eliminateEquated r body
    eliminateAt r params f changed

def eliminateEquatedInAll (r : Registry) : List Formula → Except Error (List Formula × Bool)
  | [] => .ok ([], false)
  | f :: rest => do
    let (g, first) ← eliminateEquated r f
    let (gs, others) ← eliminateEquatedInAll r rest
    return (g :: gs, first || others)

end

mutual

/-- Whether some quantifier lists no variables. -/
def hasEmptyQuantifier : Formula → Bool
  | .boolean _ | .compare _ _ _ | .atom _ _ => false
  | .not arg => arg.hasEmptyQuantifier
  | .implies antecedent consequent =>
    antecedent.hasEmptyQuantifier || consequent.hasEmptyQuantifier
  | .join _ args => anyHasEmptyQuantifier args
  | .quantified _ params body => params.isEmpty || body.hasEmptyQuantifier

def anyHasEmptyQuantifier : List Formula → Bool
  | [] => false
  | f :: rest => f.hasEmptyQuantifier || anyHasEmptyQuantifier rest

end

mutual

/-- The formula without the quantifiers that list no variables. -/
def dropEmptyQuantifiers : Formula → Formula
  | .boolean b => .boolean b
  | .compare op left right => .compare op left right
  | .atom name args => .atom name args
  | .not arg => .not arg.dropEmptyQuantifiers
  | .implies antecedent consequent =>
    .implies antecedent.dropEmptyQuantifiers consequent.dropEmptyQuantifiers
  | .join connective args => .join connective (dropEmptyQuantifiersInAll args)
  | .quantified quantifier params body => close quantifier params body.dropEmptyQuantifiers

def dropEmptyQuantifiersInAll : List Formula → List Formula
  | [] => []
  | f :: rest => f.dropEmptyQuantifiers :: dropEmptyQuantifiersInAll rest

end

mutual

/-- Whether some connective joins fewer than two formulas. -/
def hasTrivialConnective : Formula → Bool
  | .boolean _ | .compare _ _ _ | .atom _ _ => false
  | .not arg => arg.hasTrivialConnective
  | .implies antecedent consequent =>
    antecedent.hasTrivialConnective || consequent.hasTrivialConnective
  | .join _ args => args.length < 2 || anyHasTrivialConnective args
  | .quantified _ _ body => body.hasTrivialConnective

def anyHasTrivialConnective : List Formula → Bool
  | [] => false
  | f :: rest => f.hasTrivialConnective || anyHasTrivialConnective rest

end

/-- The truth value of a connective of no formulas. -/
def unit : Connective → Bool
  | .and | .iff => true
  | .or => false

/-- Formulas joined by a connective, unless there are fewer than two. -/
def joinUnlessTrivial (connective : Connective) : List Formula → Formula
  | [] => .boolean (unit connective)
  | [f] => f
  | fs => .join connective fs

mutual

/-- The formula without the connectives that join fewer than two formulas. -/
def dropTrivialConnectives : Formula → Formula
  | .boolean b => .boolean b
  | .compare op left right => .compare op left right
  | .atom name args => .atom name args
  | .not arg => .not arg.dropTrivialConnectives
  | .implies antecedent consequent =>
    .implies antecedent.dropTrivialConnectives consequent.dropTrivialConnectives
  | .join connective args => joinUnlessTrivial connective (dropTrivialConnectivesInAll args)
  | .quantified quantifier params body => .quantified quantifier params body.dropTrivialConnectives

/-- Several formulas without the connectives that join fewer than two. -/
def dropTrivialConnectivesInAll : List Formula → List Formula
  | [] => []
  | f :: rest => f.dropTrivialConnectives :: dropTrivialConnectivesInAll rest

end

/-- The formula after the first rule that changes it, if there is one. -/
def simplifyOnce (r : Registry) (f : Formula) : Except Error (Option Formula) :=
  match eliminateEquated r f with
  | .error e => .error e
  | .ok (g, true) => .ok (some g)
  | .ok (_, false) =>
    if f.hasEmptyQuantifier then .ok (some f.dropEmptyQuantifiers)
    else if f.hasTrivialConnective then .ok (some f.dropTrivialConnectives)
    else .ok none

mutual

/-- What every rule makes smaller: the number of connectives, of quantifiers
and of the variables that they list. -/
def weight : Formula → Nat
  | .boolean _ | .compare _ _ _ | .atom _ _ => 0
  | .not arg => arg.weight
  | .implies antecedent consequent => antecedent.weight + consequent.weight
  | .join _ args => weightOfAll args + 1
  | .quantified _ params body => params.length + body.weight + 1

def weightOfAll : List Formula → Nat
  | [] => 0
  | f :: rest => f.weight + weightOfAll rest

end

/-- The formula after at most `rounds` applications of rules. -/
def simplifyWithin (r : Registry) : (rounds : Nat) → Formula → Except Error Formula
  | 0, f => .ok f
  | rounds + 1, f =>
    match simplifyOnce r f with
    | .error e => .error e
    | .ok none => .ok f
    | .ok (some g) => simplifyWithin r rounds g

/-- The formula after all applications of rules. -/
def simplify (r : Registry) (f : Formula) : Except Error Formula :=
  simplifyWithin r (f.weight + 1) f

end LogicProgram.Formula
