import LogicProgram.Registry
import LogicProgram.Rule.Printer

/-!
# Values of program terms

A term of a program may have several values, as an interval does, or none, as a
sum with a symbol does. `chooseValue t z` is a formula that says that `z` is one
of the values of `t`. Arithmetic is spelled out over new integer variables, so
that it is only ever applied to integers.
-/

namespace LogicProgram.Encoding

/-- What the encoding of one rule works on. -/
structure RuleContext where
  registry : Registry
  /-- The variables of the rule, by first occurrence. -/
  scope : List Variable

/-- A step of encoding a rule; a failure keeps the declarations made. -/
abbrev Step := ExceptT Error (StateM RuleContext)

namespace Step

def register {α : Type} (step : Registering α) : Step α := do
  let c ← get
  let (a, registry) := (step.run c.registry : Except Error α × Registry)
  set { c with registry }
  match a with
  | .ok a => return a
  | .error e => throw e

/-- A new integer variable. -/
def integer : Step Variable := register (Registering.generated (some .integer))

/-- Several new program variables. -/
def objects (n : Nat) : Step (List Variable) :=
  register (Registering.generatedMany (some .program) n)

/-- Fails for want of a first-order reading. -/
def unsupported {α : Type} (feature : Text) : Step α :=
  throw (Fault.unsupportedFeature feature : Error)

/-- The variable of a name in the rule; each `_` is a new one. -/
def ruleVariable (name : Text) : Step Variable := do
  let c ← get
  let known := if name == Text.ofString "_" then none
    else c.scope.find? fun v => (c.registry.variableDeclaration v).name == name
  match known with
  | some v => return v
  | none => do
    let v ← register (Registering.namedVariable name)
    modify fun c => { c with scope := c.scope ++ [v] }
    return v

end Step

/-- The formula that `z` is the value of the variable `v`. -/
abbrev isValue (z v : Variable) : Formula := .equals (.variable z) (.variable v)

/-- The operator of formulas for one that is defined on integers. -/
def arithmetic? : Rule.Operator → Option Term.Operator
  | .add => some .add
  | .subtract => some .subtract
  | .multiply => some .multiply
  | _ => none

/-- `i = j * q + r`, where `i` and `j` have been chosen by formulas, with `j`
not zero and `r` from zero up to `q`. -/
def quotient (i j q r : Variable) (chooseI chooseJ result : Formula) : Formula :=
  .existential [i, j, q, r] (.and [
    .equals (.variable i)
      (.binary .add (.binary .multiply (.variable j) (.variable q)) (.variable r)),
    chooseI,
    chooseJ,
    .compare .notEqual (.variable j) (.integer 0),
    .compare .greaterOrEqual (.variable r) (.integer 0),
    .compare .less (.variable r) (.variable q),
    result])

/-- `k` is an integer between `i` and `j`, which have been chosen by formulas,
and the value of `z`. -/
def between (z i j k : Variable) (chooseI chooseJ : Formula) : Formula :=
  .existential [i, j, k] (.and [
    chooseI,
    chooseJ,
    .compare .lessOrEqual (.variable i) (.variable k),
    .compare .lessOrEqual (.variable k) (.variable j),
    isValue z k])

/-- The formula that `z` is one of the values of a term. Dividend and divisor
are both chosen from the left operand. -/
def chooseValue : Rule.Term → Variable → Step Formula
  | .number n, z => return .equals (.variable z) (.integer n)
  | .string s, z => return .equals (.variable z) (.string s)
  | .infimum, z => return .equals (.variable z) .infimum
  | .supremum, z => return .equals (.variable z) .supremum
  | .variable name, z => do
    let v ← Step.ruleVariable name
    Step.register (Registering.assignDomain v (some .program))
    return isValue z v
  | .function external name args, z => do
    if external then Step.unsupported "external functions"
    if !args.isEmpty then Step.unsupported "symbolic functions"
    Step.register (Registering.function ⟨name, 0⟩)
    return .equals (.variable z) (.function name [])
  | .binary op left right, z =>
    match arithmetic? op with
    | some operator => do
      let i ← Step.integer
      let j ← Step.integer
      let chooseLeft ← chooseValue left i
      let chooseRight ← chooseValue right j
      return .existential [i, j] (.and [
        .equals (.variable z) (.binary operator (.variable i) (.variable j)),
        chooseLeft, chooseRight])
    | none =>
      match op with
      | .divide | .modulo => do
        let i ← Step.integer
        let j ← Step.integer
        let q ← Step.integer
        let r ← Step.integer
        let chooseI ← chooseValue left i
        let chooseJ ← chooseValue left j
        return quotient i j q r chooseI chooseJ
          (if op = .divide then isValue z q else isValue z r)
      | .power => Step.unsupported "exponentiation"
      | _ => Step.unsupported ("binary operator " ++ op.text)
  | .unary .minus arg, z => do
    let n ← Step.integer
    let choose ← chooseValue arg n
    return .existential [n] (.and [
      .equals (.variable z) (.unary .negative (.variable n)), choose])
  | .unary .absolute _, _ => Step.unsupported "absolute value"
  | .unary .bitNegation _, _ => Step.unsupported "bitwise negation"
  | .interval lower upper, z => do
    let i ← Step.integer
    let j ← Step.integer
    let k ← Step.integer
    let chooseI ← chooseValue lower i
    let chooseJ ← chooseValue upper j
    return between z i j k chooseI chooseJ
  | .pool _, _ => Step.unsupported "pools"

end LogicProgram.Encoding
