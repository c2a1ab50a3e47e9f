import LogicProgram.Encoding.Body
import LogicProgram.Encoding.Head

/-!
# The first-order reading of a program

Each rule for a predicate contributes an open formula over variables for the
predicate's arguments, which all its rules share, and over the variables of the
rule. Constraints become closed formulas. A rule that fails contributes
nothing, though the declarations it made remain.
-/

namespace LogicProgram

/-- A formula with the variables that are to be bound around it. -/
structure OpenFormula where
  /-- The variables to bind. -/
  free : List Variable
  formula : Formula
deriving Repr, Inhabited

/-- The formula with its variables bound. -/
def OpenFormula.close (quantifier : Quantifier) (f : OpenFormula) : Formula :=
  f.formula.close quantifier f.free

/-- What the rules say about one predicate. -/
structure RuleFormulas where
  predicate : Symbol
  /-- The variables for its arguments. -/
  params : List Variable
  /-- The contributions of its rules in order. -/
  rules : List OpenFormula
deriving Repr, Inhabited

/-- The first-order reading of the rules so far. -/
structure Encoding where
  /-- What is said about each predicate that is the head of some rule. -/
  definitions : List RuleFormulas
  /-- The constraints in order. -/
  constraints : List Formula
deriving Repr, Inhabited

namespace Encoding

/-- The reading of no rules. -/
def empty : Encoding := ⟨[], []⟩

/-- What the rules say about a predicate. -/
def definition? (e : Encoding) (p : Symbol) : Option RuleFormulas :=
  e.definitions.find? (·.predicate == p)

/-- Adds a contribution to a predicate. -/
def addRuleFormula (e : Encoding) (p : Symbol) (f : OpenFormula) : Encoding :=
  { e with definitions := e.definitions.map fun d =>
      if d.predicate = p then { d with rules := d.rules ++ [f] } else d }

/-- The declarations and the reading that rules are added to. -/
structure State where
  registry : Registry
  encoding : Encoding
deriving Inhabited

/-- A step of encoding a program; a failure keeps what was done before it. -/
abbrev Build := ExceptT Error (StateM State)

/-- A step of one rule, given the rule's variables so far. -/
def inRule {α : Type} (scope : List Variable) (step : Step α) : Build (α × List Variable) := do
  let s ← get
  let (a, c) := (step.run ⟨s.registry, scope⟩ : Except Error α × RuleContext)
  set { s with registry := c.registry }
  match a with
  | .ok a => return (a, c.scope)
  | .error e => throw e

/-- The variables for the arguments of a predicate, which are made when its
first rule is met. -/
def headParams (p : Symbol) : Build (List Variable) := do
  match (← get).encoding.definition? p with
  | some d => return d.params
  | none => do
    let (params, _) ← inRule [] (Step.objects p.arity)
    modify fun s => { s with encoding :=
      { s.encoding with definitions := s.encoding.definitions ++ [⟨p, params, []⟩] } }
    return params

/-- Formulas that all have to hold; none is truth. -/
def conjunctionOf (fs : List Formula) : Formula := if fs.isEmpty then .boolean true else .and fs

/-- Adds a rule for an atom with arguments. A choice also asks for the atom
itself. -/
def addDefinition (isChoice : Bool) (name : Text) (args : List Rule.Term) (body : List Formula)
    (scope : List Variable) : Build Unit := do
  let p : Symbol := ⟨name, args.length⟩
  let params ← headParams p
  let own := if isChoice then [Formula.atomOf p params] else []
  let (chosen, scope) ← inRule scope (chooseValues args params)
  modify fun s =>
    { s with encoding := s.encoding.addRuleFormula p ⟨scope, conjunctionOf (body ++ own ++ chosen)⟩ }

/-- Adds the constraint that a body does not hold. -/
def addConstraint (body : List Formula) (scope : List Variable) : Build Unit :=
  modify fun s =>
    let constraint := OpenFormula.close .universal ⟨scope, .not (.and body)⟩
    { s with encoding := { s.encoding with constraints := s.encoding.constraints ++ [constraint] } }

def addRule (r : Rule) : Build Unit := do
  let (fs, scope) ← inRule [] (body r.body)
  let (shape, scope) ← inRule scope (headShape r.head)
  match shape with
  | .trivial => return ()
  | .constraint => addConstraint fs scope
  | .atom name args => addDefinition false name args fs scope
  | .choice name args => addDefinition true name args fs scope

/-- Adds rules in order, up to the first that fails. -/
def addRules : List Rule → Build Unit
  | [] => return ()
  | r :: rest => do
    addRule r
    addRules rest

end Encoding

end LogicProgram
