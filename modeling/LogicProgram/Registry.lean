import LogicProgram.Formula.Basic
import LogicProgram.Formula.Domain
import LogicProgram.Formula.Polarity

/-!
# The registry of declarations

Functions and predicates are declared when they are first used and are known
by their symbol. Variables are numbered in the order in which they are made. A
variable with an empty name is a generated one.
-/

namespace LogicProgram

/-- What is known of a function. -/
structure FunctionDeclaration where
  /-- Its name and arity. -/
  symbol : Symbol
  /-- What its values range over. -/
  domain : Option Domain
  /-- Whether its value is given from outside. -/
  isInput : Bool
deriving DecidableEq, Repr, Inhabited

/-- What is known of a predicate. -/
structure PredicateDeclaration where
  /-- Its name and arity. -/
  symbol : Symbol
  /-- Whether its extent is given from outside. -/
  isInput : Bool
  /-- Whether its extent is what the program computes. -/
  isOutput : Bool
  /-- The predicates that its definition mentions; nothing before the
  definition is known. -/
  dependencies : Option (List (Symbol × Polarity))
deriving DecidableEq, Repr, Inhabited

/-- What is known of a variable. -/
structure VariableDeclaration where
  /-- Its name, empty if it is generated. -/
  name : Text
  /-- What it ranges over, once that is assigned. -/
  domain : Option Domain
deriving DecidableEq, Repr, Inhabited

/-- All declarations made so far. -/
structure Registry where
  /-- The functions in the order of their declaration. -/
  functions : List FunctionDeclaration
  /-- The predicates in the order of their declaration. -/
  predicates : List PredicateDeclaration
  /-- The variables by their number. -/
  variableTable : Array VariableDeclaration
deriving Repr

namespace FunctionDeclaration

/-- A constant that stands for a fixed symbol of the program. -/
def isSymbolicConstant (d : FunctionDeclaration) : Bool :=
  d.symbol.arity == 0 && !d.isInput && d.domain == some .program

end FunctionDeclaration

namespace PredicateDeclaration

/-- Part of the interface of the program. -/
def isPublic (d : PredicateDeclaration) : Bool := d.isInput || d.isOutput

/-- Neither part of the interface nor of the background theory. -/
def isPrivate (d : PredicateDeclaration) : Bool := !d.isPublic && !d.symbol.isBuiltInPredicate

/-- Records a dependency; polarities of one predicate are joined. -/
def addDependency (d : PredicateDeclaration) (p : Symbol) (polarity : Polarity) :
    PredicateDeclaration :=
  let known := d.dependencies.getD []
  let widened :=
    if known.any (·.1 == p) then
      known.map fun (q, old) => if q = p then (q, old.join polarity) else (q, old)
    else known ++ [(p, polarity)]
  { d with dependencies := some widened }

end PredicateDeclaration

namespace Registry

def empty : Registry := ⟨[], [], #[]⟩

instance : Inhabited Registry := ⟨empty⟩

def function? (r : Registry) (s : Symbol) : Option FunctionDeclaration :=
  r.functions.find? (·.symbol == s)

def predicate? (r : Registry) (s : Symbol) : Option PredicateDeclaration :=
  r.predicates.find? (·.symbol == s)

/-- Declares a function unless it is known. -/
def declareFunction (r : Registry) (s : Symbol) : Registry :=
  if (r.function? s).isSome then r
  else { r with functions := r.functions ++ [⟨s, some .program, false⟩] }

/-- Declares a predicate unless it is known. -/
def declarePredicate (r : Registry) (s : Symbol) : Registry :=
  if (r.predicate? s).isSome then r
  else { r with predicates := r.predicates ++ [⟨s, false, false, none⟩] }

def updateFunction (r : Registry) (s : Symbol) (change : FunctionDeclaration → FunctionDeclaration) :
    Registry :=
  { r with functions := r.functions.map fun d => if d.symbol = s then change d else d }

def updatePredicate (r : Registry) (s : Symbol)
    (change : PredicateDeclaration → PredicateDeclaration) : Registry :=
  { r with predicates := r.predicates.map fun d => if d.symbol = s then change d else d }

/-- The functions by name and arity. -/
def sortedFunctions (r : Registry) : List FunctionDeclaration :=
  r.functions.mergeSort fun a b => a.symbol.le b.symbol

/-- The predicates by name and arity. -/
def sortedPredicates (r : Registry) : List PredicateDeclaration :=
  r.predicates.mergeSort fun a b => a.symbol.le b.symbol

/-- Whether a predicate is neither part of the interface nor of the background
theory. -/
def isPrivate (r : Registry) (s : Symbol) : Bool :=
  match r.predicate? s with
  | some d => d.isPrivate
  | none => !s.isBuiltInPredicate

/-- Adds a variable and gives its number. -/
def addVariable (r : Registry) (d : VariableDeclaration) : Variable × Registry :=
  (r.variableTable.size, { r with variableTable := r.variableTable.push d })

def variableDeclaration (r : Registry) (v : Variable) : VariableDeclaration :=
  (r.variableTable[v]?).getD ⟨[], none⟩

/-- The domain of a variable, once it is assigned. -/
def variableDomain (r : Registry) (v : Variable) : Option Domain := (r.variableDeclaration v).domain

/-- A name of a variable for messages. -/
def variableLabel (r : Registry) (v : Variable) : Text :=
  let name := (r.variableDeclaration v).name
  if name.isEmpty then "<generated " ++ Text.ofNat v ++ ">" else name

/-- The error for a variable that has no domain yet. -/
def unspecifiedDomain (r : Registry) (v : Variable) : Error :=
  Fault.logic ("unspecified domain of variable " ++ r.variableLabel v)

/-- Gives a variable its domain, which it keeps from then on. -/
def assignDomain (r : Registry) (v : Variable) (domain : Option Domain) : Except Error Registry :=
  match r.variableDomain v with
  | none => .ok { r with variableTable := r.variableTable.modify v ({ · with domain }) }
  | some old =>
    if some old = domain then .ok r
    else .error (Fault.inconsistentDomain (r.variableLabel v)
      ("already " ++ Domain.text (some old) ++ ", cannot become " ++ Domain.text domain))

/-- Whether a function's values are integers. -/
def isIntegerFunction (r : Registry) (s : Symbol) : Bool :=
  ((r.function? s).bind (·.domain)) == some .integer

/-- Whether a term denotes an integer. -/
def isArithmetic (r : Registry) : Term → Except Error Bool
  | .integer _ => .ok true
  | .boolean _ | .string _ | .infimum | .supremum => .ok false
  | .function name args =>
    if args.isEmpty then .ok (r.isIntegerFunction ⟨name, 0⟩)
    else .error (Fault.unsupportedFeature "functions with arguments")
  | .variable v =>
    match r.variableDomain v with
    | some domain => .ok (domain == .integer)
    | none => .error (r.unspecifiedDomain v)
  | .binary _ left right =>
    match r.isArithmetic left with
    | .ok true => r.isArithmetic right
    | other => other
  | .unary _ arg => r.isArithmetic arg
  | .interval _ _ => .error (Fault.logic "intervals cannot occur in formulas")

end Registry

/-- A step that may change the registry and fail; a failure keeps the changes. -/
abbrev Registering := ExceptT Error (StateM Registry)

namespace Registering

def namedVariable (name : Text) : Registering Variable := modifyGet (·.addVariable ⟨name, none⟩)

def generated (domain : Option Domain) : Registering Variable :=
  modifyGet (·.addVariable ⟨[], domain⟩)

def generatedMany (domain : Option Domain) : Nat → Registering (List Variable)
  | 0 => return []
  | n + 1 => return (← generated domain) :: (← generatedMany domain n)

/-- A new variable of the same name and domain. -/
def clone (v : Variable) : Registering Variable := modifyGet fun r => r.addVariable (r.variableDeclaration v)

def assignDomain (v : Variable) (domain : Option Domain) : Registering Unit := do
  match (← get).assignDomain v domain with
  | .ok r => set r
  | .error e => throw e

def function (s : Symbol) : Registering Unit := modify (·.declareFunction s)

def predicate (s : Symbol) : Registering Unit := modify (·.declarePredicate s)

end Registering

end LogicProgram
