import LogicProgram.Completion.Basic
import LogicProgram.Completion.Dependency
import LogicProgram.Formula.Copy
import LogicProgram.Formula.Variables

/-!
# Hiding private predicates

If a program has output predicates, the private ones are eliminated: every atom
of a private predicate is replaced by a copy of the body of its definition, with
the arguments of the atom in the place of the definition's variables.
-/

namespace LogicProgram.Completion

/-- The variables that are the arguments of a defined atom. -/
def variableArguments : List Term → Except Error (List Variable)
  | [] => .ok []
  | .variable v :: rest => (variableArguments rest).map (v :: ·)
  | _ :: _ => .error (Fault.logic "invalid completed definition")

/-- A body with arguments in the place of variables, one after the other. -/
def instantiate (params : List Variable) (args : List Term) (body : Formula) : Formula :=
  (params.zip args).foldl (fun f (v, t) => f.replace v t) body

/-- The formula with every atom of the defined predicate replaced by a copy of
the body. A body that mentions the predicate only fits formulas that do not. -/
def hidePredicate (definition f : Formula) : Registering Formula := do
  match split definition with
  | .error e => throw e
  | .ok ((name, args), body) => do
    let p : Symbol := ⟨name, args.length⟩
    if body.mentions p && f.mentions p then throw (Fault.cannotHide p : Error)
    match variableArguments args with
    | .error e => throw e
    | .ok params =>
      f.replaceAtoms p fun actual => return instantiate params actual (← Registering.copy body)

def hideInAll (definition : Formula) : List Formula → Registering (List Formula)
  | [] => return []
  | f :: rest => return (← hidePredicate definition f) :: (← hideInAll definition rest)

def hideInDefinitions (definition : Formula) :
    List CompletedDefinition → Registering (List CompletedDefinition)
  | [] => return []
  | d :: rest => do
    let formula ← hidePredicate definition d.formula
    return { d with formula } :: (← hideInDefinitions definition rest)

/-- The declarations and the completion that predicates are hidden in. -/
structure State where
  registry : Registry
  completion : Completion
deriving Inhabited

/-- A step on a completion; a failure keeps what was done before it. -/
abbrev Build := ExceptT Error (StateM State)

def register {α : Type} (step : Registering α) : Build α := do
  let s ← get
  let (a, registry) := (step.run s.registry : Except Error α × Registry)
  set { s with registry }
  match a with
  | .ok a => return a
  | .error e => throw e

/-- Hides a predicate in the completion and in further formulas. Its own
definition goes. -/
def hide (p : Symbol) (formulas : List Formula) : Build (List Formula) := do
  let s ← get
  if s.registry.hasPrivateCycle p then throw (Fault.privateCycle p : Error)
  match s.completion.definition? p with
  | none => throw (Fault.noDefinition p : Error)
  | some d => do
    let others := s.completion.definitions.eraseP (·.predicate == p)
    modify fun s => { s with completion := { s.completion with definitions := others } }
    let definitions ← register (hideInDefinitions d.formula others)
    modify fun s => { s with completion := { s.completion with definitions } }
    let constraints ← register (hideInAll d.formula s.completion.constraints)
    modify fun s => { s with completion := { s.completion with constraints } }
    register (hideInAll d.formula formulas)

def hideEach : List Symbol → List Formula → Build (List Formula)
  | [], formulas => return formulas
  | p :: rest, formulas => do hideEach rest (← hide p formulas)

def hasOutput (r : Registry) : Bool := r.predicates.any (·.isOutput)

/-- The private predicates by name and arity. -/
def privatePredicates (r : Registry) : List Symbol :=
  (r.sortedPredicates.filter (·.isPrivate)).map (·.symbol)

/-- Hides all private predicates if there is an output predicate; the further
formulas are given back without them. -/
def restrictToOutput (formulas : List Formula) : Build (List Formula) := do
  let r := (← get).registry
  if hasOutput r then hideEach (privatePredicates r) formulas else return formulas

end LogicProgram.Completion
