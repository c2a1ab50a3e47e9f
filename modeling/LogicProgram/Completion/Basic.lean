import LogicProgram.Encoding.Basic
import LogicProgram.Formula.Atoms

/-!
# Completion

A predicate holds of exactly those arguments for which one of its rules says
so. The completed definition of a predicate is the equivalence of its atom with
the disjunction of its rules, or the negation of its atom if it has none. There
is one for every predicate that is neither given as input nor part of the
background theory.
-/

namespace LogicProgram

/-- The definition of a predicate as a closed formula. -/
structure CompletedDefinition where
  predicate : Symbol
  formula : Formula
deriving Repr, Inhabited

/-- The completion of a program. -/
structure Completion where
  /-- The completed definitions by name and arity of the predicate. -/
  definitions : List CompletedDefinition
  /-- The constraints in the order of the program. -/
  constraints : List Formula
deriving Repr, Inhabited

namespace Completion

def definition? (c : Completion) (p : Symbol) : Option CompletedDefinition :=
  c.definitions.find? (·.predicate == p)

/-- The completed definition of a predicate from its rules. -/
def ofRules (d : RuleFormulas) : Formula :=
  .close .universal d.params
    (.iff [.atomOf d.predicate d.params, .or (d.rules.map (·.close .existential))])

/-- The completed definition of a predicate without rules. -/
def ofNoRules (p : Symbol) (params : List Variable) : Formula :=
  .close .universal params (.not (.atomOf p params))

/-- The atom and the body of a completed definition. -/
def split (definition : Formula) : Except Error ((Text × List Term) × Formula) :=
  let inner := match definition with
    | .quantified .universal _ body => body
    | f => f
  match inner with
  | .join .iff [.atom name args, body] => .ok ((name, args), body)
  | .not (.atom name args) => .ok ((name, args), .boolean false)
  | _ => .error (Fault.logic "invalid completed definition")

/-- The completed definition of one predicate; variables are made for one
without rules. -/
def completeOne (e : Encoding) (p : Symbol) : Registering CompletedDefinition := do
  match e.definition? p with
  | some d => return ⟨p, ofRules d⟩
  | none => return ⟨p, ofNoRules p (← Registering.generatedMany (some .program) p.arity)⟩

/-- The completed definitions of several predicates. -/
def completeAll (e : Encoding) : List Symbol → Registering (List CompletedDefinition)
  | [] => return []
  | p :: rest => return (← completeOne e p) :: (← completeAll e rest)

/-- The dependencies that the body of a definition gives its predicate, in
place of those known before. -/
def dependenciesOf (body : Formula) (d : PredicateDeclaration) : PredicateDeclaration :=
  (body.atoms.filter (!·.1.isBuiltInPredicate)).foldl
    (fun d (p, polarity) => d.addDependency p polarity) { d with dependencies := some [] }

def recordDependencies : List CompletedDefinition → Registering Unit
  | [] => return ()
  | d :: rest => do
    match split d.formula with
    | .error e => throw e
    | .ok (_, body) => modify (·.updatePredicate d.predicate (dependenciesOf body))
    recordDependencies rest

/-- The predicates that get a completed definition. -/
def definedPredicates (r : Registry) : List Symbol :=
  (r.sortedPredicates.filter fun d => !d.isInput && !d.symbol.isBuiltInPredicate).map (·.symbol)

/-- The completion of a program; the dependencies of predicates are recorded. -/
def complete (e : Encoding) : Registering Completion := do
  let definitions ← completeAll e (definedPredicates (← get))
  recordDependencies definitions
  return ⟨definitions, e.constraints⟩

end Completion

end LogicProgram
