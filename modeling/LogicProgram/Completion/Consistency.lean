import LogicProgram.Completion.Hiding

/-!
# Consistency of a program's interface

Before private predicates are hidden it is checked that the specification does
not mention them, that they do not depend on themselves, and that they do not
depend on output predicates. Without output predicates there is nothing to
check.
-/

namespace LogicProgram.Completion

def privateInSpecification? (r : Registry) (specification : List Formula) : Option Symbol :=
  (specification.flatMap Formula.predicates).find? r.isPrivate

def isOutput (r : Registry) (p : Symbol) : Bool := ((r.predicate? p).map (·.isOutput)).getD false

/-- What is wrong with a private predicate. -/
def privateFault? (r : Registry) (p : Symbol) : Option Fault :=
  if r.hasPrivateCycle p then some (.privateCycle p)
  else ((r.dependenciesOf p).find? fun (q, _) => isOutput r q).map fun (q, _) =>
    .privateDependsOnPublic p q.text

/-- The first thing that is wrong with the interface of a program. -/
def interfaceFault? (r : Registry) (specification : List Formula) : Option Fault :=
  if hasOutput r then
    match privateInSpecification? r specification with
    | some p => some (.privateInSpecification p)
    | none => (privatePredicates r).findSome? (privateFault? r)
  else none

def checkConsistency (r : Registry) (specification : List Formula) : Except Error Unit :=
  match interfaceFault? r specification with
  | some fault => .error fault
  | none => .ok ()

end LogicProgram.Completion
