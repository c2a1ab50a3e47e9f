import LogicProgram.Completion.Consistency
import LogicProgram.Completion.Simplified
import LogicProgram.Problem.Basic
import LogicProgram.Rule.Parser
import LogicProgram.Specification

/-!
# From a program to a proof problem

A program alone gives the problem of its completed definitions and constraints.
With a specification the declarations of the specification are known first, the
private predicates are eliminated, and the statements of the specification are
added in their sections.
-/

namespace LogicProgram.Verification

/-- The value of a step, with what was done named in its errors. -/
def doing {α : Type} (activity : Text) : Except Error α → Except Error α
  | .ok a => .ok a
  | .error e => .error (.during activity e)

/-- The completion of a program, over the declarations made before. -/
def complete (r : Registry) (program : Text) : Except Error Completion.State := do
  let rules ← doing "failed to parse program" (Rule.parse program)
  let (encoded, s) := (Encoding.addRules rules).run ⟨r, .empty⟩
  doing "failed to translate program" encoded
  let (completed, r) := (Completion.complete s.encoding).run s.registry
  let c ← doing "failed to complete program" completed
  return ⟨r, c⟩

/-- The value of a step on a completion, with the completion after it. -/
def step {α : Type} (build : Completion.Build α) (s : Completion.State) :
    Except Error (α × Completion.State) :=
  match (build.run s : Except Error α × Completion.State) with
  | (.ok a, s) => .ok (a, s)
  | (.error e, _) => .error e

/-- The completion, simplified if that is asked for. -/
def simplified (simplify : Bool) (s : Completion.State) : Except Error Completion.State :=
  if simplify then (step Completion.simplify s).map (·.2) else .ok s

/-- The problem of a completion. -/
def problemOf (s : Completion.State) : Problem :=
  let p := s.completion.definitions.foldl (fun p d =>
    p.add .completedDefinitions
      { Statement.fresh .program d.formula with
        description := "completed definition of " ++ d.predicate.text }) (.empty s.registry)
  s.completion.constraints.foldl (fun p f =>
    p.add .integrityConstraints (.fresh .program f)) p

/-- Adds the statement of a specification. -/
def addItem (p : Problem) (item : Specification.Item) : Problem :=
  let s := Statement.fresh item.kind item.formula
  p.add (Specification.sectionOf item.kind)
    (if item.kind = .auxiliary then { s with direction := item.direction } else s)

/-- The problem of a program. -/
def ofProgram (simplify : Bool) (program : Text) : Except Error Problem := do
  let s ← complete .empty program
  let s ← simplified simplify s
  return problemOf s

/-- The problem of a program and a specification. -/
def ofSpecification (simplify : Bool) (program specification : Text) : Except Error Problem := do
  let (parsed, r) := (Specification.parse specification).run .empty
  let spec ← doing "failed to parse specification" parsed
  let s ← complete r program
  Completion.checkConsistency s.registry (spec.formulas [.auxiliary, .assertion])
  let (formulas, s) ← step (Completion.restrictToOutput (spec.items.map (·.formula))) s
  let s ← simplified simplify s
  let items := spec.items.zipWith (fun item formula => { item with formula }) formulas
  return items.foldl addItem (problemOf s)

end LogicProgram.Verification
