import LogicProgram.Completion.Hiding
import LogicProgram.Simplification

/-!
# Simplified completions

The definitions of a completion are simplified in order, and then the
constraints. A failure keeps what was simplified before it.
-/

namespace LogicProgram.Completion

/-- Definitions simplified up to the first failure. -/
def simplifyDefinitions (r : Registry) :
    List CompletedDefinition → List CompletedDefinition × Option Error
  | [] => ([], none)
  | d :: rest =>
    match d.formula.simplify r with
    | .error e => (d :: rest, some e)
    | .ok formula =>
      let (others, failure) := simplifyDefinitions r rest
      ({ d with formula } :: others, failure)

/-- Formulas simplified up to the first failure. -/
def simplifyFormulas (r : Registry) : List Formula → List Formula × Option Error
  | [] => ([], none)
  | f :: rest =>
    match f.simplify r with
    | .error e => (f :: rest, some e)
    | .ok g =>
      let (others, failure) := simplifyFormulas r rest
      (g :: others, failure)

def simplify : Build Unit := do
  let s ← get
  let (definitions, failure) := simplifyDefinitions s.registry s.completion.definitions
  set { s with completion := { s.completion with definitions } }
  if let some e := failure then throw e
  let (constraints, failure) := simplifyFormulas s.registry s.completion.constraints
  set { s with completion := { definitions, constraints } }
  if let some e := failure then throw e

end LogicProgram.Completion
