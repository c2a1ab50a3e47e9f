import LogicProgram.Registry

/-!
# Names for variables

Rendered formulas show variables as `X1`, `X2`, … if they range over all
objects and as `N1`, `N2`, … if they range over the integers, numbered by first
use.
-/

namespace LogicProgram

/-- The names given so far. -/
structure Namer where
  /-- The names by variable. -/
  names : List (Variable × Text)
  /-- The number of names for program variables. -/
  programCount : Nat
  /-- The number of names for integer variables. -/
  integerCount : Nat
deriving Repr, Inhabited

namespace Namer

def empty : Namer := ⟨[], 0, 0⟩

/-- The names after one more for a variable of a domain. -/
def add (n : Namer) (v : Variable) : Domain → Text × Namer
  | .integer =>
    let name : Text := "N" ++ Text.ofNat (n.integerCount + 1)
    (name, ⟨(v, name) :: n.names, n.programCount, n.integerCount + 1⟩)
  | .program =>
    let name : Text := "X" ++ Text.ofNat (n.programCount + 1)
    (name, ⟨(v, name) :: n.names, n.programCount + 1, n.integerCount⟩)

end Namer

/-- A step that may give names and fail; a failure keeps the names given. -/
abbrev Naming := ExceptT Error (StateM Namer)

namespace Naming

/-- A value that is there, or its error. -/
def ofExcept {α : Type} : Except Error α → Naming α
  | .ok a => return a
  | .error e => throw e

def domainOf (r : Registry) (v : Variable) : Naming Domain :=
  match r.variableDomain v with
  | some domain => return domain
  | none => throw (r.unspecifiedDomain v)

/-- The name of a variable, given at its first use. -/
def nameOf (r : Registry) (v : Variable) : Naming Text := do
  match (← get).names.lookup v with
  | some name => return name
  | none => do
    let domain ← domainOf r v
    modifyGet (·.add v domain)

/-- The result of a step that starts without names. -/
def fresh {α : Type} (step : Naming α) : Except Error α :=
  (step.run Namer.empty : Except Error α × Namer).1

end Naming

end LogicProgram
