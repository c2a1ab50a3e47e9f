import LogicProgram.Error

/-!
# Domains

Variables and constants range over all objects of a program or over the
integers among them. The first letter of a variable's name, after any
underscores, decides which.
-/

namespace LogicProgram

/-- What a variable or constant ranges over. -/
inductive Domain where
  /-- All objects. -/
  | program
  | integer
deriving DecidableEq, Repr, Inhabited

namespace Domain

/-- A domain as messages show it, where it may not be assigned yet. -/
def text : Option Domain → Text
  | some program => "program"
  | some integer => "integer"
  | none => "unknown"

/-- The domain of a named variable. -/
def ofVariableName (name : Text) : Except Error Domain :=
  match name.dropWhile (Text.isChar '_') with
  | [] => .error (Fault.variableNameNotAllowed name)
  | b :: _ =>
    if Text.isChar 'X' b || Text.isChar 'Y' b || Text.isChar 'Z' b then .ok program
    else if 'I'.toUInt8 ≤ b && b ≤ 'N'.toUInt8 then .ok integer
    else .error (Fault.variableNameNotAllowed name)

end Domain

end LogicProgram
