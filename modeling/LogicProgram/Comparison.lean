import LogicProgram.Text.Basic

/-!
# Comparisons

The six relations between values, shared by rules and formulas.
-/

namespace LogicProgram

/-- A relation between two values. -/
inductive Comparison where
  | less
  | lessOrEqual
  | greater
  | greaterOrEqual
  | equal
  | notEqual
deriving DecidableEq, Repr, Inhabited

namespace Comparison

def text : Comparison → Text
  | less => "<"
  | lessOrEqual => "<="
  | greater => ">"
  | greaterOrEqual => ">="
  | equal => "="
  | notEqual => "!="

def all : List Comparison := [less, lessOrEqual, greater, greaterOrEqual, equal, notEqual]

def ofText? (t : Text) : Option Comparison := all.find? (·.text == t)

end Comparison

end LogicProgram
