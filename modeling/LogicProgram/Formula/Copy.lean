import LogicProgram.Registry

/-!
# Copies of formulas

A copy has a new variable for each variable that a quantifier lists, and keeps
the free variables. The renaming is extended at each quantifier, in the order
in which the formula is written, and stays in force to the end of the formula.
-/

namespace LogicProgram

/-- Pairs of a variable and what it became, the latest first. -/
abbrev Renaming := List (Variable × Variable)

namespace Renaming

/-- What a variable became. -/
def apply (ρ : Renaming) (v : Variable) : Variable := (ρ.lookup v).getD v

end Renaming

namespace Term

mutual

/-- The term with its variables renamed. -/
def rename (ρ : Renaming) : Term → Term
  | .variable v => .variable (ρ.apply v)
  | .function name args => .function name (renameAll ρ args)
  | .binary op left right => .binary op (left.rename ρ) (right.rename ρ)
  | .unary op arg => .unary op (arg.rename ρ)
  | .interval lower upper => .interval (lower.rename ρ) (upper.rename ρ)
  | .integer n => .integer n
  | .boolean b => .boolean b
  | .string s => .string s
  | .infimum => .infimum
  | .supremum => .supremum

def renameAll (ρ : Renaming) : List Term → List Term
  | [] => []
  | t :: r => t.rename ρ :: renameAll ρ r

end

end Term

/-- The state of making a copy. -/
structure Copying where
  /-- The declarations, to which the new variables are added. -/
  registry : Registry
  /-- What the variables listed so far became. -/
  renamed : Renaming

namespace Copying

/-- New variables for those that a quantifier lists. -/
def bind : List Variable → StateM Copying (List Variable)
  | [] => return []
  | v :: r => do
    let fresh ← modifyGet fun c =>
      let (w, registry) := c.registry.addVariable (c.registry.variableDeclaration v)
      (w, ⟨registry, (v, w) :: c.renamed⟩)
    return fresh :: (← bind r)

mutual

def formula : Formula → StateM Copying Formula
  | .boolean b => return .boolean b
  | .compare op left right => do
    let ρ := (← get).renamed
    return .compare op (left.rename ρ) (right.rename ρ)
  | .atom name args => return .atom name (Term.renameAll (← get).renamed args)
  | .not arg => return .not (← formula arg)
  | .implies antecedent consequent =>
    return .implies (← formula antecedent) (← formula consequent)
  | .join connective args => return .join connective (← formulas args)
  | .quantified quantifier params body => do
    let params ← bind params
    return .quantified quantifier params (← formula body)

def formulas : List Formula → StateM Copying (List Formula)
  | [] => return []
  | f :: r => return (← formula f) :: (← formulas r)

end

end Copying

/-- A copy of a formula with new bound variables, and the registry with them. -/
def Registry.copy (r : Registry) (f : Formula) : Formula × Registry :=
  let (g, c) := (Copying.formula f).run ⟨r, []⟩
  (g, c.registry)

/-- A copy of a formula with new bound variables. -/
def Registering.copy (f : Formula) : Registering Formula := modifyGet (·.copy f)

end LogicProgram
