import LogicProgram.Formula.Basic
import LogicProgram.Formula.Polarity

/-!
# Atoms of formulas

The atoms of a formula with the polarity they occur under, and the replacement
of the atoms of one predicate.
-/

namespace LogicProgram.Formula

mutual

/-- The predicates of the atoms of a formula that occurs under polarity `p`,
from left to right. Negations and antecedents change the polarity; members of
an equivalence occur under both. -/
def atomsUnder (p : Polarity) : Formula → List (Symbol × Polarity)
  | .boolean _ | .compare _ _ _ => []
  | .atom name args => [(⟨name, args.length⟩, p)]
  | .not arg => arg.atomsUnder p.flip
  | .implies antecedent consequent =>
    antecedent.atomsUnder p.flip ++ consequent.atomsUnder p
  | .join .iff args => atomsOfAllUnder .both args
  | .join .and args => atomsOfAllUnder p args
  | .join .or args => atomsOfAllUnder p args
  | .quantified _ _ body => body.atomsUnder p

def atomsOfAllUnder (p : Polarity) : List Formula → List (Symbol × Polarity)
  | [] => []
  | f :: r => f.atomsUnder p ++ atomsOfAllUnder p r

end

/-- The predicates of the atoms of a formula with their polarities. -/
def atoms (f : Formula) : List (Symbol × Polarity) := f.atomsUnder .onlyPositive

/-- The predicates of a formula, each once, by first occurrence. -/
def predicates (f : Formula) : List Symbol := (f.atoms.map (·.1)).eraseDups

/-- Whether a predicate occurs in a formula. -/
def mentions (f : Formula) (p : Symbol) : Bool := f.atoms.any (·.1 == p)

section Replacement

variable {m : Type → Type} [Monad m]

mutual

/-- The formula with every atom of `p` replaced by what `new` makes of its
arguments, from left to right. -/
def replaceAtoms (p : Symbol) (new : List Term → m Formula) : Formula → m Formula
  | .boolean b => pure (.boolean b)
  | .compare op left right => pure (.compare op left right)
  | .atom name args => if (⟨name, args.length⟩ : Symbol) = p then new args else pure (.atom name args)
  | .not arg => return .not (← arg.replaceAtoms p new)
  | .implies antecedent consequent =>
    return .implies (← antecedent.replaceAtoms p new) (← consequent.replaceAtoms p new)
  | .join connective args => return .join connective (← replaceAtomsInAll p new args)
  | .quantified quantifier params body =>
    return .quantified quantifier params (← body.replaceAtoms p new)

def replaceAtomsInAll (p : Symbol) (new : List Term → m Formula) : List Formula → m (List Formula)
  | [] => pure []
  | f :: r => return (← f.replaceAtoms p new) :: (← replaceAtomsInAll p new r)

end

end Replacement

end LogicProgram.Formula
