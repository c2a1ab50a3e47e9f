import LogicProgram.Proofs.Formula.Sorts

/-!
# Renamed formulas

Two closed formulas differ in the names of their bound variables alone if one is
the other with its variables renamed, different ones to different ones. Beside
that, a minus sign and the number after it can be taken together.
-/

namespace LogicProgram

namespace Term

/-- The term with other variables. -/
def renamed (ρ : Variable → Variable) (t : Term) : Term := t.subst fun v => .variable (ρ v)

mutual

/-- The term in which a minus sign before a number that is not negative is part of the number. -/
def folded : Term → Term
  | .unary .negative (.integer n) =>
    if 0 ≤ n then .integer (-n) else .unary .negative (.integer n)
  | .unary op arg => .unary op arg.folded
  | .function name args => .function name (foldedAll args)
  | .binary op left right => .binary op left.folded right.folded
  | .interval lower upper => .interval lower.folded upper.folded
  | .integer n => .integer n
  | .boolean b => .boolean b
  | .string s => .string s
  | .infimum => .infimum
  | .supremum => .supremum
  | .variable v => .variable v

/-- Several terms with their minus signs taken into the numbers. -/
def foldedAll : List Term → List Term
  | [] => []
  | t :: rest => t.folded :: foldedAll rest

end

theorem foldedAll_eq_map (ts : List Term) : foldedAll ts = ts.map folded :=
  eq_map_of_cons rfl (fun _ _ => rfl) ts

theorem folded_function (name : Text) (args : List Term) :
    (function name args).folded = function name (args.map folded) :=
  congrArg (function name) (foldedAll_eq_map args)

theorem folded_negative {arg : Term} (h : ∀ n, arg = .integer n → n < 0) :
    (unary .negative arg).folded = unary .negative arg.folded := by
  cases arg with
  | integer n =>
    rw [folded, if_neg (Int.not_le.mpr (h n rfl))]
    rfl
  | _ => rfl

end Term

namespace Formula

mutual

/-- The formula with other variables, bound and free. -/
def renamed (ρ : Variable → Variable) : Formula → Formula
  | .boolean b => .boolean b
  | .compare op left right => .compare op (left.renamed ρ) (right.renamed ρ)
  | .atom name args => .atom name (args.map (·.renamed ρ))
  | .not arg => .not (arg.renamed ρ)
  | .implies antecedent consequent => .implies (antecedent.renamed ρ) (consequent.renamed ρ)
  | .join connective args => .join connective (renamedAll ρ args)
  | .quantified q params body => .quantified q (params.map ρ) (body.renamed ρ)

/-- Several formulas with other variables. -/
def renamedAll (ρ : Variable → Variable) : List Formula → List Formula
  | [] => []
  | f :: rest => f.renamed ρ :: renamedAll ρ rest

end

theorem renamedAll_eq_map (ρ : Variable → Variable) (fs : List Formula) :
    renamedAll ρ fs = fs.map (·.renamed ρ) := eq_map_of_cons rfl (fun _ _ => rfl) fs

mutual

/-- The formula in whose terms minus signs are taken into the numbers. -/
def folded : Formula → Formula
  | .boolean b => .boolean b
  | .compare op left right => .compare op left.folded right.folded
  | .atom name args => .atom name (args.map Term.folded)
  | .not arg => .not arg.folded
  | .implies antecedent consequent => .implies antecedent.folded consequent.folded
  | .join connective args => .join connective (foldedAll args)
  | .quantified q params body => .quantified q params body.folded

/-- Several formulas in whose terms minus signs are taken into the numbers. -/
def foldedAll : List Formula → List Formula
  | [] => []
  | f :: rest => f.folded :: foldedAll rest

end

theorem foldedAll_eq_map (fs : List Formula) : foldedAll fs = fs.map folded :=
  eq_map_of_cons rfl (fun _ _ => rfl) fs

/-- Up to the names of its bound variables, which are all that it has, the closed formula `f`
is the formula `g`. Variables keep what they range over, from one registry to the other. -/
structure SameUpToNames (r r' : Registry) (f g : Formula) : Prop where
  /-- All variables are bound. -/
  closed : f.freeVariables = []
  /-- The formulas differ by a renaming of variables, different ones to different ones. -/
  renamed : ∃ ρ : Variable → Variable, g = f.renamed ρ ∧
    (∀ v ∈ f.binders, ∀ w ∈ f.binders, ρ v = ρ w → v = w) ∧
    ∀ v ∈ f.binders, r'.variableDomain (ρ v) = r.variableDomain v

end Formula

end LogicProgram
