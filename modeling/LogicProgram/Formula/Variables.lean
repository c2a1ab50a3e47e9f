import LogicProgram.Formula.Basic

/-!
# Variables of terms and formulas

Which variables occur in a term, which occur free in a formula, and what
becomes of them when a term is put in the place of one. Replacement stops at a
quantifier that lists the variable; it does not rename the variables that other
quantifiers bind.
-/

namespace LogicProgram

namespace Term

mutual

/-- The variables of a term, once for each occurrence, from left to right. -/
def vars : Term → List Variable
  | .variable v => [v]
  | .function _ args => varsOfAll args
  | .binary _ left right => left.vars ++ right.vars
  | .unary _ arg => arg.vars
  | .interval lower upper => lower.vars ++ upper.vars
  | .integer _ | .boolean _ | .string _ | .infimum | .supremum => []

def varsOfAll : List Term → List Variable
  | [] => []
  | t :: r => t.vars ++ varsOfAll r

end

/-- Whether a variable occurs in a term. -/
def mentions (t : Term) (v : Variable) : Bool := t.vars.contains v

mutual

/-- The term with `new` in the place of every occurrence of `v`. -/
def replace (v : Variable) (new : Term) : Term → Term
  | .variable w => if w = v then new else .variable w
  | .function name args => .function name (replaceInAll v new args)
  | .binary op left right => .binary op (replace v new left) (replace v new right)
  | .unary op arg => .unary op (replace v new arg)
  | .interval lower upper => .interval (replace v new lower) (replace v new upper)
  | .integer n => .integer n
  | .boolean b => .boolean b
  | .string s => .string s
  | .infimum => .infimum
  | .supremum => .supremum

def replaceInAll (v : Variable) (new : Term) : List Term → List Term
  | [] => []
  | t :: r => replace v new t :: replaceInAll v new r

end

end Term

namespace Formula

/-- How far a search for free variables has come. -/
structure FreeSearch where
  /-- How often the quantifiers around the place list a variable. -/
  bound : Variable → Int
  /-- The variables that were met free. -/
  seen : List Variable
  /-- The free variables in the order in which they were met. -/
  found : List Variable

namespace FreeSearch

/-- Meets an occurrence of a variable, which counts if it is free and the first such. -/
def meet (s : FreeSearch) (v : Variable) : FreeSearch :=
  if s.bound v = 0 ∧ v ∉ s.seen then { s with seen := v :: s.seen, found := s.found ++ [v] } else s

/-- Counts variables that a quantifier lists up or down, once for each time that it lists them. -/
def shift (step : Int) (params : List Variable) (s : FreeSearch) : FreeSearch :=
  { s with bound := params.foldl (fun bound v w => if w = v then bound w + step else bound w) s.bound }

mutual

/-- Searches a formula from left to right. The counters go up before the scope of a quantifier and
down after it. -/
def visit (s : FreeSearch) : Formula → FreeSearch
  | .boolean _ => s
  | .compare _ left right => (left.vars ++ right.vars).foldl meet s
  | .atom _ args => (Term.varsOfAll args).foldl meet s
  | .not arg => s.visit arg
  | .implies antecedent consequent => (s.visit antecedent).visit consequent
  | .join _ args => s.visitAll args
  | .quantified _ params body => ((s.shift 1 params).visit body).shift (-1) params

def visitAll (s : FreeSearch) : List Formula → FreeSearch
  | [] => s
  | f :: r => (s.visit f).visitAll r

end

end FreeSearch

/-- The free variables of a formula, each once, by first occurrence. -/
def freeVariables (f : Formula) : List Variable := (FreeSearch.visit ⟨fun _ => 0, [], []⟩ f).found

mutual

/-- The formula with `new` in the place of every free occurrence of `v`. -/
def replace (v : Variable) (new : Term) : Formula → Formula
  | .boolean b => .boolean b
  | .compare op left right => .compare op (Term.replace v new left) (Term.replace v new right)
  | .atom name args => .atom name (Term.replaceInAll v new args)
  | .not arg => .not (replace v new arg)
  | .implies antecedent consequent =>
    .implies (antecedent.replace v new) (consequent.replace v new)
  | .join connective args => .join connective (replaceInAll v new args)
  | .quantified quantifier params body =>
    if params.contains v then .quantified quantifier params body
    else .quantified quantifier params (body.replace v new)

def replaceInAll (v : Variable) (new : Term) : List Formula → List Formula
  | [] => []
  | f :: r => f.replace v new :: replaceInAll v new r

end

end Formula

end LogicProgram
