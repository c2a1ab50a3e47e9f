import LogicProgram.Tff.OfFormula

/-!
# The background theory

Every proof problem starts with the same types and axioms. Objects are the
integers, the symbolic constants and two extremes, and they are totally
ordered, with the integers in their usual order below all symbolic constants.
-/

namespace LogicProgram.Tff

/-- A formula with its name and role in a proof problem. -/
structure Annotated where
  name : Text
  role : Role
  /-- What is said. -/
  formula : Formula
deriving Repr, Inhabited

def Annotated.text (a : Annotated) : Text := line a.name a.role.text a.formula.text

def typeLine (type : Text) : Text := line "type" "type" type

namespace Background

/-- The type declarations of the background theory. -/
def types : List Text :=
  [("object: $tType" : Text), "f__integer__: ($int) > object", "c__infimum__: object",
    "c__supremum__: object", predicateType ⟨"p__is_integer__", 1⟩,
    predicateType ⟨"p__is_symbolic__", 1⟩, predicateType ⟨"p__less_equal__", 2⟩,
    predicateType ⟨"p__less__", 2⟩, predicateType ⟨"p__greater_equal__", 2⟩,
    predicateType ⟨"p__greater__", 2⟩]

def infimum : Term := .apply "c__infimum__" []

def supremum : Term := .apply "c__supremum__" []

/-- `t` is an integer. -/
def isInteger (t : Term) : Formula := .atom "p__is_integer__" [t]

/-- `t` is a symbolic constant. -/
def isSymbolic (t : Term) : Formula := .atom "p__is_symbolic__" [t]

/-- `t` is at most `u`. -/
def lessEqual (t u : Term) : Formula := .atom "p__less_equal__" [t, u]

/-- `t` is below `u`. -/
def less (t u : Term) : Formula := .atom "p__less__" [t, u]

/-- `t` is at least `u`. -/
def greaterEqual (t u : Term) : Formula := .atom "p__greater_equal__" [t, u]

/-- `t` is above `u`. -/
def greater (t u : Term) : Formula := .atom "p__greater__" [t, u]

/-- `t` equals `u`. -/
def equal (t u : Term) : Formula := .equation true t u

/-- `t` differs from `u`. -/
def different (t u : Term) : Formula := .equation false t u

/-- For all objects of some names. -/
def allObjects (names : List Text) (f : Formula) : Formula :=
  .quantified .universal (names.map (·, .program)) f

/-- For all integers of some names. -/
def allIntegers (names : List Text) (f : Formula) : Formula :=
  .quantified .universal (names.map (·, .integer)) f

/-- Both hold or neither does. -/
def equivalent (f g : Formula) : Formula := .chain .iff [f, g]

/-- The second follows from the first. -/
def implies (f g : Formula) : Formula := .chain .implies [f, g]

/-- Variables of the axioms. -/
def x : Term := .variable "X"

def y : Term := .variable "Y"

def z : Term := .variable "Z"

def n : Term := .variable "N"

def n1 : Term := .variable "N1"

def n2 : Term := .variable "N2"

/-- An axiom of a name. -/
def named (name : Text) (f : Formula) : Annotated := ⟨name, .hypothesis, f⟩

/-- Every object is an integer, a symbolic constant or an extreme. -/
def sorts : List Annotated := [
  named "type_check" (allObjects ["X"] (equivalent (isInteger x)
    (.group (.quantified .existential [("N", .integer)] (equal x (embed n)))))),
  named "type_check" (allObjects ["X"] (equivalent (isSymbolic x)
    (.chain .and [.not (isInteger x), different x infimum, different x supremum]))),
  named "type_check" (different infimum supremum),
  named "integer_embedding" (allIntegers ["N1", "N2"] (implies
    (.group (equal (embed n1) (embed n2))) (.group (equal n1 n2))))]

/-- Objects are totally ordered. -/
def order : List Annotated := [
  named "less_equal" (allIntegers ["N1", "N2"] (equivalent
    (lessEqual (embed n1) (embed n2)) (.atom "$lesseq" [n1, n2]))),
  named "less_equal" (allObjects ["X"] (lessEqual x x)),
  named "less_equal" (allObjects ["X", "Y"] (implies
    (.chain .and [lessEqual x y, lessEqual y x]) (.group (equal x y)))),
  named "less_equal" (allObjects ["X", "Y", "Z"] (implies
    (.chain .and [lessEqual x y, lessEqual y z]) (lessEqual x z))),
  named "less_equal" (allObjects ["X", "Y"] (.chain .or [lessEqual x y, lessEqual y x])),
  named "less" (allObjects ["X", "Y"] (equivalent (less x y)
    (.chain .and [lessEqual x y, different x y]))),
  named "greater_equal" (allObjects ["X", "Y"] (equivalent (greaterEqual x y) (lessEqual y x))),
  named "greater" (allObjects ["X", "Y"] (equivalent (greater x y)
    (.chain .and [lessEqual y x, different x y])))]

/-- The least object, then the integers, then the symbolic constants, then the
greatest object. -/
def placement : List Annotated := [
  named "infimum" (allObjects ["X"] (lessEqual infimum x)),
  named "supremum" (allObjects ["X"] (lessEqual x supremum)),
  named "integers_before_symbols" (.quantified .universal [("N", .integer), ("X", .program)]
    (implies (isSymbolic x) (less (embed n) x)))]

/-- All axioms of the background theory. -/
def axioms : List Annotated := sorts ++ order ++ placement

/-- Formulas under a comment. -/
def commented (comment : Text) (formulas : List Annotated) : Text :=
  "% " ++ comment ++ "\n" ++ formulas.flatMap Annotated.text

/-- The text of the type declarations. -/
def typesText : Text := types.flatMap typeLine

/-- The text of the axioms. -/
def axiomsText : Text :=
  commented "every object is an integer, a symbolic constant, or one of the two extremes" sorts
    ++ "\n" ++ commented "objects are totally ordered" order
    ++ "\n" ++ commented "#inf < integers < symbolic constants < #sup" placement

end Background

/-- The axiom that a constant is symbolic. -/
def symbolicConstant (name : Text) : Annotated :=
  ⟨"symbolic_constant", .hypothesis, Background.isSymbolic (.apply name [])⟩

/-- The axioms that put constants in order, one for each pair of neighbours. -/
def constantOrder : List Text → List Annotated
  | a :: b :: rest =>
    ⟨"symbolic_constant_order", .hypothesis, Background.less (.apply a []) (.apply b [])⟩
      :: constantOrder (b :: rest)
  | _ => []

end LogicProgram.Tff
