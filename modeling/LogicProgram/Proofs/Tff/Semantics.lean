import LogicProgram.Tff.Background
import Mathlib.Logic.Function.Basic
import Mathlib.Tactic.Common

/-!
# Truth of typed formulas

The values of a proof problem are integers and objects. Arithmetic has its usual
meaning. The integers are embedded into the objects, and the constants of the
background theory are objects, as their types say.
-/

namespace LogicProgram.Tff

universe u

/-- A value of one of the two sorts. -/
inductive Value (Object : Type u) where
  | integer (n : Int)
  | object (a : Object)

instance {Object : Type u} : Inhabited (Value Object) := ⟨.integer 0⟩

/-- The values of a sort. -/
def Value.HasSort {Object : Type u} : Value Object → Domain → Prop
  | .integer _, domain => domain = .integer
  | .object _, domain => domain = .program

/-- What the symbols of a proof problem stand for. -/
structure Interpretation (Object : Type u) where
  /-- The value of a constant or function, told apart by the number of arguments. -/
  function : Text → List (Value Object) → Value Object
  /-- The tuples of a predicate, told apart by the number of arguments. -/
  predicate : Text → List (Value Object) → Prop
  /-- The object that an integer is. -/
  ofInt : Int → Object
  /-- The object of the first extreme. -/
  infimum : Object
  /-- The object of the other extreme. -/
  supremum : Object
  /-- Integers are embedded by a function. -/
  function_embed : ∀ n, function "f__integer__" [.integer n] = .object (ofInt n)
  /-- The first extreme is a constant. -/
  function_infimum : function "c__infimum__" [] = .object infimum
  /-- The other extreme is a constant. -/
  function_supremum : function "c__supremum__" [] = .object supremum
  function_sum : ∀ m n, function "$sum" [.integer m, .integer n] = .integer (m + n)
  function_difference : ∀ m n, function "$difference" [.integer m, .integer n] = .integer (m - n)
  function_product : ∀ m n, function "$product" [.integer m, .integer n] = .integer (m * n)
  function_uminus : ∀ n, function "$uminus" [.integer n] = .integer (-n)
  predicate_less : ∀ m n, predicate "$less" [.integer m, .integer n] ↔ m < n
  predicate_lesseq : ∀ m n, predicate "$lesseq" [.integer m, .integer n] ↔ m ≤ n
  predicate_greater : ∀ m n, predicate "$greater" [.integer m, .integer n] ↔ n < m
  predicate_greatereq : ∀ m n, predicate "$greatereq" [.integer m, .integer n] ↔ n ≤ m

variable {Object : Type u}

mutual

/-- The value of a term, for values of its variables. -/
def Term.value (M : Interpretation Object) (σ : Text → Value Object) : Term → Value Object
  | .numeral n => .integer n
  | .variable name => σ name
  | .apply function args => M.function function (Term.values M σ args)

/-- The values of several terms. -/
def Term.values (M : Interpretation Object) (σ : Text → Value Object) :
    List Term → List (Value Object)
  | [] => []
  | t :: rest => t.value M σ :: Term.values M σ rest

end

/-- The truth value that a connective makes of others. Implications lean to the right. -/
def Connective.Holds : Connective → List Prop → Prop
  | .and, ps => ∀ p ∈ ps, p
  | .or, ps => ∃ p ∈ ps, p
  | .implies, [] => True
  | .implies, [p] => p
  | .implies, p :: ps => p → Connective.implies.Holds ps
  | .iff, [] => True
  | .iff, [p] => p
  | .iff, ps => ps.IsChain Iff

/-- Whether something holds for some or for all values of variables, each of its sort. -/
def Quantifies (q : Quantifier) : List (Text × Domain) → ((Text → Value Object) → Prop) →
    (Text → Value Object) → Prop
  | [], P, σ => P σ
  | (name, domain) :: rest, P, σ =>
    match q with
    | .existential => ∃ a : Value Object, a.HasSort domain ∧
        Quantifies q rest P (Function.update σ name a)
    | .universal => ∀ a : Value Object, a.HasSort domain →
        Quantifies q rest P (Function.update σ name a)

mutual

/-- Whether a formula is true, for values of its variables. -/
def Formula.Holds (M : Interpretation Object) : Formula → (Text → Value Object) → Prop
  | .truth b, _ => b = true
  | .atom predicate args, σ => M.predicate predicate (Term.values M σ args)
  | .equation true left right, σ => left.value M σ = right.value M σ
  | .equation false left right, σ => left.value M σ ≠ right.value M σ
  | .not arg, σ => ¬ arg.Holds M σ
  | .group arg, σ => arg.Holds M σ
  | .chain connective args, σ => connective.Holds (Formula.truths M args σ)
  | .quantified quantifier params body, σ => Quantifies quantifier params (body.Holds M) σ

/-- The truth values of several formulas. -/
def Formula.truths (M : Interpretation Object) :
    List Formula → (Text → Value Object) → List Prop
  | [], _ => []
  | f :: rest, σ => f.Holds M σ :: Formula.truths M rest σ

end

/-- A formula without free variables is true whatever values variables have. -/
def Interpretation.Satisfies (M : Interpretation Object) (f : Formula) : Prop :=
  ∀ σ, f.Holds M σ

section

variable {P : Value Object → Prop}

@[simp] theorem forall_hasSort_integer : (∀ a : Value Object, a.HasSort .integer → P a) ↔
    ∀ n, P (.integer n) := by
  constructor
  · exact fun h n => h (.integer n) rfl
  · intro h a ha
    cases a with
    | integer n => exact h n
    | object a => cases ha

@[simp] theorem forall_hasSort_program : (∀ a : Value Object, a.HasSort .program → P a) ↔
    ∀ a, P (.object a) := by
  constructor
  · exact fun h a => h (.object a) rfl
  · intro h a ha
    cases a with
    | integer n => cases ha
    | object a => exact h a

@[simp] theorem exists_hasSort_integer : (∃ a : Value Object, a.HasSort .integer ∧ P a) ↔
    ∃ n, P (.integer n) := by
  constructor
  · rintro ⟨a, ha, h⟩
    cases a with
    | integer n => exact ⟨n, h⟩
    | object a => cases ha
  · exact fun ⟨n, h⟩ => ⟨.integer n, rfl, h⟩

end

namespace Formula

variable {M : Interpretation Object} {σ : Text → Value Object} {f g : Formula} {fs : List Formula}

/-- An atom is true of the values of its terms. -/
@[simp] theorem holds_atom {predicate : Text} {args : List Term} :
    (atom predicate args).Holds M σ ↔ M.predicate predicate (Term.values M σ args) := Iff.rfl

@[simp] theorem holds_equation {left right : Term} :
    (equation true left right).Holds M σ ↔ left.value M σ = right.value M σ := Iff.rfl

@[simp] theorem holds_inequation {left right : Term} :
    (equation false left right).Holds M σ ↔ left.value M σ ≠ right.value M σ := Iff.rfl

@[simp] theorem holds_not : (Formula.not f).Holds M σ ↔ ¬ f.Holds M σ := Iff.rfl

@[simp] theorem holds_group : (group f).Holds M σ ↔ f.Holds M σ := Iff.rfl

/-- Quantifiers range over the values of their sorts. -/
@[simp] theorem holds_quantified {q : Quantifier} {params : List (Text × Domain)} :
    (quantified q params f).Holds M σ ↔ Quantifies q params (f.Holds M) σ := Iff.rfl

theorem truths_eq_map : truths M fs σ = fs.map (·.Holds M σ) :=
  eq_map_of_cons (g := (truths M · σ)) rfl (fun _ _ => rfl) fs

@[simp] theorem holds_and : (chain .and fs).Holds M σ ↔ ∀ f ∈ fs, f.Holds M σ := by
  rw [Holds, truths_eq_map, Connective.Holds, List.forall_mem_map]

@[simp] theorem holds_or : (chain .or fs).Holds M σ ↔ ∃ f ∈ fs, f.Holds M σ := by
  simp only [Holds, truths_eq_map, Connective.Holds, List.mem_map]
  constructor
  · rintro ⟨_, ⟨f, hf, rfl⟩, h⟩
    exact ⟨f, hf, h⟩
  · rintro ⟨f, hf, h⟩
    exact ⟨_, ⟨f, hf, rfl⟩, h⟩

@[simp] theorem holds_implies : (chain .implies [f, g]).Holds M σ ↔ (f.Holds M σ → g.Holds M σ) :=
  Iff.rfl

@[simp] theorem holds_iff : (chain .iff [f, g]).Holds M σ ↔ (f.Holds M σ ↔ g.Holds M σ) := by
  simp [Holds, truths_eq_map, Connective.Holds]

end Formula

end LogicProgram.Tff
