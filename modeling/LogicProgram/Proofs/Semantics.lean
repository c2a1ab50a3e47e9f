import LogicProgram.Formula.Variables
import LogicProgram.Registry
import Mathlib.Data.List.Forall2
import Mathlib.Logic.Function.Basic
import Mathlib.Tactic.Common

/-!
# Truth of formulas

An interpretation has objects of which the integers are some. Program variables
range over all objects and integer variables over the integers. Nothing is asked
of the functions, operators and predicates beyond that: what a statement needs,
such as arithmetic operators that give integers on integers, it asks for itself.
A chain of equivalences says that all neighbours agree; a chain of a single
formula says that formula, as its written form does.
-/

namespace LogicProgram

open List

universe u

variable {f : Formula} {w : Variable} {fs : List Formula} {vs : List Variable}

/-- What the symbols of formulas stand for. -/
structure Interpretation where
  /-- What program variables range over. -/
  Object : Type u
  /-- The object that an integer is. -/
  ofInt : Int → Object
  /-- The object of a truth value. -/
  ofBool : Bool → Object
  /-- The object of a string. -/
  ofText : Text → Object
  infimum : Object
  supremum : Object
  /-- The value of a constant or function, told apart by the number of arguments. -/
  function : Text → List Object → Object
  /-- The value of an operation on two objects. -/
  binary : Term.Operator → Object → Object → Object
  /-- The value of an operation on one object. -/
  unary : Term.UnaryOperator → Object → Object
  /-- The value of an interval, which has no place in a finished formula. -/
  interval : Object → Object → Object
  /-- The order of objects. -/
  lessOrEqual : Object → Object → Prop
  /-- The tuples of a predicate, told apart by the number of arguments. -/
  predicate : Text → List Object → Prop

/-- The objects that variables stand for. -/
abbrev Valuation (I : Interpretation.{u}) := Variable → I.Object

namespace Interpretation

/-- An object that is an integer. -/
def IsInteger (I : Interpretation.{u}) (a : I.Object) : Prop := ∃ n : Int, a = I.ofInt n

/-- The objects that a variable ranges over. -/
def Admits (I : Interpretation.{u}) (r : Registry) (v : Variable) (a : I.Object) : Prop :=
  r.variableDomain v = some .integer → I.IsInteger a

/-- Whether two objects are in a relation; the strict orders exclude equality. -/
def Compares (I : Interpretation.{u}) : Comparison → I.Object → I.Object → Prop
  | .equal, a, b => a = b
  | .notEqual, a, b => a ≠ b
  | .lessOrEqual, a, b => I.lessOrEqual a b
  | .less, a, b => I.lessOrEqual a b ∧ a ≠ b
  | .greaterOrEqual, a, b => I.lessOrEqual b a
  | .greater, a, b => I.lessOrEqual b a ∧ a ≠ b

/-- Constants that are declared as integers denote integers, and arithmetic
operators give integers on integers. -/
structure Respects (I : Interpretation.{u}) (r : Registry) : Prop where
  /-- Constants declared as integers. -/
  constant : ∀ name, r.isIntegerFunction ⟨name, 0⟩ = true → I.IsInteger (I.function name [])
  /-- Operations on two integers. -/
  binary : ∀ op a b, I.IsInteger a → I.IsInteger b → I.IsInteger (I.binary op a b)
  /-- Operations on one integer. -/
  unary : ∀ op a, I.IsInteger a → I.IsInteger (I.unary op a)

end Interpretation

/-- Every variable stands for an object that it ranges over. -/
def SortRespecting (r : Registry) {I : Interpretation.{u}} (σ : Valuation I) : Prop :=
  ∀ v, I.Admits r v (σ v)

namespace Term

mutual

/-- The object that a term stands for. -/
def value (I : Interpretation.{u}) (σ : Valuation I) : Term → I.Object
  | .integer n => I.ofInt n
  | .boolean b => I.ofBool b
  | .string s => I.ofText s
  | .infimum => I.infimum
  | .supremum => I.supremum
  | .variable v => σ v
  | .function name args => I.function name (values I σ args)
  | .binary op left right => I.binary op (left.value I σ) (right.value I σ)
  | .unary op arg => I.unary op (arg.value I σ)
  | .interval lower upper => I.interval (lower.value I σ) (upper.value I σ)

/-- The objects that several terms stand for. -/
def values (I : Interpretation.{u}) (σ : Valuation I) : List Term → List I.Object
  | [] => []
  | t :: r => t.value I σ :: values I σ r

end

end Term

/-- The truth value that a connective makes of others. -/
def Connective.Holds : Connective → List Prop → Prop
  | .and, ps => ∀ p ∈ ps, p
  | .or, ps => ∃ p ∈ ps, p
  | .iff, [] => True
  | .iff, [p] => p
  | .iff, ps => ps.IsChain Iff

/-- Whether something holds for some or for all values of variables, one after
the other, among those that they range over. -/
def Quantifier.Holds {α : Type u} (q : Quantifier) (range : Variable → α → Prop) :
    List Variable → ((Variable → α) → Prop) → (Variable → α) → Prop
  | [], P, σ => P σ
  | v :: vs, P, σ =>
    match q with
    | .existential => ∃ a, range v a ∧ q.Holds range vs P (Function.update σ v a)
    | .universal => ∀ a, range v a → q.Holds range vs P (Function.update σ v a)

namespace Formula

mutual

/-- Whether a formula is true. -/
def Holds (r : Registry) (I : Interpretation.{u}) : Formula → Valuation I → Prop
  | .boolean b, _ => b = true
  | .compare op left right, σ => I.Compares op (left.value I σ) (right.value I σ)
  | .atom name args, σ => I.predicate name (Term.values I σ args)
  | .not arg, σ => ¬ arg.Holds r I σ
  | .implies antecedent consequent, σ => antecedent.Holds r I σ → consequent.Holds r I σ
  | .join connective args, σ => connective.Holds (truths r I args σ)
  | .quantified quantifier params body, σ =>
    quantifier.Holds (I.Admits r) params (body.Holds r I) σ

/-- The truth values of several formulas. -/
def truths (r : Registry) (I : Interpretation.{u}) : List Formula → Valuation I → List Prop
  | [], _ => []
  | f :: rest, σ => f.Holds r I σ :: truths r I rest σ

end

end Formula

namespace Interpretation

/-- The interpretation whose only objects are the integers, for any predicates. -/
def integers (predicate : Text → List Int → Prop) : Interpretation where
  Object := Int
  ofInt n := n
  ofBool b := b.toInt
  ofText _ := 0
  infimum := 0
  supremum := 0
  function _ _ := 0
  binary
    | .add, a, b => a + b
    | .subtract, a, b => a - b
    | .multiply, a, b => a * b
    | .divide, a, b => a / b
    | .modulo, a, b => a % b
    | .power, a, b => Int.pow a b.toNat
  unary
    | .negative, a => -a
    | .absolute, a => a.natAbs
  interval a _ := a
  lessOrEqual a b := a ≤ b
  predicate := predicate

/-- Among the integers everything is an integer. -/
theorem Respects.integers (predicate : Text → List Int → Prop) (r : Registry) :
    (Interpretation.integers predicate).Respects r :=
  ⟨fun _ _ => ⟨_, rfl⟩, fun _ _ _ _ _ => ⟨_, rfl⟩, fun _ _ _ => ⟨_, rfl⟩⟩

end Interpretation

/-- Induction over terms, with the statement for all arguments. -/
@[elab_as_elim, induction_eliminator]
theorem Term.inductionOn {P : Term → Prop} (integer : ∀ n, P (.integer n))
    (boolean : ∀ b, P (.boolean b)) (string : ∀ s, P (.string s)) (infimum : P .infimum)
    (supremum : P .supremum) (var : ∀ v, P (.variable v))
    (function : ∀ name args, (∀ t ∈ args, P t) → P (.function name args))
    (binary : ∀ op left right, P left → P right → P (.binary op left right))
    (unary : ∀ op arg, P arg → P (.unary op arg))
    (interval : ∀ lower upper, P lower → P upper → P (.interval lower upper)) (t : Term) : P t :=
  @Term.rec P (fun ts => ∀ t ∈ ts, P t) integer boolean string infimum supremum var function
    binary unary interval (by simp) (fun _ _ ht hts => forall_mem_cons.mpr ⟨ht, hts⟩) t

/-- Induction over formulas, with the statement for all that is joined. -/
@[elab_as_elim, induction_eliminator]
theorem Formula.inductionOn {P : Formula → Prop} (boolean : ∀ b, P (.boolean b))
    (compare : ∀ op left right, P (.compare op left right))
    (atom : ∀ name args, P (.atom name args)) (not : ∀ arg, P arg → P (.not arg))
    (implies : ∀ a c, P a → P c → P (.implies a c))
    (join : ∀ connective args, (∀ f ∈ args, P f) → P (.join connective args))
    (quantified : ∀ q params body, P body → P (.quantified q params body)) (f : Formula) : P f :=
  @Formula.rec P (fun fs => ∀ f ∈ fs, P f) boolean compare atom not implies join quantified
    (by simp) (fun _ _ hf hfs => forall_mem_cons.mpr ⟨hf, hfs⟩) f

/-- The values of several terms are the values of each. -/
theorem Term.values_eq_map (I : Interpretation.{u}) (σ : Valuation I) (ts : List Term) :
    Term.values I σ ts = ts.map (·.value I σ) := eq_map_of_cons rfl (fun _ _ => rfl) ts

/-- The value of a function term is made from the values of its arguments. -/
theorem Term.value_function (I : Interpretation.{u}) (σ : Valuation I) (name : Text)
    (args : List Term) :
    (Term.function name args).value I σ = I.function name (args.map (·.value I σ)) :=
  congrArg (I.function name) (values_eq_map I σ args)

/-- The truth values of several formulas are those of each. -/
theorem Formula.truths_eq_map (r : Registry) (I : Interpretation.{u}) (fs : List Formula)
    (σ : Valuation I) : Formula.truths r I fs σ = fs.map (·.Holds r I σ) :=
  eq_map_of_cons (g := (truths r I · σ)) rfl (fun _ _ => rfl) fs

namespace Formula

variable {r : Registry} {I : Interpretation.{u}} {σ : Valuation I}

/-- A comparison relates the values of its terms. -/
@[simp] theorem holds_compare {op : Comparison} {left right : Term} :
    (compare op left right).Holds r I σ ↔ I.Compares op (left.value I σ) (right.value I σ) :=
  Iff.rfl

/-- An atom speaks of the objects that its terms stand for. -/
theorem holds_atom {name : Text} {args : List Term} :
    (atom name args).Holds r I σ ↔ I.predicate name (args.map (·.value I σ)) := by
  rw [← Term.values_eq_map]
  exact Iff.rfl

/-- A negation says that its argument does not hold. -/
theorem holds_not : (Formula.not f).Holds r I σ ↔ ¬ f.Holds r I σ := Iff.rfl

/-- A quantified formula asks for values of its variables in their domains. -/
theorem holds_quantified {q : Quantifier} {params : List Variable} {body : Formula} :
    (quantified q params body).Holds r I σ ↔ q.Holds (I.Admits r) params (body.Holds r I) σ :=
  Iff.rfl

/-- A connective makes a truth value of those of its arguments. -/
theorem holds_join {connective : Connective} :
    (join connective fs).Holds r I σ ↔ connective.Holds (fs.map (·.Holds r I σ)) := by
  rw [← truths_eq_map]
  exact Iff.rfl

/-- A conjunction says that all its members hold. -/
@[simp] theorem holds_and : (Formula.and fs).Holds r I σ ↔ ∀ f ∈ fs, f.Holds r I σ := by
  rw [holds_join, Connective.Holds, forall_mem_map]

/-- A disjunction says that some member holds. -/
@[simp] theorem holds_or : (Formula.or fs).Holds r I σ ↔ ∃ f ∈ fs, f.Holds r I σ := by
  simp only [holds_join, Connective.Holds, mem_map]
  constructor
  · rintro ⟨_, ⟨f, hf, rfl⟩, h⟩
    exact ⟨f, hf, h⟩
  · rintro ⟨f, hf, h⟩
    exact ⟨_, ⟨f, hf, rfl⟩, h⟩

/-- An equivalence of two formulas says that they agree. -/
@[simp] theorem holds_iff {g : Formula} :
    (Formula.iff [f, g]).Holds r I σ ↔ (f.Holds r I σ ↔ g.Holds r I σ) := by
  simp [holds_join, Connective.Holds]

/-- Two joins of the same connective agree if their members do, one by one. -/
theorem holds_join_congr {J : Interpretation.{u}} {r' : Registry} {τ : Valuation J}
    {connective : Connective} {gs : List Formula}
    (h : Forall₂ (fun f g => f.Holds r I σ ↔ g.Holds r' J τ) fs gs) :
    (Formula.join connective fs).Holds r I σ ↔ (Formula.join connective gs).Holds r' J τ := by
  have ht : fs.map (·.Holds r I σ) = gs.map (·.Holds r' J τ) := by
    induction h with
    | nil => rfl
    | cons hfg _ ih => rw [map_cons, map_cons, ih, propext hfg]
  rw [holds_join, holds_join, ht]

/-- A formula closed by a quantifier, also by one of no variables. -/
@[simp] theorem holds_close {q : Quantifier} {params : List Variable} :
    (f.close q params).Holds r I σ ↔ q.Holds (I.Admits r) params (f.Holds r I) σ := by
  cases params with
  | nil => rfl
  | cons v vs => rfl

end Formula

namespace Quantifier

variable {α : Type u} {q : Quantifier} {range range' : Variable → α → Prop}

/-- One variable more on both sides. -/
theorem holds_cons_congr {P Q : (Variable → α) → Prop}
    {v : Variable} {ws : List Variable} {σ τ : Variable → α}
    (hrange : ∀ a, range v a ↔ range' w a) (hnext : ∀ a, range v a →
      (q.Holds range vs P (Function.update σ v a) ↔ q.Holds range' ws Q (Function.update τ w a))) :
    q.Holds range (v :: vs) P σ ↔ q.Holds range' (w :: ws) Q τ := by
  cases q with
  | existential =>
    refine exists_congr fun a => ?_
    rw [← hrange a]
    exact and_congr_right (hnext a)
  | universal =>
    refine forall_congr' fun a => ?_
    rw [← hrange a]
    exact imp_congr_right (hnext a)

/-- Quantified statements agree if they agree on related valuations. -/
theorem holds_of_related_same {R : List Variable → (Variable → α) → (Variable → α) → Prop}
    {P Q : (Variable → α) → Prop} (hrange : ∀ v ∈ vs, ∀ a, range v a ↔ range' v a)
    (hstep : ∀ v ∈ vs, ∀ rest σ τ a, range v a → R (v :: rest) σ τ →
      R rest (Function.update σ v a) (Function.update τ v a))
    (hPQ : ∀ σ τ, R [] σ τ → (P σ ↔ Q τ)) {σ τ : Variable → α} (hR : R vs σ τ) :
    q.Holds range vs P σ ↔ q.Holds range' vs Q τ := by
  induction vs generalizing σ τ with
  | nil => exact hPQ σ τ hR
  | cons v vs ih =>
    rw [forall_mem_cons] at hrange hstep
    exact holds_cons_congr hrange.1 fun a ha => ih hrange.2 hstep.2 (hstep.1 vs σ τ a ha hR)

end Quantifier

/-- The valuation in which variables stand for the objects of a list. -/
def assign {α : Type u} (σ : Variable → α) : List Variable → List α → Variable → α
  | v :: vs, d :: ds => assign (Function.update σ v d) vs ds
  | _, _ => σ

section Tuples

variable {α : Type u} {range : Variable → α → Prop} {P : (Variable → α) → Prop}
  {σ : Variable → α} {vs : List Variable} {ds : List α}

theorem assign_of_not_mem (hw : w ∉ vs) : assign σ vs ds w = σ w := by
  induction vs generalizing σ ds with
  | nil => rfl
  | cons v vs ih =>
    rw [mem_cons, not_or] at hw
    cases ds with
    | nil => rfl
    | cons d ds =>
      rw [assign, ih hw.2, Function.update_of_ne hw.1]

/-- Distinct variables stand for the objects they were assigned, in order. -/
theorem map_assign (hvs : vs.Nodup) (hlen : ds.length = vs.length) :
    vs.map (assign σ vs ds) = ds := by
  induction vs generalizing σ ds with
  | nil => rw [length_eq_zero_iff.mp hlen, map_nil]
  | cons v vs ih =>
    obtain ⟨hv, hvs⟩ := nodup_cons.mp hvs
    cases ds with
    | nil => cases hlen
    | cons d ds =>
      rw [assign, map_cons, ih hvs (Nat.succ.inj hlen), assign_of_not_mem hv,
        Function.update_self]

/-- The order of giving values to different variables does not matter. -/
theorem update_assign (hw : w ∉ vs) (a : α) :
    Function.update (assign σ vs ds) w a = assign (Function.update σ w a) vs ds := by
  induction vs generalizing σ ds with
  | nil => rfl
  | cons v vs ih =>
    rw [mem_cons, not_or] at hw
    cases ds with
    | nil => rfl
    | cons d ds => rw [assign, assign, ih hw.2, Function.update_comm hw.1]

/-- An existential quantifier asks for one tuple of values. -/
theorem Quantifier.existential_holds_iff : Quantifier.existential.Holds range vs P σ ↔
      ∃ ds, Forall₂ range vs ds ∧ P (assign σ vs ds) := by
  induction vs generalizing σ with
  | nil => simp [Quantifier.Holds, assign]
  | cons v vs ih =>
    simp only [Quantifier.Holds, ih, forall₂_cons_left_iff]
    constructor
    · rintro ⟨a, ha, ds, hds, h⟩
      exact ⟨a :: ds, ⟨a, ds, ha, hds, rfl⟩, h⟩
    · rintro ⟨_, ⟨a, ds, ha, hds, rfl⟩, h⟩
      exact ⟨a, ha, ds, hds, h⟩

/-- A universal quantifier speaks of all tuples of values. -/
theorem Quantifier.universal_holds_iff : Quantifier.universal.Holds range vs P σ ↔
      ∀ ds, Forall₂ range vs ds → P (assign σ vs ds) := by
  induction vs generalizing σ with
  | nil => simp [Quantifier.Holds, assign]
  | cons v vs ih =>
    simp only [Quantifier.Holds, ih, forall₂_cons_left_iff]
    constructor
    · rintro h _ ⟨a, ds, ha, hds, rfl⟩
      exact h a ha ds hds
    · intro h a ha ds hds
      exact h (a :: ds) ⟨a, ds, ha, hds, rfl⟩

/-- Variables over all objects can stand for any tuple of their length. -/
theorem forall₂_iff_length_eq (h : ∀ v ∈ vs, ∀ a, range v a) :
    Forall₂ range vs ds ↔ ds.length = vs.length := by
  constructor
  · intro hds
    exact hds.length_eq.symm
  · intro hlen
    refine forall₂_iff_get.mpr ⟨hlen.symm, fun i hi hj => ?_⟩
    exact h _ (get_mem vs ⟨i, hi⟩) _

end Tuples

/-- The atom of a predicate speaks of the values of its variables. -/
@[simp] theorem Formula.holds_atomOf {r : Registry} {I : Interpretation.{u}} {σ : Valuation I}
    {p : Symbol} : (Formula.atomOf p vs).Holds r I σ ↔ I.predicate p.name (vs.map σ) := by
  rw [Formula.atomOf, Formula.holds_atom, map_map]
  rfl

namespace Interpretation

variable {I : Interpretation.{u}} {r : Registry} {v : Variable}

/-- A program variable ranges over all objects. -/
theorem admits_of_program (h : r.variableDomain v = some .program) (a : I.Object) :
    I.Admits r v a := by
  intro hi
  rw [h] at hi
  cases hi

/-- An integer variable ranges over the integers. -/
theorem admits_iff_of_integer (h : r.variableDomain v = some .integer) {a : I.Object} :
    I.Admits r v a ↔ ∃ n : Int, a = I.ofInt n := by
  simp [Admits, h, IsInteger]

/-- The first of several existential variables is an integer. -/
theorem exists_integer (h : r.variableDomain v = some .integer)
    {P : Valuation I → Prop} {σ : Valuation I} :
    Quantifier.existential.Holds (I.Admits r) (v :: vs) P σ ↔
      ∃ n : Int, Quantifier.existential.Holds (I.Admits r) vs P
        (Function.update σ v (I.ofInt n)) := by
  simp only [Quantifier.Holds, admits_iff_of_integer h]
  constructor
  · rintro ⟨_, ⟨n, rfl⟩, h⟩
    exact ⟨n, h⟩
  · rintro ⟨n, h⟩
    exact ⟨_, ⟨n, rfl⟩, h⟩

/-- Sums, differences, products, negation and the order are those of the
integers, and different integers are different objects. -/
structure Standard (I : Interpretation.{u}) : Prop where
  /-- Integers are told apart. -/
  injective : Function.Injective I.ofInt
  add : ∀ m n, I.binary .add (I.ofInt m) (I.ofInt n) = I.ofInt (m + n)
  subtract : ∀ m n, I.binary .subtract (I.ofInt m) (I.ofInt n) = I.ofInt (m - n)
  multiply : ∀ m n, I.binary .multiply (I.ofInt m) (I.ofInt n) = I.ofInt (m * n)
  negative : ∀ n, I.unary .negative (I.ofInt n) = I.ofInt (-n)
  /-- The order. -/
  lessOrEqual : ∀ m n, I.lessOrEqual (I.ofInt m) (I.ofInt n) ↔ m ≤ n

theorem Standard.integers (predicate : Text → List Int → Prop) :
    (Interpretation.integers predicate).Standard :=
  ⟨fun _ _ h => h, fun _ _ => rfl, fun _ _ => rfl, fun _ _ => rfl, fun _ => rfl, fun _ _ => Iff.rfl⟩

end Interpretation

end LogicProgram
