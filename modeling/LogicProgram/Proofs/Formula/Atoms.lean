import LogicProgram.Formula.Atoms
import LogicProgram.Proofs.Formula.Binding

/-!
# Predicates of formulas

Which predicates a formula mentions does not depend on polarities, and its
truth depends on the predicates that it mentions alone.
-/

namespace LogicProgram

open List

universe u

variable {f : Formula} {params : List Variable}

/-- The polarity of the members of a connective that occurs under a polarity. -/
def Connective.under : Connective → Polarity → Polarity
  | .iff, _ => .both
  | .and, s | .or, s => s

namespace Formula

theorem atomsOfAllUnder_eq_flatMap (s : Polarity) (fs : List Formula) :
    atomsOfAllUnder s fs = fs.flatMap (·.atomsUnder s) :=
  eq_flatMap_of_append rfl (fun _ _ => rfl) fs

/-- The atoms of a connective are those of its members, under its polarity. -/
theorem atomsUnder_join (s : Polarity) (connective : Connective) (fs : List Formula) :
    (join connective fs).atomsUnder s = fs.flatMap (·.atomsUnder (connective.under s)) := by
  rw [← atomsOfAllUnder_eq_flatMap]
  cases connective <;> rfl

/-- The predicates of a formula are the same under every polarity. -/
theorem map_fst_atomsUnder (s s' : Polarity) (f : Formula) :
    (f.atomsUnder s).map (·.1) = (f.atomsUnder s').map (·.1) := by
  induction f generalizing s s' with
  | boolean b => rfl
  | compare op left right => rfl
  | atom name args => rfl
  | not arg ih => exact ih s.flip s'.flip
  | implies a c iha ihc =>
    simp only [atomsUnder, map_append]
    rw [iha s.flip s'.flip, ihc s s']
  | join connective args ih =>
    simp only [atomsUnder_join, map_flatMap]
    exact flatMap_congr fun f hf => ih f hf _ _
  | quantified q params body ih => exact ih s s'

/-- A formula mentions the predicates that it has atoms of. -/
theorem mentions_iff {p : Symbol} (s : Polarity) :
    f.mentions p ↔ p ∈ (f.atomsUnder s).map (·.1) := by
  rw [map_fst_atomsUnder s .onlyPositive]
  simp [mentions, atoms]

variable {p : Symbol}

attribute [local simp] mentions atoms atomsUnder

@[simp] theorem mentions_boolean {b : Bool} : (boolean b).mentions p ↔ False := by
  simp

@[simp] theorem mentions_compare {op : Comparison} {left right : Term} :
    (compare op left right).mentions p ↔ False := by
  simp

@[simp] theorem mentions_atom {name : Text} {args : List Term} :
    (atom name args).mentions p ↔ (⟨name, args.length⟩ : Symbol) = p := by
  simp

@[simp] theorem mentions_not : (not f).mentions p ↔ f.mentions p := by
  rw [mentions_iff Polarity.onlyPositive.flip (f := f), mentions_iff .onlyPositive]
  rfl

@[simp] theorem mentions_implies {g : Formula} :
    (implies f g).mentions p ↔ f.mentions p ∨ g.mentions p := by
  rw [mentions_iff Polarity.onlyPositive.flip (f := f), mentions_iff .onlyPositive (f := g),
    mentions_iff .onlyPositive, ← mem_append, ← map_append]
  rfl

@[simp] theorem mentions_join {connective : Connective} {fs : List Formula} :
    (join connective fs).mentions p ↔ ∃ f ∈ fs, f.mentions p := by
  rw [mentions_iff .onlyPositive, atomsUnder_join, map_flatMap, mem_flatMap]
  simp only [mentions_iff (connective.under .onlyPositive)]

@[simp] theorem mentions_quantified {q : Quantifier} :
    (quantified q params f).mentions p ↔ f.mentions p := Iff.rfl

@[simp] theorem mentions_close {q : Quantifier} : (f.close q params).mentions p ↔ f.mentions p := by
  cases params with
  | nil | cons v vs => exact Iff.rfl

@[simp] theorem mentions_atomOf {q : Symbol}
    (h : params.length = q.arity) : (atomOf q params).mentions p ↔ q = p := by
  simp [atomOf, h]

/-- Replacing a variable keeps the atoms, but for their arguments. -/
theorem atomsUnder_replace (v : Variable) (t : Term) (s : Polarity) (f : Formula) :
    (f.replace v t).atomsUnder s = f.atomsUnder s := by
  induction f generalizing s with
  | boolean b => rfl
  | compare op left right => rfl
  | atom name args => rw [replace_atom, atomsUnder, atomsUnder, length_map]
  | not arg ih => exact ih s.flip
  | implies a c iha ihc => exact congrArg₂ (· ++ ·) (iha s.flip) (ihc s)
  | join connective args ih =>
    rw [replace_join, atomsUnder_join, atomsUnder_join, flatMap_map]
    exact flatMap_congr fun f hf => ih f hf _
  | quantified q params body ih =>
    simp only [replace]
    split
    · rfl
    · exact ih s

theorem mentions_replace (v : Variable) (t : Term) (f : Formula) :
    (f.replace v t).mentions p ↔ f.mentions p := by
  rw [mentions_iff .onlyPositive, mentions_iff .onlyPositive, atomsUnder_replace]

end Formula

namespace Interpretation

/-- The same objects and functions with other extents of the predicates. -/
abbrev withPredicate (I : Interpretation.{u}) (P : Text → List I.Object → Prop) : Interpretation.{u} :=
  { I with predicate := P }

variable {I : Interpretation.{u}} {P Q : Text → List I.Object → Prop} {ps : List Symbol}

/-- Two choices of extents differ on some predicates only. -/
def AgreeOutside (ps : List Symbol) (P Q : Text → List I.Object → Prop) : Prop :=
  ∀ name ds, (⟨name, ds.length⟩ : Symbol) ∉ ps → (P name ds ↔ Q name ds)

theorem value_withPredicate (σ : Valuation I) (t : Term) :
    t.value (I.withPredicate P) σ = t.value I σ := by
  induction t with
  | function name args ih =>
    rw [Term.value_function, Term.value_function]
    exact congrArg (I.function name) (map_congr_left ih)
  | binary op left right ihl ihr => exact congrArg₂ (I.binary op) ihl ihr
  | unary op arg ih => exact congrArg (I.unary op) ih
  | interval lower upper ihl ihu => exact congrArg₂ I.interval ihl ihu
  | _ => rfl

/-- Truth depends on the predicates that a formula mentions alone. -/
theorem holds_withPredicate {R : Registry} (h : AgreeOutside ps P Q)
    (hf : ∀ p ∈ ps, ¬ f.mentions p) (σ : Valuation I) :
    f.Holds R (I.withPredicate P) σ ↔ f.Holds R (I.withPredicate Q) σ := by
  have hvalue : ∀ (τ : Valuation I) (t : Term),
      t.value (I.withPredicate P) τ = t.value (I.withPredicate Q) τ := fun τ t =>
    (value_withPredicate (P := P) τ t).trans (value_withPredicate (P := Q) τ t).symm
  induction f generalizing σ with
  | boolean b => exact Iff.rfl
  | compare op left right =>
    rw [Formula.holds_compare, Formula.holds_compare, hvalue, hvalue]
    cases op <;> exact Iff.rfl
  | atom name args =>
    have hargs : args.map (·.value (I.withPredicate P) σ) = args.map (·.value (I.withPredicate Q) σ) :=
      map_congr_left fun t _ => hvalue σ t
    rw [Formula.holds_atom, Formula.holds_atom, hargs]
    refine h name _ fun hmem => hf _ hmem ?_
    rw [Formula.mentions_atom, length_map]
  | not f ih => exact not_congr (ih (by simpa using hf) σ)
  | implies a c iha ihc =>
    simp only [Formula.mentions_implies, not_or] at hf
    exact imp_congr (iha (fun p hp => (hf p hp).1) σ) (ihc (fun p hp => (hf p hp).2) σ)
  | join connective fs ih =>
    refine Formula.holds_join_congr (forall₂_same.mpr fun g hg => ih g hg (fun p hp hm => ?_) σ)
    exact hf p hp (Formula.mentions_join.mpr ⟨g, hg, hm⟩)
  | quantified q vs f ih =>
    refine Quantifier.holds_of_related_same (R := fun _ σ τ => σ = τ) (fun _ _ _ => Iff.rfl)
      (fun v _ _ σ τ a _ hστ => by rw [hστ]) (fun σ τ hστ => ?_) rfl
    subst hστ
    exact ih (by simpa using hf) σ

theorem AgreeOutside.symm (h : AgreeOutside ps P Q) : AgreeOutside ps Q P :=
  fun name ds hmem => (h name ds hmem).symm

end Interpretation

end LogicProgram
