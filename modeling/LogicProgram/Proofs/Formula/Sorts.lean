import LogicProgram.Proofs.Formula.Rewriting

/-!
# Sorts

A term is sorted if its variables have domains, it applies no functions, and its
operators are applied to integers alone. A formula is sorted if its terms are and the
variables that it binds have domains.
-/

namespace LogicProgram

open List

variable {q : Quantifier} {params : List Variable}

namespace Term

mutual

/-- The parts of a term, the term itself among them. -/
def subterms : Term → List Term
  | .integer n => [.integer n]
  | .boolean b => [.boolean b]
  | .string s => [.string s]
  | .infimum => [.infimum]
  | .supremum => [.supremum]
  | .variable v => [.variable v]
  | .function name args => .function name args :: subtermsOfAll args
  | .binary op left right => .binary op left right :: (left.subterms ++ right.subterms)
  | .unary op arg => .unary op arg :: arg.subterms
  | .interval lower upper => .interval lower upper :: (lower.subterms ++ upper.subterms)

/-- The parts of several terms. -/
def subtermsOfAll : List Term → List Term
  | [] => []
  | t :: rest => t.subterms ++ subtermsOfAll rest

end

theorem self_mem_subterms (t : Term) : t ∈ t.subterms := by
  cases t <;> simp [subterms]

mutual

/-- The term with a term in the place of each variable. -/
def subst (θ : Variable → Term) : Term → Term
  | .variable v => θ v
  | .function name args => .function name (substInAll θ args)
  | .binary op left right => .binary op (left.subst θ) (right.subst θ)
  | .unary op arg => .unary op (arg.subst θ)
  | .interval lower upper => .interval (lower.subst θ) (upper.subst θ)
  | .integer n => .integer n
  | .boolean b => .boolean b
  | .string s => .string s
  | .infimum => .infimum
  | .supremum => .supremum

/-- Several terms with a term in the place of each variable. -/
def substInAll (θ : Variable → Term) : List Term → List Term
  | [] => []
  | t :: rest => t.subst θ :: substInAll θ rest

end

theorem substInAll_eq_map (θ : Variable → Term) (ts : List Term) :
    substInAll θ ts = ts.map (·.subst θ) := eq_map_of_cons rfl (fun _ _ => rfl) ts

theorem subst_function (θ : Variable → Term) (name : Text) (args : List Term) :
    (function name args).subst θ = function name (args.map (·.subst θ)) :=
  congrArg (function name) (substInAll_eq_map θ args)

/-- Replacing one variable leaves the others in place. -/
theorem replace_eq_subst (v : Variable) (new t : Term) :
    replace v new t = t.subst fun w => if w = v then new else .variable w := by
  induction t with
  | function name args ih =>
    rw [replace_function, subst_function]
    exact congrArg (function name) (map_congr_left ih)
  | binary op left right ihl ihr => exact congrArg₂ (binary op) ihl ihr
  | unary op arg ih => exact congrArg (unary op) ih
  | interval lower upper ihl ihu => exact congrArg₂ interval ihl ihu
  | _ => rfl

/-- Variables have domains, functions have no arguments, and operators are applied to
integers. Truth values and intervals have no sort. -/
def Sorted (r : Registry) : Term → Prop
  | .integer _ | .string _ | .infimum | .supremum => True
  | .boolean _ | .interval _ _ => False
  | .variable v => (r.variableDomain v).isSome
  | .function _ args => args = []
  | .binary op left right => op ∈ [Operator.add, .subtract, .multiply] ∧
      (left.Sorted r ∧ r.isArithmetic left = .ok true) ∧
      (right.Sorted r ∧ r.isArithmetic right = .ok true)
  | .unary op arg => op = .negative ∧ arg.Sorted r ∧ r.isArithmetic arg = .ok true

/-- Parts of sorted terms are sorted. -/
theorem Sorted.of_mem_subterms {r : Registry} {s t : Term} (ht : t.Sorted r)
    (hs : s ∈ t.subterms) : s.Sorted r := by
  induction t with
  | function name args ih =>
    have hargs : args = [] := ht
    subst hargs
    rw [mem_singleton.mp hs]
    exact ht
  | binary op left right ihl ihr =>
    simp only [subterms, mem_cons, mem_append] at hs
    rcases hs with rfl | hs | hs
    · exact ht
    · exact ihl ht.2.1.1 hs
    · exact ihr ht.2.2.1 hs
  | unary op arg ih =>
    rcases mem_cons.mp hs with rfl | hs
    · exact ht
    · exact ih ht.2.1 hs
  | interval lower upper ihl ihu => exact ht.elim
  | _ => exact mem_singleton.mp hs ▸ ht

end Term

namespace Registry

variable {r : Registry}

theorem isArithmetic_variable_iff {v : Variable} :
    r.isArithmetic (.variable v) = .ok true ↔ r.variableDomain v = some .integer := by
  rw [isArithmetic]
  rcases r.variableDomain v with _ | _ | _ <;> simp

theorem isArithmetic_binary {op : Term.Operator} {left right : Term}
    (hleft : r.isArithmetic left = .ok true) (hright : r.isArithmetic right = .ok true) :
    r.isArithmetic (.binary op left right) = .ok true := by
  rw [isArithmetic, hleft]
  exact hright

/-- Sorted terms in the places of variables of their sorts keep sorts. -/
theorem sorted_subst {θ : Variable → Term} {t : Term}
    (hsorted : ∀ v, (r.variableDomain v).isSome → (θ v).Sorted r)
    (hinteger : ∀ v, r.variableDomain v = some .integer → r.isArithmetic (θ v) = .ok true)
    (ht : t.Sorted r) : (t.subst θ).Sorted r ∧
      (r.isArithmetic t = .ok true → r.isArithmetic (t.subst θ) = .ok true) := by
  induction t with
  | integer n => exact ⟨trivial, fun _ => rfl⟩
  | string s | infimum | supremum => exact ⟨trivial, id⟩
  | boolean b => exact ht.elim
  | var v => exact ⟨hsorted v ht, fun h => hinteger v (isArithmetic_variable_iff.mp h)⟩
  | function name args ih =>
    obtain rfl : args = [] := ht
    exact ⟨rfl, id⟩
  | binary op left right ihl ihr =>
    obtain ⟨hop, ⟨hl, hlarith⟩, hr, hrarith⟩ := ht
    have hleft := (ihl hl).2 hlarith
    have hright := (ihr hr).2 hrarith
    exact ⟨⟨hop, ⟨(ihl hl).1, hleft⟩, (ihr hr).1, hright⟩, fun _ => isArithmetic_binary hleft hright⟩
  | unary op arg ih =>
    obtain ⟨hop, harg, harith⟩ := ht
    exact ⟨⟨hop, (ih harg).1, (ih harg).2 harith⟩, fun _ => (ih harg).2 harith⟩
  | interval lower upper ihl ihu => exact ht.elim

/-- A variable with a domain is declared. -/
theorem lt_size_of_variableDomain {v : Variable} {d : Domain} (h : r.variableDomain v = some d) :
    v < r.variableTable.size := by
  by_contra hge
  rw [variableDomain, variableDeclaration, Array.getElem?_eq_none (Nat.le_of_not_lt hge)] at h
  simp at h

end Registry

namespace Formula

mutual

/-- The terms that a formula compares or applies a predicate to, from left to right. -/
def terms : Formula → List Term
  | .boolean _ => []
  | .compare _ left right => [left, right]
  | .atom _ args => args
  | .not arg => arg.terms
  | .implies antecedent consequent => antecedent.terms ++ consequent.terms
  | .join _ args => termsOfAll args
  | .quantified _ _ body => body.terms

/-- The terms of several formulas. -/
def termsOfAll : List Formula → List Term
  | [] => []
  | f :: rest => f.terms ++ termsOfAll rest

end

theorem termsOfAll_eq_flatMap (fs : List Formula) : termsOfAll fs = fs.flatMap (·.terms) :=
  eq_flatMap_of_append rfl (fun _ _ => rfl) fs

/-- The parts of the terms of a formula. -/
def subterms (f : Formula) : List Term := f.terms.flatMap (·.subterms)

section Parts

mutual

/-- The parts of a formula, the formula itself among them. -/
def subformulas : Formula → List Formula
  | .boolean b => [.boolean b]
  | .compare op left right => [.compare op left right]
  | .atom name args => [.atom name args]
  | .not arg => .not arg :: arg.subformulas
  | .implies antecedent consequent =>
    .implies antecedent consequent :: (antecedent.subformulas ++ consequent.subformulas)
  | .join connective args => .join connective args :: subformulasOfAll args
  | .quantified quantifier params body =>
    .quantified quantifier params body :: body.subformulas

/-- The parts of several formulas. -/
def subformulasOfAll : List Formula → List Formula
  | [] => []
  | f :: rest => f.subformulas ++ subformulasOfAll rest

end

theorem subformulasOfAll_eq_flatMap (fs : List Formula) :
    subformulasOfAll fs = fs.flatMap (·.subformulas) := eq_flatMap_of_append rfl (fun _ _ => rfl) fs

variable {P : Formula → Prop}

theorem forall_subformulas_not {arg : Formula} :
    (∀ g ∈ (Formula.not arg).subformulas, P g) ↔ P (.not arg) ∧ ∀ g ∈ arg.subformulas, P g := by
  rw [subformulas, forall_mem_cons]

theorem forall_subformulas_implies {antecedent consequent : Formula} :
    (∀ g ∈ (implies antecedent consequent).subformulas, P g) ↔ P (implies antecedent consequent) ∧
        (∀ g ∈ antecedent.subformulas, P g) ∧ ∀ g ∈ consequent.subformulas, P g := by
  rw [subformulas, forall_mem_cons, forall_mem_append]

theorem forall_subformulas_join {connective : Connective} {args : List Formula} :
    (∀ g ∈ (join connective args).subformulas, P g) ↔
      P (join connective args) ∧ ∀ f ∈ args, ∀ g ∈ f.subformulas, P g := by
  rw [subformulas, forall_mem_cons, subformulasOfAll_eq_flatMap]
  simp only [mem_flatMap, forall_exists_index, and_imp]
  exact and_congr_right' ⟨fun h f hf g hg => h g f hf hg, fun h g f hf hg => h f hf g hg⟩

theorem forall_subformulas_quantified {body : Formula} :
    (∀ g ∈ (quantified q params body).subformulas, P g) ↔
      P (quantified q params body) ∧ ∀ g ∈ body.subformulas, P g := by
  rw [subformulas, forall_mem_cons]

theorem self_mem_subformulas (f : Formula) : f ∈ f.subformulas := by
  cases f <;> simp [subformulas]

/-- What goes from a formula to its immediate parts goes to all its parts. -/
theorem forall_subformulas_of_hereditary {f : Formula} (hnot : ∀ {arg}, P (.not arg) → P arg)
    (himplies : ∀ {a c}, P (.implies a c) → P a ∧ P c)
    (hjoin : ∀ {connective fs}, P (.join connective fs) → ∀ g ∈ fs, P g)
    (hquantified : ∀ {q params body}, P (.quantified q params body) → P body) (hf : P f) :
    ∀ g ∈ f.subformulas, P g := by
  induction f with
  | not arg ih => exact forall_subformulas_not.mpr ⟨hf, ih (hnot hf)⟩
  | implies a c iha ihc =>
    exact forall_subformulas_implies.mpr ⟨hf, iha (himplies hf).1, ihc (himplies hf).2⟩
  | join connective args ih =>
    exact forall_subformulas_join.mpr ⟨hf, fun g hg => ih g hg (hjoin hf g hg)⟩
  | quantified q params body ih =>
    exact forall_subformulas_quantified.mpr ⟨hf, ih (hquantified hf)⟩
  | _ => exact fun g hg => by rwa [mem_singleton.mp hg]

end Parts

/-- The terms of a formula are sorted, and what it binds has domains. -/
structure Sorted (r : Registry) (f : Formula) : Prop where
  terms : ∀ t ∈ f.terms, t.Sorted r
  binders : ∀ v ∈ f.binders, (r.variableDomain v).isSome

variable {r : Registry} {f : Formula} {v : Variable} {t : Term}

theorem sorted_boolean (b : Bool) : (boolean b).Sorted r :=
  ⟨nofun, nofun⟩

theorem sorted_compare {op : Comparison} {left right : Term} :
    (compare op left right).Sorted r ↔ left.Sorted r ∧ right.Sorted r :=
  ⟨fun h => ⟨h.terms left (by simp [Formula.terms]), h.terms right (by simp [Formula.terms])⟩,
    fun h => ⟨by simpa [Formula.terms] using h, nofun⟩⟩

theorem sorted_atom {name : Text} {args : List Term} :
    (atom name args).Sorted r ↔ ∀ t ∈ args, t.Sorted r :=
  ⟨fun h => h.terms, fun h => ⟨h, nofun⟩⟩

theorem sorted_not : (Formula.not f).Sorted r ↔ f.Sorted r :=
  ⟨fun h => ⟨h.terms, h.binders⟩, fun h => ⟨h.terms, h.binders⟩⟩

theorem sorted_implies {a c : Formula} : (implies a c).Sorted r ↔ a.Sorted r ∧ c.Sorted r := by
  constructor
  · intro h
    exact ⟨⟨fun t ht => h.terms t (mem_append_left _ ht),
        fun v hv => h.binders v (mem_append_left _ hv)⟩,
      ⟨fun t ht => h.terms t (mem_append_right _ ht),
        fun v hv => h.binders v (mem_append_right _ hv)⟩⟩
  · intro h
    exact ⟨fun t ht => (mem_append.mp ht).elim (h.1.terms t) (h.2.terms t),
      fun v hv => (mem_append.mp hv).elim (h.1.binders v) (h.2.binders v)⟩

theorem sorted_join {connective : Connective} {fs : List Formula} :
    (join connective fs).Sorted r ↔ ∀ f ∈ fs, f.Sorted r := by
  have hterms : (join connective fs).terms = fs.flatMap (·.terms) := termsOfAll_eq_flatMap fs
  constructor
  · intro h f hf
    refine ⟨fun t ht => h.terms t ?_, fun v hv => h.binders v ?_⟩
    · rw [hterms]
      exact mem_flatMap.mpr ⟨f, hf, ht⟩
    · rw [binders_join]
      exact mem_flatMap.mpr ⟨f, hf, hv⟩
  · intro h
    refine ⟨fun t ht => ?_, fun v hv => ?_⟩
    · rw [hterms] at ht
      obtain ⟨f, hf, ht⟩ := mem_flatMap.mp ht
      exact (h f hf).terms t ht
    · rw [binders_join] at hv
      obtain ⟨f, hf, hv⟩ := mem_flatMap.mp hv
      exact (h f hf).binders v hv

theorem Alike.sorted_iff {g : Formula} {fs gs : List Formula} (h : Alike f fs g gs) :
    f.Sorted r ↔ ∀ x ∈ fs, x.Sorted r := by
  cases h with
  | not f g => exact sorted_not.trans (by simp)
  | implies a c a' c' => exact sorted_implies.trans (by simp)
  | join connective fs gs => exact sorted_join

theorem sorted_quantified : (quantified q params f).Sorted r ↔
      (∀ v ∈ params, (r.variableDomain v).isSome) ∧ f.Sorted r := by
  constructor
  · intro h
    exact ⟨fun v hv => h.binders v (mem_append_left _ hv), h.terms,
      fun v hv => h.binders v (mem_append_right _ hv)⟩
  · intro h
    exact ⟨h.2.terms, fun v hv => (mem_append.mp hv).elim (h.1 v) (h.2.binders v)⟩

theorem sorted_close :
    (f.close q params).Sorted r ↔ (∀ v ∈ params, (r.variableDomain v).isSome) ∧ f.Sorted r := by
  cases params with
  | nil => simp [close]
  | cons v params => exact sorted_quantified

theorem sorted_atomOf {p : Symbol} :
    (atomOf p params).Sorted r ↔ ∀ v ∈ params, (r.variableDomain v).isSome := by
  rw [atomOf, sorted_atom, forall_mem_map]
  exact Iff.rfl

theorem sorted_equals_variable :
    (equals (.variable v) t).Sorted r ↔ (r.variableDomain v).isSome ∧ t.Sorted r := sorted_compare

/-- Parts of the terms of a sorted formula are sorted. -/
theorem Sorted.of_mem_subterms (hf : f.Sorted r) (ht : t ∈ f.subterms) : t.Sorted r := by
  obtain ⟨s, hs, ht⟩ := mem_flatMap.mp ht
  exact (hf.terms s hs).of_mem_subterms ht

theorem Sorted.replace_term {s : Term} (hs : s.Sorted r) (ht : t.Sorted r)
    (hv : r.variableDomain v = some .integer → r.isArithmetic t = .ok true) :
    (Term.replace v t s).Sorted r := by
  rw [Term.replace_eq_subst]
  refine (Registry.sorted_subst (fun w hw => ?_) (fun w hw => ?_) hs).1 <;> split
  · exact ht
  · exact hw
  · next heq => exact hv (heq ▸ hw)
  · exact Registry.isArithmetic_variable_iff.mpr hw

/-- A sorted term may take the place of a variable whose sort it has. -/
theorem Sorted.replace (hf : f.Sorted r) (ht : t.Sorted r)
    (hv : r.variableDomain v = some .integer → r.isArithmetic t = .ok true) :
    (f.replace v t).Sorted r := by
  induction f with
  | boolean b => exact hf
  | compare op left right =>
    have hsides := sorted_compare.mp hf
    exact sorted_compare.mpr ⟨replace_term hsides.1 ht hv, replace_term hsides.2 ht hv⟩
  | atom name args =>
    rw [replace_atom, sorted_atom, forall_mem_map]
    exact fun s hs => replace_term (hf.terms s hs) ht hv
  | not arg ih => exact sorted_not.mpr (ih (sorted_not.mp hf))
  | implies a c iha ihc =>
    have hparts := sorted_implies.mp hf
    exact sorted_implies.mpr ⟨iha hparts.1, ihc hparts.2⟩
  | join connective fs ih =>
    rw [replace_join, sorted_join, forall_mem_map]
    exact fun f hmem => ih f hmem (sorted_join.mp hf f hmem)
  | quantified q params body ih =>
    have hparts := sorted_quantified.mp hf
    simp only [Formula.replace]
    split
    · exact hf
    · exact sorted_quantified.mpr ⟨hparts.1, ih hparts.2⟩

end Formula

end LogicProgram
