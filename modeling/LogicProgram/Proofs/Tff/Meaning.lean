import LogicProgram.Proofs.Tff.Background
import LogicProgram.Proofs.Tff.Forms

/-!
# The meaning of typed forms

An interpretation of a proof problem is also one of the formulas that the problem was
written for: integers are the objects that they are embedded as, functions and
predicates take objects, and arithmetic is done on the integers that objects are.
-/

namespace LogicProgram

open List

universe u

namespace Tff

variable {l s : Term} {d : Domain} {gs : List Formula}

variable {Object : Type u}

namespace Interpretation

/-- A value as an object. -/
def toObject (M : Interpretation Object) : Value Object → Object
  | .integer n => M.ofInt n
  | .object a => a

open Classical in
/-- The integer that an object is, if it is one. -/
noncomputable def toInt (M : Interpretation Object) (a : Object) : Int :=
  if h : ∃ n, M.ofInt n = a then h.choose else 0

/-- What a typed interpretation says of untyped formulas. Strings, truth values and intervals
have no place in proof problems. -/
@[reducible] noncomputable def untyped (M : Interpretation Object) : LogicProgram.Interpretation.{u} where
  Object := Object
  ofInt := M.ofInt
  ofBool _ := M.infimum
  ofText _ := M.infimum
  infimum := M.infimum
  supremum := M.supremum
  function name args := M.toObject (M.function name (args.map .object))
  binary op a b :=
    M.ofInt ((LogicProgram.Interpretation.integers fun _ _ => False).binary op (M.toInt a) (M.toInt b))
  unary op a := M.ofInt ((LogicProgram.Interpretation.integers fun _ _ => False).unary op (M.toInt a))
  interval a _ := a
  lessOrEqual a b := M.predicate "p__less_equal__" [.object a, .object b]
  predicate name args := M.predicate name (args.map .object)

/-- The axioms of the background theory hold. -/
def IsModel (M : Interpretation Object) : Prop := ∀ a ∈ Background.axioms, M.Satisfies a.formula

variable {M : Interpretation Object}

theorem IsModel.injective (h : M.IsModel) : Function.Injective M.ofInt := by
  have hsorts : ∀ a ∈ Background.sorts, M.Satisfies a.formula :=
    fun a ha => h a (mem_append_left _ (mem_append_left _ ha))
  exact fun m n => (satisfies_sorts_iff.mp hsorts).2.2.2 m n

theorem IsModel.order (h : M.IsModel) : ∀ a ∈ Background.order, M.Satisfies a.formula :=
  fun a ha => h a (mem_append_left _ (mem_append_right _ ha))

theorem IsModel.toInt_ofInt (h : M.IsModel) (n : Int) : M.toInt (M.ofInt n) = n := by
  have hex : ∃ m, M.ofInt m = M.ofInt n := ⟨n, rfl⟩
  rw [toInt, dif_pos hex]
  exact h.injective hex.choose_spec

/-- Arithmetic has its usual meaning. -/
theorem IsModel.standard (h : M.IsModel) : M.untyped.Standard where
  injective := h.injective
  add m n := by simp only [untyped, h.toInt_ofInt]; rfl
  subtract m n := by simp only [untyped, h.toInt_ofInt]; rfl
  multiply m n := by simp only [untyped, h.toInt_ofInt]; rfl
  negative n := by simp only [untyped, h.toInt_ofInt]; rfl
  lessOrEqual m n := (satisfies_order_iff.mp h.order).1 m n

/-- Objects are compared by the relations of the background theory. -/
theorem IsModel.objectRelation_iff (h : M.IsModel) {op : Comparison} {predicate : Text}
    (hop : objectRelation? op = some predicate) (a b : Object) :
    M.predicate predicate [.object a, .object b] ↔ M.untyped.Compares op a b := by
  obtain ⟨-, -, -, -, -, hless, hgreaterEqual, hgreater⟩ := satisfies_order_iff.mp h.order
  cases op with
  | less => cases hop; exact hless a b
  | lessOrEqual => cases hop; exact Iff.rfl
  | greater => cases hop; exact hgreater a b
  | greaterOrEqual => cases hop; exact hgreaterEqual a b
  | equal | notEqual => cases hop

/-- Integers are compared as integers. -/
theorem IsModel.integerRelation_iff (h : M.IsModel) {op : Comparison} {predicate : Text}
    (hop : integerRelation? op = some predicate) (m n : Int) :
    M.predicate predicate [.integer m, .integer n] ↔ M.untyped.Compares op (M.ofInt m) (M.ofInt n) := by
  have hle : ∀ m n, M.untyped.lessOrEqual (M.ofInt m) (M.ofInt n) ↔ m ≤ n := h.standard.lessOrEqual
  have hne : ∀ m n, M.ofInt m ≠ M.ofInt n ↔ m ≠ n := fun m n => h.injective.ne_iff
  cases op with
  | less =>
    cases hop
    rw [M.predicate_less, LogicProgram.Interpretation.Compares, hle, hne]
    omega
  | lessOrEqual =>
    cases hop
    rw [M.predicate_lesseq, LogicProgram.Interpretation.Compares, hle]
  | greater =>
    cases hop
    rw [M.predicate_greater, LogicProgram.Interpretation.Compares, hle, hne]
    omega
  | greaterOrEqual =>
    cases hop
    rw [M.predicate_greatereq, LogicProgram.Interpretation.Compares, hle]
  | equal | notEqual => cases hop

/-- The objects that a variable ranges over are the values of its sort. -/
theorem admits_untyped_iff {r : Registry} {v : Variable} (hv : r.variableDomain v = some d)
    {a : Object} : M.untyped.Admits r v a ↔ ∃ x : Value Object, x.HasSort d ∧ M.toObject x = a := by
  cases d with
  | integer =>
    refine (LogicProgram.Interpretation.admits_iff_of_integer hv).trans ⟨?_, ?_⟩
    · rintro ⟨n, rfl⟩
      exact ⟨.integer n, rfl, rfl⟩
    · rintro ⟨x, hx, rfl⟩
      cases x with
      | integer n => exact ⟨n, rfl⟩
      | object a => cases hx
  | program =>
    have hall : M.untyped.Admits r v a := LogicProgram.Interpretation.admits_of_program (I := M.untyped) hv a
    exact ⟨fun _ => ⟨.object a, rfl, rfl⟩, fun _ => hall⟩

end Interpretation

section

variable {r : Registry} {S : Signature} {N : Namer} {M : Interpretation Object} {Γ : Context}
  {σ : Valuation M.untyped} {τ : Text → Value Object} {vs : List Variable}

/-- The variables of a list have the same values in an untyped and in a typed valuation. -/
structure Agree (r : Registry) (N : Namer) (M : Interpretation Object) (Γ : Context)
    (σ : Valuation M.untyped) (τ : Text → Value Object) (vs : List Variable) : Prop where
  knows : Γ.Knows r N vs
  sorts : ∀ name d, Γ name = some d → (τ name).HasSort d
  values : ∀ v ∈ vs, ∀ name, N.names.lookup v = some name → M.toObject (τ name) = σ v

theorem Agree.mono {us : List Variable} (h : Agree r N M Γ σ τ vs) (hus : us ⊆ vs) :
    Agree r N M Γ σ τ us := ⟨h.knows.mono hus, h.sorts, fun v hv => h.values v (hus hv)⟩

/-- A value for one more variable. -/
theorem Agree.update (hN : N.WellFormed r) (h : Agree r N M Γ σ τ vs) {v : Variable} {p : Text × Domain}
    (hp : ParameterForm r N v p) {x : Value Object} (hx : x.HasSort p.2) :
    Agree r N M (Function.update Γ p.1 (some p.2)) (Function.update σ v (M.toObject x))
      (Function.update τ p.1 x) (v :: vs) where
  knows := h.knows.bind hN (.cons hp .nil)
  sorts := fun name d hname => by
    by_cases heq : name = p.1
    · rw [heq, Function.update_self] at hname ⊢
      exact Option.some.inj hname ▸ hx
    · rw [Function.update_of_ne heq] at hname ⊢
      exact h.sorts name d hname
  values := fun w hw name hname => by
    by_cases heq : w = v
    · subst heq
      rw [Option.some.inj (hname.symm.trans hp.1), Function.update_self, Function.update_self]
    · have hne : name ≠ p.1 := fun hsame => heq (hN.distinct w v name hname (hsame ▸ hp.1))
      rw [Function.update_of_ne hne, Function.update_of_ne heq]
      exact h.values w ((mem_cons.mp hw).resolve_left heq) name hname

theorem value_embedIf {u : Term} (hu : (u.value M τ).HasSort d) :
    (embedIf (d == .integer) u).value M τ = .object (M.toObject (u.value M τ)) := by
  cases hvalue : u.value M τ with
  | integer n =>
    rw [hvalue] at hu
    obtain rfl : d = .integer := hu
    show M.function "f__integer__" [u.value M τ] = _
    rw [hvalue, M.function_embed]
    rfl
  | object a =>
    rw [hvalue] at hu
    obtain rfl : d = .program := hu
    exact hvalue

theorem exists_integer_of_hasSort {x : Value Object} (h : x.HasSort .integer) : ∃ n, x = .integer n := by
  cases x with
  | integer n => exact ⟨n, rfl⟩
  | object a => cases h

theorem value_integer (M : Interpretation Object) (τ : Text → Value Object) (k : Int) :
    (integer k).value M τ = .integer k := by
  rw [integer]
  split
  · next hneg =>
    show M.function "$uminus" [.integer (k.natAbs : Int)] = _
    rw [M.function_uminus]
    congr 1
    omega
  · next hneg =>
    show Value.integer (k.natAbs : Int) = _
    congr 1
    omega

theorem values_asObjects {ts : List LogicProgram.Term} {us : List Term}
    (h : Forall₂ (TermForm r S N) ts us) (hvalue : ∀ t ∈ ts, ∀ u, TermForm r S N t u →
      (u.value M τ).HasSort (r.sortOf t) ∧ M.toObject (u.value M τ) = t.value M.untyped σ) :
    Term.values M τ (asObjects r ts us) = (ts.map (·.value M.untyped σ)).map .object := by
  induction h with
  | nil => rfl
  | @cons t u ts us htu _ ih =>
    rw [forall_mem_cons] at hvalue
    obtain ⟨hsort, heq⟩ := hvalue.1 u htu
    have hfirst := value_embedIf hsort
    rw [heq] at hfirst
    show (embedIf (r.sortOf t == .integer) u).value M τ :: Term.values M τ (asObjects r ts us) = _
    rw [hfirst, ih hvalue.2]
    rfl

/-- A term and its typed form stand for the same object. -/
theorem TermForm.value (hS : S.Proper) (hN : N.WellFormed r) (hM : M.Typed S) (hmodel : M.IsModel)
    {t : LogicProgram.Term} {u : Term} (h : TermForm r S N t u) (hvs : Agree r N M Γ σ τ t.vars) :
    (u.value M τ).HasSort (r.sortOf t) ∧ M.toObject (u.value M τ) = t.value M.untyped σ := by
  refine ⟨(h.hasSort hS hN hvs.knows).value hM hvs.sorts, ?_⟩
  induction t generalizing u with
  | integer k =>
    cases h
    rw [value_integer]
    rfl
  | infimum =>
    cases h
    exact congrArg M.toObject M.function_infimum
  | supremum =>
    cases h
    exact congrArg M.toObject M.function_supremum
  | var v =>
    cases h with
    | var hname => exact hvs.values v mem_cons_self _ hname
  | function name args ih =>
    cases h with
    | @function _ _ us hname hargs =>
      have hvalues := values_asObjects (M := M) (σ := σ) (τ := τ) hargs fun t ht u hu => by
        have hpart : Agree r N M Γ σ τ t.vars := hvs.mono fun v hv => by
          rw [LogicProgram.Term.vars_function]
          exact mem_flatMap.mpr ⟨t, ht, hv⟩
        exact ⟨(hu.hasSort hS hN hpart.knows).value hM hpart.sorts, ih t ht hu hpart⟩
      rw [LogicProgram.Term.value_function]
      show M.toObject (M.function name (Term.values M τ (asObjects r args us))) = _
      rw [hvalues]
  | unary op arg ih =>
    cases h with
    | @negative _ u hsort harg =>
      have hinteger := (harg.hasSort hS hN hvs.knows).value hM hvs.sorts
      rw [hsort] at hinteger
      obtain ⟨n, hn⟩ := exists_integer_of_hasSort hinteger
      have hvalue := ih harg hvs
      rw [hn] at hvalue
      show M.toObject (M.function "$uminus" [u.value M τ]) = M.untyped.unary .negative (arg.value M.untyped σ)
      rw [hn, M.function_uminus, ← hvalue]
      exact (hmodel.standard.negative n).symm
  | binary op left right ihl ihr =>
    cases h with
    | @binary _ name _ _ l s hname hleft hright hl hs =>
      have hvl := hvs.mono (subset_append_left left.vars right.vars)
      have hvr := hvs.mono (subset_append_right left.vars right.vars)
      have hinteger := (hl.hasSort hS hN hvl.knows).value hM hvl.sorts
      have hinteger' := (hs.hasSort hS hN hvr.knows).value hM hvr.sorts
      rw [hleft] at hinteger
      rw [hright] at hinteger'
      obtain ⟨m, hm⟩ := exists_integer_of_hasSort hinteger
      obtain ⟨n, hn⟩ := exists_integer_of_hasSort hinteger'
      have hvalue := ihl hl hvl
      have hvalue' := ihr hs hvr
      rw [hm] at hvalue
      rw [hn] at hvalue'
      show M.toObject (M.function name [l.value M τ, s.value M τ]) =
        M.untyped.binary op (left.value M.untyped σ) (right.value M.untyped σ)
      rw [hm, hn, ← hvalue, ← hvalue']
      cases op with
      | add =>
        cases hname
        rw [M.function_sum]
        exact (hmodel.standard.add m n).symm
      | subtract =>
        cases hname
        rw [M.function_difference]
        exact (hmodel.standard.subtract m n).symm
      | multiply =>
        cases hname
        rw [M.function_product]
        exact (hmodel.standard.multiply m n).symm
      | _ => cases hname
  | _ => cases h

theorem relate_objects_holds (hmodel : M.IsModel) {a b : Object} (hl : l.value M τ = .object a)
    (hs : s.value M τ = .object b) (op : Comparison) :
    (relate (objectRelation? op) op l s).Holds M τ ↔ M.untyped.Compares op a b := by
  cases hrelation : objectRelation? op with
  | some predicate =>
    show M.predicate predicate [l.value M τ, s.value M τ] ↔ _
    rw [hl, hs]
    exact hmodel.objectRelation_iff hrelation a b
  | none =>
    cases op with
    | equal =>
      show l.value M τ = s.value M τ ↔ a = b
      rw [hl, hs, Value.object.injEq]
    | notEqual =>
      show l.value M τ ≠ s.value M τ ↔ a ≠ b
      rw [hl, hs, ne_eq, Value.object.injEq]
    | _ => cases hrelation

theorem relate_integers_holds (hmodel : M.IsModel) {m n : Int} (hl : l.value M τ = .integer m)
    (hs : s.value M τ = .integer n) (op : Comparison) :
    (relate (integerRelation? op) op l s).Holds M τ ↔ M.untyped.Compares op (M.ofInt m) (M.ofInt n) := by
  cases hrelation : integerRelation? op with
  | some predicate =>
    show M.predicate predicate [l.value M τ, s.value M τ] ↔ _
    rw [hl, hs]
    exact hmodel.integerRelation_iff hrelation m n
  | none =>
    cases op with
    | equal =>
      show l.value M τ = s.value M τ ↔ M.ofInt m = M.ofInt n
      rw [hl, hs, Value.integer.injEq, hmodel.injective.eq_iff]
    | notEqual =>
      show l.value M τ ≠ s.value M τ ↔ M.ofInt m ≠ M.ofInt n
      rw [hl, hs, ne_eq, Value.integer.injEq, hmodel.injective.ne_iff]
    | _ => cases hrelation

/-- A comparison relates the objects that its terms stand for. -/
theorem comparison_holds (hmodel : M.IsModel) {d' : Domain}
    (hl : (l.value M τ).HasSort d) (hs : (s.value M τ).HasSort d') (op : Comparison) :
    (comparison op (d == .integer) (d' == .integer) l s).Holds M τ ↔
      M.untyped.Compares op (M.toObject (l.value M τ)) (M.toObject (s.value M τ)) := by
  have hl' := value_embedIf hl
  have hs' := value_embedIf hs
  cases d with
  | integer =>
    cases d' with
    | integer =>
      obtain ⟨m, hm⟩ := exists_integer_of_hasSort hl
      obtain ⟨n, hn⟩ := exists_integer_of_hasSort hs
      rw [hm, hn]
      exact relate_integers_holds hmodel hm hn op
    | program => exact relate_objects_holds hmodel hl' hs' op
  | program =>
    cases d' with
    | integer | program => exact relate_objects_holds hmodel hl' hs' op

/-- Quantifiers of typed and of untyped variables agree. -/
theorem quantifies_iff (hN : N.WellFormed r) {params : List Variable} {typed : List (Text × Domain)}
    (hparams : Forall₂ (ParameterForm r N) params typed) {q : Quantifier}
    {P : (Text → Value Object) → Prop} {Q : Valuation M.untyped → Prop}
    (hbody : ∀ Γ σ τ, Agree r N M Γ σ τ (params ++ vs) → (P τ ↔ Q σ)) (h : Agree r N M Γ σ τ vs) :
    Quantifies q typed P τ ↔ q.Holds (M.untyped.Admits r) params Q σ := by
  induction hparams generalizing Γ σ τ vs with
  | nil => exact hbody Γ σ τ h
  | @cons v p params typed hp _ ih =>
    have hnext : ∀ x : Value Object, x.HasSort p.2 →
        (Quantifies q typed P (Function.update τ p.1 x) ↔
          q.Holds (M.untyped.Admits r) params Q (Function.update σ v (M.toObject x))) := by
      intro x hx
      refine ih (fun Γ σ τ hagree => hbody Γ σ τ (hagree.mono fun w hw => ?_)) (h.update hN hp hx)
      simp only [cons_append, mem_cons, mem_append] at hw ⊢
      tauto
    have hadmits : ∀ a, M.untyped.Admits r v a ↔ ∃ x : Value Object, x.HasSort p.2 ∧ M.toObject x = a :=
      fun a => Interpretation.admits_untyped_iff hp.2
    cases q with
    | existential =>
      constructor
      · rintro ⟨x, hx, hP⟩
        exact ⟨M.toObject x, (hadmits _).mpr ⟨x, hx, rfl⟩, (hnext x hx).mp hP⟩
      · rintro ⟨a, ha, hQ⟩
        obtain ⟨x, hx, rfl⟩ := (hadmits a).mp ha
        exact ⟨x, hx, (hnext x hx).mpr hQ⟩
    | universal =>
      constructor
      · intro hP a ha
        obtain ⟨x, hx, rfl⟩ := (hadmits a).mp ha
        exact (hnext x hx).mp (hP x hx)
      · intro hQ x hx
        exact (hnext x hx).mpr (hQ _ ((hadmits _).mpr ⟨x, hx, rfl⟩))

/-- The equivalences of neighbours say that all neighbours agree. -/
theorem holds_neighbours :
    (∀ x ∈ neighbours gs, x.Holds M τ) ↔ (gs.map (·.Holds M τ)).IsChain Iff := by
  fun_induction neighbours gs with
  | case1 f g rest ih =>
    rw [forall_mem_cons, Formula.holds_iff, ih]
    simp only [map_cons, isChain_cons_cons]
  | case2 gs hshort =>
    rcases gs with _ | ⟨f, _ | ⟨g, rest⟩⟩
    · simp
    · simp
    · exact (hshort f g rest rfl).elim

theorem holds_equivalences (h : 2 ≤ gs.length) :
    (equivalences gs).Holds M τ ↔ LogicProgram.Connective.iff.Holds (gs.map (·.Holds M τ)) := by
  have hchain : LogicProgram.Connective.iff.Holds (gs.map (·.Holds M τ)) ↔
      (gs.map (·.Holds M τ)).IsChain Iff := by
    rcases gs with _ | ⟨f, _ | ⟨g, rest⟩⟩
    · cases h
    · simp at h
    · exact Iff.rfl
  rw [hchain]
  rcases equivalences_cases h with ⟨f, g, rfl, heq⟩ | ⟨heq, -⟩
  · rw [heq, Formula.holds_iff]
    simp
  · rw [heq, Formula.holds_and, holds_neighbours]

theorem truths_eq_of_forall₂ {R : LogicProgram.Formula → Formula → Prop} {fs : List LogicProgram.Formula}
    (h : Forall₂ R fs gs) (hR : ∀ f ∈ fs, ∀ g, R f g → (g.Holds M τ ↔ f.Holds r M.untyped σ)) :
    gs.map (·.Holds M τ) = fs.map (·.Holds r M.untyped σ) := by
  induction h with
  | nil => rfl
  | cons hfg _ ih =>
    rw [forall_mem_cons] at hR
    rw [map_cons, map_cons, propext (hR.1 _ hfg), ih hR.2]

/-- A formula is true if and only if its typed form is. -/
theorem FormulaForm.holds_iff (hS : S.Proper) (hN : N.WellFormed r) (hM : M.Typed S) (hmodel : M.IsModel)
    {f : LogicProgram.Formula} {g : Formula} (h : FormulaForm r S N f g)
    (hvs : Agree r N M Γ σ τ f.freeVariables) : g.Holds M τ ↔ f.Holds r M.untyped σ := by
  induction f generalizing g Γ σ τ with
  | boolean b => cases h; exact Iff.rfl
  | compare op left right =>
    cases h with
    | compare hl hs =>
      obtain ⟨hsort, hvalue⟩ := hl.value hS hN hM hmodel
        (hvs.mono fun v hv => LogicProgram.Formula.mem_freeVariables_compare.mpr (.inl hv))
      obtain ⟨hsort', hvalue'⟩ := hs.value hS hN hM hmodel
        (hvs.mono fun v hv => LogicProgram.Formula.mem_freeVariables_compare.mpr (.inr hv))
      rw [comparison_holds hmodel hsort hsort', hvalue, hvalue']
      exact Iff.rfl
  | atom name args =>
    cases h with
    | @atom _ _ us hname hargs =>
      have hvalues := values_asObjects (M := M) (σ := σ) (τ := τ) hargs fun t ht u hu =>
        hu.value hS hN hM hmodel
          (hvs.mono fun v hv => LogicProgram.Formula.mem_freeVariables_atom.mpr ⟨t, ht, hv⟩)
      rw [LogicProgram.Formula.holds_atom]
      show M.predicate name (Term.values M τ (asObjects r args us)) ↔ _
      rw [hvalues]
  | not arg ih =>
    cases h with
    | not harg =>
      have hg := ih harg (hvs.mono fun v hv => LogicProgram.Formula.mem_freeVariables_not.mpr hv)
      rw [LogicProgram.Formula.holds_not, ← hg, Formula.holds_not]
      split <;> exact Iff.rfl
  | implies a c iha ihc =>
    cases h with
    | implies ha hc =>
      have hga := iha ha (hvs.mono fun v hv => LogicProgram.Formula.mem_freeVariables_implies.mpr (.inl hv))
      have hgc := ihc hc (hvs.mono fun v hv => LogicProgram.Formula.mem_freeVariables_implies.mpr (.inr hv))
      rw [Formula.holds_implies, hga, hgc]
      exact Iff.rfl
  | join connective fs ih =>
    have htruths : ∀ gs, Forall₂ (FormulaForm r S N) fs gs →
        gs.map (·.Holds M τ) = fs.map (·.Holds r M.untyped σ) := fun gs hgs =>
      truths_eq_of_forall₂ hgs fun f hf g hg => ih f hf hg (hvs.mono fun v hv =>
        LogicProgram.Formula.mem_freeVariables_join.mpr ⟨f, hf, hv⟩)
    rw [LogicProgram.Formula.holds_join]
    cases h with
    | and hlength h | or hlength h =>
      rw [← htruths _ h, Formula.Holds, Formula.truths_eq_map, Connective.Holds,
        LogicProgram.Connective.Holds]
    | iff hlength h =>
      rw [← htruths _ h]
      exact holds_equivalences (h.length_eq ▸ hlength)
  | quantified q params body ih =>
    cases h with
    | quantified hne hparams hbody =>
      refine quantifies_iff hN hparams (fun Γ σ τ hagree => ih hbody (hagree.mono fun v hv => ?_)) hvs
      rw [mem_append, LogicProgram.Formula.mem_freeVariables_quantified]
      by_cases hmem : v ∈ params
      · exact .inl hmem
      · exact .inr ⟨hv, hmem⟩

end

end Tff

namespace Tff

end Tff

end LogicProgram
