import LogicProgram.Proofs.Formula.Sorts
import LogicProgram.Proofs.Simplification.Passes

/-!
# Simplification keeps the meaning

Each rule is looked at twice: what it does to the variables, and what it does to
the truth. Eliminating a variable that a conjunct equates with a term replaces it
in the other conjuncts without renaming, so it relies on no quantifier in them
binding a variable of the term. That follows from the scopes of the formula, which
every rule keeps. The value of the term is among those of the variable because an
integer variable is only ever replaced by an arithmetic term, which also keeps
sorted formulas sorted.
-/

namespace LogicProgram

open List

universe u

variable {changed : Bool} {t : Term} {v : Variable} {fs others remaining : List Formula}
  {kept params : List Variable}

variable {r : Registry} {I : Interpretation.{u}} {σ : Valuation I}

/-- A term that is arithmetic by its declarations denotes an integer. -/
theorem Registry.isInteger_of_isArithmetic (hI : I.Respects r)
    (hσ : SortRespecting r σ) (h : r.isArithmetic t = .ok true) : I.IsInteger (t.value I σ) := by
  induction t with
  | integer n => exact ⟨n, rfl⟩
  | var v =>
    rw [isArithmetic] at h
    split at h
    next domain hdomain =>
      refine hσ v (hdomain.trans ?_)
      simpa using h
    next => simp at h
  | function name args _ =>
    rw [isArithmetic] at h
    split at h
    next hargs =>
      rw [isEmpty_iff.mp hargs]
      exact hI.constant name (by simpa using h)
    next => simp at h
  | binary op left right ihl ihr =>
    rw [isArithmetic] at h
    split at h
    next hleft => exact hI.binary op _ _ (ihl hleft) (ihr h)
    next hother => exact absurd h hother
  | unary op arg ih => exact hI.unary op _ (ih h)
  | _ => simp [isArithmetic] at h

theorem SortRespecting.update (hσ : SortRespecting r σ)
    {a : I.Object} (ha : I.Admits r v a) : SortRespecting r (Function.update σ v a) := by
  intro w
  by_cases hw : w = v
  · rw [hw, Function.update_self]
    exact ha
  · rw [Function.update_of_ne hw]
    exact hσ w

namespace Quantifier

/-- Under a quantifier only valuations that respect sorts matter. -/
theorem holds_congr_sorted {q : Quantifier} {P Q : Valuation I → Prop} {vs : List Variable}
    (h : ∀ σ : Valuation I, SortRespecting r σ → (P σ ↔ Q σ)) (hσ : SortRespecting r σ) :
    q.Holds (I.Admits r) vs P σ ↔ q.Holds (I.Admits r) vs Q σ := by
  refine holds_of_related_same (R := fun _ σ τ => σ = τ ∧ SortRespecting r σ)
    (fun _ _ _ => Iff.rfl) ?_ ?_ ⟨rfl, hσ⟩
  · rintro v _ _ σ _ a ha ⟨rfl, hσ⟩
    exact ⟨rfl, hσ.update ha⟩
  · rintro σ _ ⟨rfl, hσ⟩
    exact h σ hσ

/-- The first of several existential variables may be chosen last. -/
theorem exists_last {α : Type u} {range : Variable → α → Prop} {vs : List Variable}
    (hv : v ∉ vs) {P : (Variable → α) → Prop} {σ : Variable → α} :
    Quantifier.existential.Holds range (v :: vs) P σ ↔ Quantifier.existential.Holds range vs
        (fun σ => ∃ a, range v a ∧ P (Function.update σ v a)) σ := by
  induction vs generalizing σ with
  | nil => rfl
  | cons w vs ih =>
    have hwv : w ≠ v := fun he => hv (he ▸ mem_cons_self)
    have ih' := fun b => @ih (fun hmem => hv (mem_cons_of_mem w hmem))
      (Function.update σ w b)
    constructor
    · rintro ⟨a, ha, b, hb, h⟩
      refine ⟨b, hb, (ih' b).mp ⟨a, ha, ?_⟩⟩
      rwa [Function.update_comm hwv]
    · rintro ⟨b, hb, h⟩
      obtain ⟨a, ha, h⟩ := (ih' b).mpr h
      refine ⟨a, ha, b, hb, ?_⟩
      rwa [Function.update_comm hwv.symm]

end Quantifier

namespace Formula

/-- A term is given by an equation, is without the variable and of its sort. -/
theorem assignedTerm_eq_some {f : Formula} (h : assignedTerm r v f = .ok (some t)) :
    (f = .equals (.variable v) t ∨ f = .equals t (.variable v)) ∧ v ∉ t.vars ∧
      (r.variableDomain v = some .integer → r.isArithmetic t = .ok true) := by
  have hvariable : ∀ s, isVariable v s = true → s = .variable v := by
    intro s hs
    unfold isVariable at hs
    split at hs
    · rw [beq_iff_eq.mp hs]
    · simp at hs
  unfold assignedTerm at h
  split at h
  next => simp at h
  next s hs =>
    have hequated : f = .equals (.variable v) s ∨ f = .equals s (.variable v) := by
      unfold equatedTerm? at hs
      split at hs
      next left right =>
        split at hs
        next hl => exact .inl (by rw [hvariable left hl, Option.some.inj hs])
        next =>
          split at hs
          next hr => exact .inr (by rw [hvariable right hr, Option.some.inj hs])
          next => simp at hs
      next => simp at hs
    split at h
    next => simp at h
    next hmentions =>
      have hvars : v ∉ s.vars := by simpa [Term.mentions] using hmentions
      split at h
      next => simp at h
      next hdomain =>
        have hst : s = t := by simpa using h
        exact ⟨hst ▸ hequated, hst ▸ hvars, fun hinteger => by simp [hinteger] at hdomain⟩
      next =>
        split at h
        next => simp at h
        next arithmetic harithmetic =>
          split at h
          next htrue =>
            have hst : s = t := by simpa using h
            exact ⟨hst ▸ hequated, hst ▸ hvars, fun _ => by rw [← hst, harithmetic, htrue]⟩
          next => simp at h

/-- The conjunct that gives a term is the only one that goes. -/
theorem takeAssignment_eq_some (h : takeAssignment r v fs = .ok (some (t, others))) :
    ∃ before f after, fs = before ++ f :: after ∧ others = before ++ after ∧
      assignedTerm r v f = .ok (some t) := by
  induction fs generalizing others with
  | nil => simp [takeAssignment] at h
  | cons f fs ih =>
    rw [takeAssignment] at h
    split at h
    next => simp at h
    next s hs =>
      obtain ⟨rfl, rfl⟩ : s = t ∧ fs = others := by simpa using h
      exact ⟨[], f, fs, rfl, rfl, hs⟩
    next hnone =>
      split at h
      next => simp at h
      next => simp at h
      next s rest hrest =>
        obtain ⟨rfl, rfl⟩ : s = t ∧ f :: rest = others := by simpa using h
        obtain ⟨before, g, after, rfl, rfl, hg⟩ := ih hrest
        exact ⟨f :: before, g, after, rfl, rfl, hg⟩

/-- What an assignment does to the variables of the conjuncts. -/
theorem takeAssignment_narrows (h : takeAssignment r v fs = .ok (some (t, others))) :
    (bindersOfAll (replaceInAll v t others)).Sublist (bindersOfAll fs) ∧
      (∀ w ∈ t.vars, w ∈ (Formula.and fs).freeVariables) ∧
      ∀ w ∈ (Formula.and (replaceInAll v t others)).freeVariables,
        w ∈ (Formula.and fs).freeVariables ∧ w ≠ v := by
  obtain ⟨before, f, after, rfl, rfl, hf⟩ := takeAssignment_eq_some h
  obtain ⟨hequation, hvars, _⟩ := assignedTerm_eq_some hf
  have hterm : ∀ w ∈ t.vars, w ∈ (Formula.and (before ++ f :: after)).freeVariables := by
    intro w hw
    refine mem_freeVariables_join.mpr ⟨f, by simp, ?_⟩
    rcases hequation with rfl | rfl <;> simp [hw]
  refine ⟨?_, hterm, fun w hw => ?_⟩
  · simp only [replaceInAll_eq_map, bindersOfAll_eq_flatMap, flatMap_map, binders_replace]
    rw [flatMap_append, flatMap_append, flatMap_cons]
    exact (List.Sublist.refl _).append (sublist_append_right _ _)
  · simp only [replaceInAll_eq_map, mem_freeVariables_join, mem_map] at hw
    obtain ⟨_, ⟨g, hg, rfl⟩, hw⟩ := hw
    rcases mem_freeVariables_replace hw with ⟨hw, hne⟩ | hw
    · refine ⟨mem_freeVariables_join.mpr ⟨g, ?_, hw⟩, hne⟩
      rcases mem_append.mp hg with hg | hg <;> simp [hg]
    · exact ⟨hterm w hw, fun he => hvars (he ▸ hw)⟩

/-- Variables stay in order, and those that are gone are gone everywhere. -/
theorem Eliminates.narrows (h : Eliminates r params fs kept remaining changed) :
    kept.Sublist params ∧ (bindersOfAll remaining).Sublist (bindersOfAll fs) ∧
      ∀ w ∈ (Formula.and remaining).freeVariables,
        w ∈ (Formula.and fs).freeVariables ∧ (w ∈ params → w ∈ kept) := by
  induction h with
  | nil => exact ⟨List.Sublist.refl _, List.Sublist.refl _, fun w hw => ⟨hw, id⟩⟩
  | @gone v params kept fs others remaining t later hassignment _ ih =>
    obtain ⟨hbinders, _, hfree⟩ := takeAssignment_narrows hassignment
    obtain ⟨hkept, hremaining, hrestfree⟩ := ih
    refine ⟨hkept.trans (sublist_cons_self v params), hremaining.trans hbinders, ?_⟩
    intro w hw
    obtain ⟨hw', hparams⟩ := hrestfree w hw
    obtain ⟨hfs, hne⟩ := hfree w hw'
    exact ⟨hfs, fun hmem => hparams ((mem_cons.mp hmem).resolve_left hne)⟩
  | @stays v params kept fs remaining later _ _ ih =>
    obtain ⟨hkept, hremaining, hrestfree⟩ := ih
    refine ⟨hkept.cons_cons v, hremaining, fun w hw => ?_⟩
    obtain ⟨hfs, hparams⟩ := hrestfree w hw
    refine ⟨hfs, fun hmem => ?_⟩
    rcases mem_cons.mp hmem with rfl | hmem
    · exact mem_cons_self
    · exact mem_cons_of_mem v (hparams hmem)

/-- A conjunct that equates a variable with a term gives its value. -/
theorem takeAssignment_meaning (hI : I.Respects r)
    (h : takeAssignment r v fs = .ok (some (t, others)))
    (hapart : ∀ w ∈ bindersOfAll fs, w ∉ (Formula.and fs).freeVariables) (hσ : SortRespecting r σ) :
    (∃ a, I.Admits r v a ∧ (Formula.and fs).Holds r I (Function.update σ v a)) ↔
      (Formula.and (replaceInAll v t others)).Holds r I σ := by
  obtain ⟨_, hterm, _⟩ := takeAssignment_narrows h
  obtain ⟨before, f, after, rfl, rfl, hf⟩ := takeAssignment_eq_some h
  obtain ⟨hequation, hvars, hinteger⟩ := assignedTerm_eq_some hf
  have hvalue : ∀ a, t.value I (Function.update σ v a) = t.value I σ := by
    intro a
    refine Term.value_congr fun w hw => ?_
    rw [Function.update_of_ne]
    rintro rfl
    exact hvars hw
  have hf' : ∀ a, f.Holds r I (Function.update σ v a) ↔ a = t.value I σ := by
    intro a
    rcases hequation with rfl | rfl <;>
      simp only [holds_compare, Interpretation.Compares, Term.value, Function.update_self, hvalue]
    exact eq_comm
  have hreplace : ∀ g ∈ before ++ after, (g.replace v t).Holds r I σ ↔
      g.Holds r I (Function.update σ v (t.value I σ)) := by
    intro g hg
    refine holds_replace fun w hw hwt => hapart w ?_ (hterm w hwt)
    rw [bindersOfAll_eq_flatMap]
    refine mem_flatMap.mpr ⟨g, ?_, hw⟩
    rcases mem_append.mp hg with hg | hg <;> simp [hg]
  have hadmits : I.Admits r v (t.value I σ) := fun hdomain =>
    Registry.isInteger_of_isArithmetic hI hσ (hinteger hdomain)
  simp only [holds_and, replaceInAll_eq_map, forall_mem_map]
  constructor
  · rintro ⟨a, _, hall⟩ g hg
    have ha := (hf' a).mp (hall f (by simp))
    rw [hreplace g hg, ← ha]
    exact hall g (by rcases mem_append.mp hg with hg | hg <;> simp [hg])
  · intro hall
    refine ⟨t.value I σ, hadmits, fun g hg => ?_⟩
    rcases mem_append.mp hg with hg | hg
    · exact (hreplace g (by simp [hg])).mp (hall g (by simp [hg]))
    · rcases mem_cons.mp hg with rfl | hg
      · exact (hf' _).mpr rfl
      · exact (hreplace g (by simp [hg])).mp (hall g (by simp [hg]))

/-- Eliminating variables one after the other keeps the meaning. -/
theorem Eliminates.meaning (hI : I.Respects r)
        (h : Eliminates r params fs kept remaining changed) (hparams : params.Nodup)
    (hapart : ∀ w ∈ bindersOfAll fs, w ∉ (Formula.and fs).freeVariables) (hσ : SortRespecting r σ) :
    (Formula.existential kept (.and remaining)).Holds r I σ ↔
      (Formula.existential params (.and fs)).Holds r I σ := by
  induction h generalizing σ with
  | nil => rfl
  | @gone v params kept fs others remaining t later hassignment _ ih =>
    obtain ⟨hv, hnodup⟩ := nodup_cons.mp hparams
    obtain ⟨hbinders, _, hfree⟩ := takeAssignment_narrows hassignment
    have hapart' : ∀ w ∈ bindersOfAll (replaceInAll v t others),
        w ∉ (Formula.and (replaceInAll v t others)).freeVariables := fun w hw hwfree =>
      hapart w (hbinders.subset hw) (hfree w hwfree).1
    rw [ih hnodup hapart' hσ]
    -- The term may mention later variables of the quantifier, so these come first.
    show _ ↔ Quantifier.existential.Holds _ (v :: params) _ σ
    rw [Quantifier.exists_last hv]
    refine Quantifier.holds_congr_sorted (fun τ hτ => ?_) hσ
    exact (takeAssignment_meaning hI hassignment hapart hτ).symm
  | stays _ _ ih =>
    refine exists_congr fun a => and_congr_right fun ha => ?_
    exact ih (nodup_cons.mp hparams).2 hapart (hσ.update ha)

/-- What each rule does: it only takes variables away, it keeps the meaning if the
scopes of the formula are in order, and it keeps sorts. -/
structure Simplifies (r : Registry) (g f : Formula) : Prop where
  narrows : Narrows g f
  meaning : ∀ I : Interpretation.{u}, I.Respects r → WellScoped f →
    ∀ σ : Valuation I, SortRespecting r σ → (g.Holds r I σ ↔ f.Holds r I σ)
  sorted : f.Sorted r → g.Sorted r

namespace Simplifies

variable {f g h : Formula}

theorem refl (f : Formula) : Simplifies.{u} r f f :=
  ⟨Narrows.refl f, fun _ _ _ _ _ => Iff.rfl, id⟩

theorem trans (hgf : Simplifies.{u} r g f) (hhg : Simplifies.{u} r h g) : Simplifies.{u} r h f :=
  ⟨hgf.narrows.trans hhg.narrows, fun I hI hs σ hσ =>
    (hhg.meaning I hI (hs.narrow hgf.narrows) σ hσ).trans (hgf.meaning I hI hs σ hσ),
    fun hf => hhg.sorted (hgf.sorted hf)⟩

theorem not (hgf : Simplifies.{u} r g f) : Simplifies.{u} r (.not g) (.not f) :=
  ⟨hgf.narrows.not, fun I hI hs σ hσ => not_congr (hgf.meaning I hI hs.of_not σ hσ),
    fun hf => sorted_not.mpr (hgf.sorted (sorted_not.mp hf))⟩

theorem implies {a c a' c' : Formula} (ha : Simplifies.{u} r a' a) (hc : Simplifies.{u} r c' c) :
    Simplifies.{u} r (.implies a' c') (.implies a c) :=
  ⟨ha.narrows.implies hc.narrows, fun I hI hs σ hσ =>
    imp_congr (ha.meaning I hI hs.antecedent σ hσ) (hc.meaning I hI hs.consequent σ hσ),
    fun hf => sorted_implies.mpr ((sorted_implies.mp hf).imp ha.sorted hc.sorted)⟩

theorem join {connective : Connective} {fs gs : List Formula}
    (hall : Forall₂ (Simplifies.{u} r) gs fs) :
    Simplifies.{u} r (.join connective gs) (.join connective fs) := by
  refine ⟨.join (hall.imp fun _ _ hgf => hgf.narrows), fun I hI hs σ hσ => ?_, fun hf => ?_⟩
  · have hmember : ∀ f ∈ fs, WellScoped f := fun f hf => hs.member hf
    refine holds_join_congr ?_
    clear hs
    induction hall with
    | nil => exact .nil
    | cons hgf _ ih =>
      obtain ⟨hf, hrest⟩ := forall_mem_cons.mp hmember
      exact .cons (hgf.meaning I hI hf σ hσ) (ih hrest)
  · rw [sorted_join] at hf ⊢
    induction hall with
    | nil => exact hf
    | cons hgf _ ih =>
      rw [forall_mem_cons] at hf ⊢
      exact hf.imp hgf.sorted ih

theorem quantified {q : Quantifier} {params : List Variable} (hgf : Simplifies.{u} r g f) :
    Simplifies.{u} r (.quantified q params g) (.quantified q params f) :=
  ⟨hgf.narrows.quantified, fun I hI hs _ hσ =>
    Quantifier.holds_congr_sorted (fun τ hτ => hgf.meaning I hI hs.body τ hτ) hσ,
    fun hf => sorted_quantified.mpr ((sorted_quantified.mp hf).imp_right hgf.sorted)⟩

end Simplifies

/-- Sorted conjuncts stay sorted when a term takes the place of a variable. -/
theorem Eliminates.sorted (h : Eliminates r params fs kept remaining changed)
    (hfs : ∀ f ∈ fs, f.Sorted r) : ∀ f ∈ remaining, f.Sorted r := by
  induction h with
  | nil => exact hfs
  | gone hassignment _ ih =>
    obtain ⟨before, f, after, rfl, rfl, hf⟩ := takeAssignment_eq_some hassignment
    obtain ⟨hequation, -, harithmetic⟩ := assignedTerm_eq_some hf
    have ht := hfs f (by simp)
    refine ih ?_
    rw [replaceInAll_eq_map, forall_mem_map]
    intro g hg
    refine (hfs g ?_).replace ?_ harithmetic
    · rcases mem_append.mp hg with hg | hg <;> simp [hg]
    · rcases hequation with rfl | rfl
      · exact (sorted_compare.mp ht).2
      · exact (sorted_compare.mp ht).1
  | stays _ _ ih => exact ih hfs

/-- The rules, each where it applies. -/
theorem simplifies_rewriting : Rewriting r fun _ => Simplifies.{u} r where
  refl := Simplifies.refl
  trans := Simplifies.trans
  not := Simplifies.not
  implies := Simplifies.implies
  join h := .join h.forall₂
  quantified := Simplifies.quantified
  equated h := by
    obtain ⟨hkept, hbinders, hfree⟩ := h.narrows
    refine ⟨⟨hkept.append hbinders, fun w hw => ?_⟩, fun I hI hs σ hσ => ?_, fun hf => ?_⟩
    · rw [mem_freeVariables_quantified] at hw ⊢
      obtain ⟨hfs, hparams⟩ := hfree w hw.1
      exact ⟨hfs, fun hmem => hw.2 (hparams hmem)⟩
    · have hparams := (nodup_append.mp hs.distinct).1
      exact h.meaning hI hparams hs.body.apart hσ
    · obtain ⟨hdomains, hfs⟩ := sorted_quantified.mp hf
      exact sorted_quantified.mpr ⟨fun v hv => hdomains v (hkept.subset hv),
        sorted_join.mpr (h.sorted (sorted_join.mp hfs))⟩
  empty q f := by
    refine ⟨⟨List.Sublist.refl _, fun v hv => ?_⟩, fun _ _ _ _ _ => Iff.rfl,
      fun hf => (sorted_quantified.mp hf).2⟩
    exact mem_freeVariables_quantified.mpr ⟨hv, by simp⟩
  noMember connective := by
    refine ⟨⟨List.Sublist.refl _, fun v hv => by simp at hv⟩, ?_, fun _ => sorted_boolean _⟩
    intro I _ _ σ _
    cases connective <;> simp [unit, Holds, truths, Connective.Holds]
  oneMember connective f := by
    refine ⟨⟨?_, fun v hv => ?_⟩, ?_, fun hf => sorted_join.mp hf f mem_cons_self⟩
    · exact sublist_append_left _ _
    · exact mem_freeVariables_join.mpr ⟨f, by simp, hv⟩
    · intro I _ _ σ _
      cases connective with
      | and => rw [holds_and, forall_mem_singleton]
      | or => rw [holds_or, exists_mem_cons_iff]; simp
      | iff => rfl

/-- Any number of rounds. -/
theorem simplifyWithin_simplifies {rounds : Nat} {f g : Formula}
    (h : simplifyWithin r rounds f = .ok g) : Simplifies.{u} r g f := by
  obtain ⟨_, hgf⟩ := simplifies_rewriting.simplifyWithin h
  exact hgf

/-- Simplification keeps the meaning of every formula whose quantifiers bind
distinct variables that are not free in it, in every interpretation in which
integer constants and arithmetic denote integers and for all values of variables
that respect their domains. -/
theorem simplify_meaning {f g : Formula} (hdistinct : f.binders.Nodup)
    (hapart : ∀ v ∈ f.binders, v ∉ f.freeVariables) (h : f.simplify r = .ok g)
    (hI : I.Respects r) {σ : Valuation I} (hσ : SortRespecting r σ) :
    g.Holds r I σ ↔ f.Holds r I σ :=
  (simplifyWithin_simplifies h).meaning I hI ⟨hdistinct, hapart⟩ σ hσ

/-- Variables `X` over all objects and `N` and `M` over the integers. -/
def mixedVariables : Registry :=
  { Registry.empty with variableTable := #[⟨"X", some .program⟩,
      ⟨"N", some .integer⟩, ⟨"M", some .integer⟩] }

/-- Some `X` and `N` with `X = N + 1` and `M = N` are such that `p(X)`. -/
def chained : Formula :=
  .existential [0, 1] (.and [
    .equals (.variable 0) (.binary .add (.variable 1) (.integer 1)),
    .equals (.variable 2) (.variable 1),
    .atom "p" [.variable 0]])

theorem simplify_meaning_chained :
    chained.simplify mixedVariables =
      .ok (.atom "p" [.binary .add (.variable 2) (.integer 1)]) ∧
    ((Formula.atom "p" [.binary .add (.variable 2) (.integer 1)]).Holds
        mixedVariables (.integers fun _ ds => ds = [3]) (fun _ => (2 : Int)) ↔
      chained.Holds mixedVariables (.integers fun _ ds => ds = [3]) (fun _ => (2 : Int))) := by
  have h : chained.simplify mixedVariables =
      .ok (.atom "p" [.binary .add (.variable 2) (.integer 1)]) := by rfl
  refine ⟨h, simplify_meaning (by decide) (by decide) h ?_ fun _ _ => ⟨2, rfl⟩⟩
  exact .integers _ _

end Formula

end LogicProgram
