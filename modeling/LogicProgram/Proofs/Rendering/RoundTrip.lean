import LogicProgram.Proofs.Rendering.Reread

/-!
# Printing and reading formulas

A formula that was read is printed, and the printed text is read as the same formula up
to the names of bound variables and minus signs before numbers. Its names may not be
words of the grammar, and its strings have to be plain. Nor may the left side of a
comparison start with a truth value when it is printed, since a truth value at the
start of a formula is taken as a formula.
-/

namespace LogicProgram

open List

namespace Term

theorem vars_folded (t : Term) : t.folded.vars = t.vars := by
  induction t with
  | function name args ih =>
    rw [folded_function, vars_function, vars_function, flatMap_map]
    exact flatMap_congr ih
  | unary op arg ih =>
    cases op with
    | absolute => exact ih
    | negative =>
      by_cases h : ∀ n, arg = .integer n → n < 0
      · rw [folded_negative h]
        exact ih
      · -- only a number is taken together with the sign, and it has no variables
        obtain ⟨n, rfl, hn⟩ : ∃ n, arg = .integer n ∧ 0 ≤ n := by
          simpa [not_forall] using h
        rw [folded, if_pos hn]
        rfl
  | binary op left right ihl ihr => exact congrArg₂ (· ++ ·) ihl ihr
  | interval lower upper ihl ihu => exact congrArg₂ (· ++ ·) ihl ihu
  | _ => rfl

/-- The name of a function is no word of the grammar, and a string is made of printable
characters, tabs and new lines. -/
def hasPlainText : Term → Bool
  | .function name _ => !keywords.contains name
  | .string s => s.all Token.isPlain
  | _ => true

end Term

namespace Formula

/-- The name of a predicate is no word of the grammar. -/
def hasPlainName : Formula → Bool
  | .atom name _ => !Term.keywords.contains name
  | _ => true

/-- The formula is a comparison that is printed with a truth value at its start. -/
def startsWithBoolean : Formula → Bool
  | .compare _ left _ => left.startsWithBoolean
  | _ => false

variable {f g : Formula} {t : Term}

/-- A variable of a formula is free or bound. -/
theorem occurs_of_mem_vars (ht : t ∈ f.terms) {v : Variable} (hv : v ∈ t.vars) : f.Occurs v := by
  induction f with
  | boolean b => exact absurd ht not_mem_nil
  | compare op left right =>
    have hside : t = left ∨ t = right := by simpa [terms] using ht
    refine .inl (mem_freeVariables_compare.mpr ?_)
    rcases hside with rfl | rfl
    · exact .inl hv
    · exact .inr hv
  | atom name args => exact .inl (mem_freeVariables_atom.mpr ⟨t, ht, hv⟩)
  | not arg ih => exact occurs_not.mpr (ih ht)
  | implies a c iha ihc => exact occurs_implies.mpr ((mem_append.mp ht).imp iha ihc)
  | join connective args ih =>
    rw [terms, termsOfAll_eq_flatMap] at ht
    obtain ⟨f, hf, ht⟩ := mem_flatMap.mp ht
    exact occurs_join.mpr ⟨f, hf, ih f hf ht⟩
  | quantified q params body ih => exact occurs_quantified.mpr (.inr (ih ht))

theorem binders_folded (f : Formula) : f.folded.binders = f.binders := by
  induction f with
  | not arg ih => exact ih
  | implies a c iha ihc => exact congrArg₂ (· ++ ·) iha ihc
  | join connective args ih =>
    rw [folded, foldedAll_eq_map, binders_join, binders_join, flatMap_map]
    exact flatMap_congr ih
  | quantified q params body ih => exact congrArg (params ++ ·) ih
  | _ => rfl

theorem mem_freeVariables_folded {v : Variable} : v ∈ f.folded.freeVariables ↔ v ∈ f.freeVariables := by
  induction f with
  | boolean b => exact Iff.rfl
  | compare op left right =>
    rw [folded, mem_freeVariables_compare, mem_freeVariables_compare, Term.vars_folded, Term.vars_folded]
  | atom name args =>
    rw [folded, mem_freeVariables_atom, mem_freeVariables_atom]
    simp only [mem_map, exists_exists_and_eq_and, Term.vars_folded]
  | not arg ih =>
    rw [folded, mem_freeVariables_not, mem_freeVariables_not]
    exact ih
  | implies a c iha ihc =>
    rw [folded, mem_freeVariables_implies, mem_freeVariables_implies, iha, ihc]
  | join connective args ih =>
    rw [folded, foldedAll_eq_map, mem_freeVariables_join, mem_freeVariables_join]
    simp only [mem_map, exists_exists_and_eq_and]
    exact exists_congr fun f => and_congr_right fun hf => ih f hf
  | quantified q params body ih =>
    rw [folded, mem_freeVariables_quantified, mem_freeVariables_quantified, ih]

/-- The names of a formula are no words of the grammar, and its strings are made of printable
characters, tabs and new lines. -/
def Plain (f : Formula) : Prop :=
  (∀ g ∈ f.subformulas, g.hasPlainName = true) ∧ ∀ t ∈ f.subterms, t.hasPlainText = true

instance (f : Formula) : Decidable f.Plain :=
  inferInstanceAs (Decidable ((∀ g ∈ f.subformulas, g.hasPlainName = true) ∧
    ∀ t ∈ f.subterms, t.hasPlainText = true))

/-- No comparison of a formula is printed with a truth value at its start. -/
def NoBooleanFirst (f : Formula) : Prop := ∀ g ∈ f.subformulas, g.startsWithBoolean = false

instance (f : Formula) : Decidable f.NoBooleanFirst :=
  inferInstanceAs (Decidable (∀ g ∈ f.subformulas, g.startsWithBoolean = false))

/-- What is bound in a formula that was read has a domain. -/
theorem isSome_variableDomain {r : Registry} (hf : ∀ g ∈ f.subformulas, g.ParsedPart r) :
    ∀ v ∈ f.binders, (r.variableDomain v).isSome := by
  induction f with
  | not arg ih => exact ih (forall_subformulas_not.mp hf).2
  | implies a c iha ihc =>
    obtain ⟨-, ha, hc⟩ := forall_subformulas_implies.mp hf
    exact forall_mem_append.mpr ⟨iha ha, ihc hc⟩
  | join connective args ih =>
    rw [binders_join]
    intro v hv
    obtain ⟨f, hmem, hv⟩ := mem_flatMap.mp hv
    exact ih f hmem ((forall_subformulas_join.mp hf).2 f hmem) v hv
  | quantified q params body ih =>
    obtain ⟨hparams, hbody⟩ := forall_subformulas_quantified.mp hf
    exact forall_mem_append.mpr ⟨hparams.2.2, ih hbody⟩
  | _ => exact nofun

/-- A plain formula that was read can be read as it is printed. -/
theorem Plain.legible {r : Registry} (hplain : f.Plain) (hleft : f.NoBooleanFirst)
    (hf : ∀ g ∈ f.subformulas, g.ParsedPart r) (hclosed : f.freeVariables = []) :
    ∀ g ∈ f.subformulas, g.Legible r := by
  have hterm : ∀ t ∈ f.terms, (∀ u ∈ t.subterms, u.ParsedPart r) → ∀ u ∈ t.subterms, u.Legible r := by
    intro t ht hparts u hu
    have hmem : u ∈ f.subterms := mem_flatMap.mpr ⟨t, ht, hu⟩
    have hpart := hparts u hu
    cases u with
    | integer n => exact hpart
    | string s => exact all_eq_true.mp (hplain.2 _ hmem)
    | «variable» v =>
      have hv : v ∈ t.vars := Term.vars_subset_of_mem_subterms hu (mem_singleton.mpr rfl)
      have hbound := (occurs_of_mem_vars ht hv).resolve_left (by rw [hclosed]; exact not_mem_nil)
      exact isSome_variableDomain hf v hbound
    | function name args => exact ⟨hpart.1, by simpa [Term.hasPlainText] using hplain.2 _ hmem, hpart.2⟩
    | binary op left right | interval lower upper => exact hpart
    | _ => trivial
  intro g hg
  have hpart := hf g hg
  have hterms := terms_subset_of_mem_subformulas hg
  cases g with
  | compare op left right =>
    refine ⟨hleft _ hg, hterm left (hterms ?_) hpart.1, hterm right (hterms ?_) hpart.2⟩
    · exact mem_cons_self
    · exact mem_cons_of_mem _ mem_cons_self
  | atom name args =>
    exact ⟨hpart.1, by simpa [hasPlainName] using hplain.1 _ hg, hpart.2.1,
      fun t ht => hterm t (hterms ht) (hpart.2.2 t ht)⟩
  | join connective args | quantified q params body => exact hpart
  | _ => trivial

end Formula

namespace Formula

/-- A formula that was read and is plain is printed, and what is printed is read as the formula,
up to the names of variables and minus signs before numbers. -/
theorem parse_human {t : Text} {r r' : Registry} {f : Formula} (hparse : Returns (Formula.parse t) r f r')
    (hplain : f.Plain) (hleft : f.NoBooleanFirst) :
    ∃ text g r'', f.human r' = .ok text ∧ Returns (Formula.parse text) r' g r'' ∧
      SameUpToNames r' r'' f.folded g := by
  obtain ⟨-, -, c, -, rfl, -, hparsed, x, -, hscopes⟩ :=
    FormulaParser.passes_onText FormulaParser.passes_wholeFormula hparse
  have hlegible := hplain.legible hleft hparsed hscopes.closed
  obtain ⟨text, ν, hhuman, hspells, hν⟩ := exists_human hlegible
  obtain ⟨ρ, r'', hreturns, hinjective, hdomain⟩ :=
    parse_phrase hlegible hscopes.closed hscopes.distinct hν hspells
  refine ⟨text, _, r'', hhuman, hreturns, ?_, ρ, rfl, ?_, ?_⟩
  · exact eq_nil_iff_forall_not_mem.mpr fun v hv => by
      rw [mem_freeVariables_folded, hscopes.closed] at hv
      cases hv
  · rwa [binders_folded]
  · rwa [binders_folded]

/-- Everything is three less than an integer, or a string is no `p`. -/
def shifted : Text := "forall X exists N (X = -(3) + N or not p(\"a\\n\"))"

theorem parse_human_shifted :
    ∃ f r, Returns (Formula.parse shifted) .empty f r ∧ f.Plain ∧ f.NoBooleanFirst ∧
      ∃ text g r', f.human r = .ok text ∧ Returns (Formula.parse text) r g r' ∧
        SameUpToNames r r' f.folded g := by
  have hread : (outcome (Formula.parse shifted) .empty).1.toOption.any
      (fun f => decide (f.Plain ∧ f.NoBooleanFirst)) = true := by decide +kernel
  cases hok : (outcome (Formula.parse shifted) .empty).1 with
  | error e =>
    rw [hok] at hread
    cases hread
  | ok f =>
    rw [hok] at hread
    have hparse := Returns.of_ok hok
    obtain ⟨hplain, hleft⟩ := of_decide_eq_true hread
    exact ⟨f, _, hparse, hplain, hleft, parse_human hparse hplain hleft⟩

/-- A sum that starts with a truth value is printed without parentheses around it, and the text is
not read again, though no side of the comparison is a truth value itself. -/
theorem parse_human_truth_first :
    ∃ f : Formula, Returns (Formula.parse "(#true) + 1 = 2") .empty f .empty ∧ f.Plain ∧
      (∀ op b right, compare op (.boolean b) right ∉ f.subformulas) ∧
      f.human .empty = .ok "#true + 1 = 2" ∧
      ¬ ∃ g r, Returns (Formula.parse "#true + 1 = 2") .empty g r := by
  refine ⟨.compare .equal (.binary .add (.boolean true) (.integer 1)) (.integer 2),
    by with_unfolding_all rfl, by decide, ?_, by with_unfolding_all rfl, ?_⟩
  · simp [subformulas]
  · rintro ⟨g, r, h⟩
    have hfails : (outcome (Formula.parse "#true + 1 = 2") .empty).1.isOk = false := by decide +kernel
    rw [h] at hfails
    cases hfails

end Formula

end LogicProgram
