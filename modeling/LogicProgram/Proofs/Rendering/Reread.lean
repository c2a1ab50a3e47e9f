import LogicProgram.Proofs.Formula.Renaming
import LogicProgram.Proofs.Phrase.Scoping

/-!
# Reading printed formulas

What is printed for a legible formula is a phrase of the language, and it means the
formula, with the variables that the names stand for and with minus signs taken into
numbers.
-/

namespace LogicProgram

open List
open Human (formulaLevel termLevel)
open FormulaPhrase (freeNames formula connectiveLevel shapeOfAll_eq_map)
open TermPhrase (term names grouped)
open Token (first IsIdentifier Admissible)

namespace TermPhrase

variable {x : TermPhrase} {needed : Bool}

theorem formed_grouped (hx : x.Formed) : (x.grouped needed).Formed := by
  cases needed with
  | false => exact hx
  | true => exact .group hx

theorem names_grouped : (x.grouped needed).names = x.names := by
  cases needed <;> rfl

theorem term_grouped (scopes : List Scope) : (x.grouped needed).term scopes = x.term scopes := by
  cases needed <;> rfl

theorem level_grouped_lt {level : Nat} (hlevel : 0 < level) (h : needed = false → x.level < level) :
    (x.grouped needed).level < level := by
  cases needed with
  | false => exact h rfl
  | true => exact hlevel

end TermPhrase

namespace FormulaPhrase

variable {x y : FormulaPhrase} {needed : Bool}

theorem formed_grouped (hx : x.Formed) : (x.grouped needed).Formed := by
  cases needed with
  | false => exact hx
  | true => exact .group hx

theorem freeNames_grouped : (x.grouped needed).freeNames = x.freeNames := by
  cases needed <;> rfl

theorem params_grouped : (x.grouped needed).params = x.params := by
  cases needed <;> rfl

theorem formula_grouped (scopes : List Scope) : (x.grouped needed).formula scopes = x.formula scopes := by
  cases needed <;> rfl

theorem level_grouped_lt {level : Nat} (hlevel : 5 < level) (h : needed = false → x.level < level) :
    (x.grouped needed).level < level := by
  cases needed with
  | false => exact h rfl
  | true => exact hlevel

theorem exists_of_shape_grouped (h : y.shape = (x.grouped needed).shape) :
    ∃ z : FormulaPhrase, y = z.grouped needed ∧ z.shape = x.shape := by
  cases needed with
  | false => exact ⟨y, rfl, h⟩
  | true =>
    cases y with
    | group z => exact ⟨z, rfl, FormulaPhrase.group.inj h⟩
    | _ => cases h

end FormulaPhrase

namespace Term

open TermPhrase (names_grouped term_grouped formed_grouped level_grouped_lt)

variable {t : Term} {r : Registry} {ν : Variable → Text}

theorem phrase_function (name : Text) (args : List Term) :
    (function name args).phrase ν = .function name (args.map (·.phrase ν)) :=
  congrArg (TermPhrase.function name) (phraseOfAll_eq_map ν args)

theorem level_phrase (ht : t.Legible r) : (t.phrase ν).level = termLevel t := by
  cases t with
  | integer n => rw [phrase, termLevel]; split <;> rfl
  | unary op arg =>
    cases op with
    | absolute => rfl
    | negative =>
      rw [phrase]
      cases (arg.phrase ν).grouped (0 < termLevel arg) <;> rfl
  | interval lower upper => exact ht.elim
  | _ => rfl

/-- A minus sign belongs to a natural number, or stands alone. -/
theorem phrase_negative (arg : Term) (ν : Variable → Text) : (∃ n, arg = .integer n ∧ 0 ≤ n ∧
      (unary .negative arg).phrase ν = .negativeNumeral (Text.ofNat n.natAbs)) ∨
    (∀ n, arg = .integer n → n < 0) ∧ ∃ x, x = (arg.phrase ν).grouped (0 < termLevel arg) ∧
      (∀ digits, x ≠ .numeral digits) ∧ (unary .negative arg).phrase ν = .negative x := by
  by_cases hn : ∃ n, arg = .integer n ∧ 0 ≤ n
  · obtain ⟨n, rfl, hn⟩ := hn
    refine .inl ⟨n, rfl, hn, ?_⟩
    simp [phrase, termLevel, Int.not_lt.mpr hn, grouped, TermPhrase.negated]
  have hneg : ∀ n, arg = .integer n → n < 0 := fun n h => Int.not_le.mp fun hle => hn ⟨n, h, hle⟩
  have hnumeral : ∀ digits, (arg.phrase ν).grouped (0 < termLevel arg) ≠ .numeral digits := by
    cases arg with
    | integer n =>
      intro digits h
      simp [termLevel, hneg n rfl, grouped] at h
    | unary op arg | binary op left right =>
      intro digits h
      cases op <;> cases h
    | _ => rintro digits ⟨⟩
  refine .inr ⟨hneg, _, rfl, hnumeral, ?_⟩
  rw [phrase]
  generalize (arg.phrase ν).grouped (0 < termLevel arg) = x at hnumeral
  cases x with
  | numeral digits => exact absurd rfl (hnumeral digits)
  | _ => rfl

/-- The language has what is printed. -/
theorem formed_phrase (ht : ∀ u ∈ t.subterms, u.Legible r) : (t.phrase ν).Formed := by
  have hroot := ht t t.self_mem_subterms
  induction t with
  | integer n =>
    rw [phrase]
    split
    · refine .negativeNumeral ?_
      rw [Text.toNat_ofNat]
      have := hroot.1
      omega
    · refine .numeral ?_
      rw [Text.toNat_ofNat]
      have := hroot.2
      omega
  | boolean b => exact .constant (by cases b <;> decide)
  | string s => exact .string s
  | infimum | supremum => exact .constant (by decide)
  | var v => exact .variable (ν v)
  | function name args ih =>
    rw [phrase_function]
    refine .function hroot.1 fun x hx => ?_
    obtain ⟨u, hu, rfl⟩ := mem_map.mp hx
    have hparts := (forall_subterms_function.mp ht).2 u hu
    exact ih u hu hparts (hparts u u.self_mem_subterms)
  | unary op arg ih =>
    have hparts := (forall_subterms_unary.mp ht).2
    have harg := ih hparts (hparts arg arg.self_mem_subterms)
    cases op with
    | absolute => exact .absolute harg
    | negative =>
      rcases phrase_negative arg ν with ⟨n, rfl, hn, hphrase⟩ | ⟨-, x, rfl, hnumeral, hphrase⟩
      · have hrange : -2147483648 ≤ n ∧ n < 2147483648 := hparts _ (self_mem_subterms _)
        rw [hphrase]
        refine .negativeNumeral ?_
        rw [Text.toNat_ofNat]
        omega
      · rw [hphrase]
        refine .negative (formed_grouped harg)
          (Nat.le_of_lt_succ (level_grouped_lt (Nat.succ_pos _) fun h => ?_)) hnumeral
        rw [level_phrase (hparts arg arg.self_mem_subterms)]
        exact Nat.lt_of_le_of_lt (Nat.not_lt.mp (of_decide_eq_false h)) (by decide)
  | binary op left right ihl ihr =>
    obtain ⟨-, hl, hr⟩ := forall_subterms_binary.mp ht
    have hleft := hl left left.self_mem_subterms
    have hright := hr right right.self_mem_subterms
    have hop : op ≠ .power := hroot
    have hlevel := Nat.lt_of_lt_of_le Nat.zero_lt_two (TermPhrase.two_le_operatorLevel op)
    refine .binary hop (formed_grouped (ihl hl hleft)) (formed_grouped (ihr hr hright))
      (Nat.le_of_lt_succ (level_grouped_lt (Nat.succ_pos _) fun h => ?_))
      (level_grouped_lt hlevel fun h => ?_)
    · rw [Human.leftNeedsParentheses, if_neg hop] at h
      rw [level_phrase hleft]
      exact Nat.lt_succ_of_le (Nat.not_lt.mp (of_decide_eq_false h))
    · rw [Human.rightNeedsParentheses, if_neg hop] at h
      rw [level_phrase hright]
      exact Nat.not_le.mp (of_decide_eq_false h)
  | interval lower upper => exact hroot.elim

/-- A name that is no word of the grammar is not reserved. -/
theorem isReserved_name {name : Text} (h : name ∉ keywords) :
    Token.isReserved (.identifier, name) = false := by
  simp only [keywords, mem_cons, not_mem_nil, or_false, not_or] at h
  obtain ⟨hnot, -, -, hforall, hexists, htrue, hfalse⟩ := h
  rw [Token.isReserved, Token.isWord, Token.isWord, Token.isWord, Token.isWord, Token.isWord,
    beq_eq_false_iff_ne.mpr hnot, beq_eq_false_iff_ne.mpr hforall, beq_eq_false_iff_ne.mpr hexists,
    beq_eq_false_iff_ne.mpr htrue, beq_eq_false_iff_ne.mpr hfalse]
  rfl

/-- The first word of what is printed is not reserved, but for truth values. -/
theorem isReserved_first (ht : ∀ u ∈ t.subterms, u.Legible r) (hfirst : t.startsWithBoolean = false) :
    Token.isReserved (first (t.phrase ν).words) = false := by
  induction t with
  | integer n => rw [phrase]; split <;> rfl
  | boolean b => cases hfirst
  | function name args => rw [phrase_function]; exact isReserved_name (ht _ (self_mem_subterms _)).2.1
  | unary op arg =>
    cases op with
    | absolute => rfl
    | negative => rw [phrase, TermPhrase.words_negated]; rfl
  | binary op left right ihl =>
    rw [phrase, TermPhrase.words, Token.first_append (TermPhrase.words_ne_nil _)]
    cases hneeded : Human.leftNeedsParentheses op left with
    | true => rfl
    | false =>
      rw [startsWithBoolean, hneeded] at hfirst
      exact ihl (forall_subterms_binary.mp ht).2.1 hfirst
  | interval lower upper => exact (ht _ (self_mem_subterms _)).elim
  | _ => rfl

/-- The names that are printed are those of the variables. -/
theorem names_phrase_subset (t : Term) (ν : Variable → Text) : (t.phrase ν).names ⊆ t.vars.map ν := by
  induction t with
  | integer n =>
    rw [phrase]
    split <;> exact nil_subset _
  | var v => exact List.Subset.refl _
  | function name args ih =>
    rw [phrase_function, names, TermPhrase.namesOfAll_eq_flatMap, vars_function, flatMap_map, map_flatMap]
    intro name h
    obtain ⟨u, hu, h⟩ := mem_flatMap.mp h
    exact mem_flatMap.mpr ⟨u, hu, ih u hu h⟩
  | unary op arg ih =>
    cases op with
    | absolute => exact ih
    | negative =>
      rcases phrase_negative arg ν with ⟨n, rfl, -, hphrase⟩ | ⟨-, x, rfl, -, hphrase⟩
      · rw [hphrase]
        exact nil_subset _
      · rw [hphrase, names, names_grouped]
        exact ih
  | binary op left right ihl ihr =>
    rw [phrase, names, names_grouped, names_grouped, vars, map_append]
    exact append_subset.mpr ⟨fun _ h => mem_append_left _ (ihl h), fun _ h => mem_append_right _ (ihr h)⟩
  | _ => exact nil_subset _

/-- What is printed means the term, with the renamed variables. -/
theorem term_phrase {ρ : Variable → Variable} {scopes : List Scope} (ht : ∀ u ∈ t.subterms, u.Legible r)
    (hscopes : ∀ v ∈ t.vars, Scope.find? scopes (ν v) = some (ρ v)) :
    (t.phrase ν).term scopes = t.folded.renamed ρ := by
  induction t with
  | integer n =>
    have hvalue : (integer n).folded.renamed ρ = integer n := rfl
    rw [phrase, hvalue]
    split
    · rw [term, Text.toNat_ofNat]
      exact congrArg integer (by omega)
    · rw [term, Text.toNat_ofNat]
      exact congrArg integer (by omega)
  | boolean b => cases b <;> with_unfolding_all rfl
  | infimum | supremum => with_unfolding_all rfl
  | string s => rfl
  | var v =>
    have hv := hscopes v (mem_singleton.mpr rfl)
    rw [phrase, term, Scope.resolve, hv]
    rfl
  | function name args ih =>
    rw [phrase_function, folded_function, renamed, subst_function, term, TermPhrase.termOfAll_eq_map,
      map_map, map_map]
    refine congrArg (function name) (map_congr_left fun u hu => ?_)
    refine ih u hu ((forall_subterms_function.mp ht).2 u hu) fun v hv => hscopes v ?_
    rw [vars_function]
    exact mem_flatMap.mpr ⟨u, hu, hv⟩
  | unary op arg ih =>
    have hparts := (forall_subterms_unary.mp ht).2
    cases op with
    | absolute => exact congrArg (unary .absolute) (ih hparts hscopes)
    | negative =>
      rcases phrase_negative arg ν with ⟨n, rfl, hn, hphrase⟩ | ⟨hneg, x, rfl, -, hphrase⟩
      · rw [hphrase, term, Text.toNat_ofNat, Int.natAbs_of_nonneg hn, folded, if_pos hn]
        rfl
      · rw [hphrase, term, term_grouped, ih hparts hscopes, folded_negative hneg]
        rfl
  | binary op left right ihl ihr =>
    obtain ⟨-, hl, hr⟩ := forall_subterms_binary.mp ht
    obtain ⟨hleft, hright⟩ := forall_mem_append.mp hscopes
    rw [phrase, term, term_grouped, term_grouped, ihl hl hleft, ihr hr hright]
    rfl
  | interval lower upper => exact (ht _ (self_mem_subterms _)).elim

end Term

/-- A scope finds each variable that it lists by its name, if names differ. -/
theorem Scope.lookup_map {ν : Variable → Text} {ρ : Variable → Variable} {vs : List Variable} {v : Variable}
    (hν : ∀ w ∈ vs, ν w = ν v → w = v) :
    (vs.map fun w => (ν w, ρ w)).lookup (ν v) = if v ∈ vs then some (ρ v) else none := by
  induction vs with
  | nil => rfl
  | cons w vs ih =>
    obtain ⟨hw, hvs⟩ := forall_mem_cons.mp hν
    rw [map_cons, lookup_cons]
    by_cases heq : ν v = ν w
    · obtain rfl := hw heq.symm
      simp
    · rw [beq_eq_false_iff_ne.mpr heq]
      have hne : v ≠ w := fun h => heq (congrArg ν h)
      simp [ih hvs, hne]

namespace Formula

open FormulaPhrase (params_grouped formula_grouped freeNames_grouped formed_grouped level_grouped_lt
  exists_of_shape_grouped)

variable {f : Formula} {r : Registry} {ν : Variable → Text} {ρ : Variable → Variable}

theorem phrase_join (connective : Connective) (args : List Formula) : (join connective args).phrase ν ρ =
    .join connective (args.map fun f =>
      (f.phrase ν ρ).grouped (Human.connectiveLevel connective ≤ formulaLevel f)) :=
  congrArg (FormulaPhrase.join connective) (members_eq_map ν ρ _ args)

/-- The levels of what is printed are those of the formulas. -/
theorem level_phrase (f : Formula) (ν : Variable → Text) (ρ : Variable → Variable) :
    (f.phrase ν ρ).level = if formulaLevel f ≤ 1 then 5
      else if formulaLevel f ≤ 3 then formulaLevel f + 4 else formulaLevel f + 5 := by
  cases f with
  | join connective args => cases connective <;> rfl
  | _ => rfl

/-- What a connective joins binds more tightly, or stands in parentheses. -/
theorem level_member_lt (connective : Connective) (f : Formula) :
    ((f.phrase ν ρ).grouped (Human.connectiveLevel connective ≤ formulaLevel f)).level <
      connectiveLevel connective := by
  refine level_grouped_lt (by cases connective <;> decide) fun h => ?_
  have hlevel := of_decide_eq_false h
  rw [level_phrase]
  cases connective <;> simp only [Human.connectiveLevel, connectiveLevel] at hlevel ⊢ <;>
    split_ifs <;> omega

/-- The sides of an arrow bind more tightly, or stand in parentheses. -/
theorem level_side_lt (f : Formula) : ((f.phrase ν ρ).grouped (4 ≤ formulaLevel f)).level < 8 := by
  refine level_grouped_lt (by decide) fun h => ?_
  have hlevel := of_decide_eq_false h
  rw [level_phrase]
  split_ifs <;> omega

/-- What a word stands before binds as tightly, or stands in parentheses. -/
theorem level_operand_lt {f : Formula} {needed : Bool} (h : needed = false → formulaLevel f ≤ 1) :
    ((f.phrase ν ρ).grouped needed).level < 6 := by
  refine level_grouped_lt (by decide) fun hneeded => ?_
  rw [level_phrase, if_pos (h hneeded)]
  decide

/-- The body of a quantifier is no comparison, or stands in parentheses. -/
theorem bodyNeedsParentheses_eq_false {f : Formula} (h : Human.bodyNeedsParentheses f = false) :
    formulaLevel f ≤ 1 ∧ ∀ op left right, f ≠ .compare op left right := by
  cases f with
  | compare op left right => cases h
  | _ => exact ⟨Nat.not_lt.mp (of_decide_eq_false h), fun _ _ _ h => nomatch h⟩

/-- The body of a quantifier does not start with a variable. -/
theorem first_body_ne (f : Formula) :
    (first ((f.phrase ν ρ).grouped (Human.bodyNeedsParentheses f)).words).1 ≠ .variable := by
  cases hneeded : Human.bodyNeedsParentheses f with
  | true => exact fun h => nomatch h
  | false =>
    obtain ⟨hlevel, hcompare⟩ := bodyNeedsParentheses_eq_false hneeded
    cases f with
    | compare op left right => exact absurd rfl (hcompare op left right)
    | implies => exact absurd hlevel (Nat.not_le_of_lt (by decide : 1 < 4))
    | join connective =>
      have hconnective : 1 < Human.connectiveLevel connective := by cases connective <;> decide
      exact absurd hlevel (Nat.not_le_of_lt hconnective)
    | _ => exact fun h => nomatch h

/-- The language has what is printed. -/
theorem formed_phrase (hf : ∀ g ∈ f.subformulas, g.Legible r)
    (hν : ∀ v ∈ f.binders, ∀ w ∈ f.binders, ν v = ν w → v = w) :
    (f.phrase ν ρ).Formed := by
  have hroot := hf f f.self_mem_subformulas
  induction f with
  | boolean b => exact .truth true b
  | compare op left right =>
    obtain ⟨hfirst, hl, hr⟩ := hroot
    exact .chain (Term.formed_phrase hl) (Term.isReserved_first hl hfirst) (cons_ne_nil _ _)
      (forall_mem_singleton.mpr (Term.formed_phrase hr))
  | atom name args =>
    obtain ⟨hname, hkeyword, -, hargs⟩ := hroot
    refine .atom hname (Term.isReserved_name hkeyword) fun x hx => ?_
    obtain ⟨t, ht, rfl⟩ := mem_map.mp hx
    exact Term.formed_phrase (hargs t ht)
  | not arg ih =>
    have hparts := (forall_subformulas_not.mp hf).2
    refine .not (formed_grouped (ih hparts hν (hparts arg arg.self_mem_subformulas)))
      (Nat.le_of_lt_succ (level_operand_lt fun h => ?_))
    exact Nat.not_lt.mp (of_decide_eq_false h)
  | implies a c iha ihc =>
    obtain ⟨-, ha, hc⟩ := forall_subformulas_implies.mp hf
    have hνa := fun v hv w hw => hν v (mem_append_left _ hv) w (mem_append_left _ hw)
    have hνc := fun v hv w hw => hν v (mem_append_right _ hv) w (mem_append_right _ hw)
    exact .implies (formed_grouped (iha ha hνa (ha a a.self_mem_subformulas)))
      (formed_grouped (ihc hc hνc (hc c c.self_mem_subformulas)))
      (Nat.le_of_lt_succ (level_side_lt a)) (Nat.le_of_lt (Nat.lt_trans (level_side_lt c) (by decide)))
  | join connective args ih =>
    have hlength : 2 ≤ args.length := hroot
    rw [phrase_join]
    refine .join (by rwa [length_map]) ?_ ?_
    · intro x hx
      obtain ⟨f, hmem, rfl⟩ := mem_map.mp hx
      have hparts := (forall_subformulas_join.mp hf).2 f hmem
      have hbinders : f.binders ⊆ (join connective args).binders := fun v hv => by
        rw [binders_join]
        exact mem_flatMap.mpr ⟨f, hmem, hv⟩
      exact formed_grouped (ih f hmem hparts (fun v hv w hw => hν v (hbinders hv) w (hbinders hw))
        (hparts f f.self_mem_subformulas))
    · intro x hx
      obtain ⟨f, -, rfl⟩ := mem_map.mp hx
      exact level_member_lt connective f
  | quantified q params body ih =>
    have hparts := (forall_subformulas_quantified.mp hf).2
    have hνbody := fun v hv w hw => hν v (mem_append_right _ hv) w (mem_append_right _ hw)
    refine .quantified (formed_grouped (ih hparts hνbody (hparts body body.self_mem_subformulas)))
      (Nat.le_of_lt_succ (level_operand_lt fun h => (bodyNeedsParentheses_eq_false h).1)) ?_ ?_
        (first_body_ne body)
    · simpa using hroot.1
    · rw [map_map]
      refine (nodup_map_iff_inj_on hroot.2.1).mpr fun v hv w hw => ?_
      exact hν v (mem_append_left _ hv) w (mem_append_left _ hw)

/-- The names of quantifiers stand for the renamed variables. -/
theorem params_phrase (f : Formula) (ν : Variable → Text) (ρ : Variable → Variable) :
    (f.phrase ν ρ).params = f.binders.map fun v => (ν v, ρ v) := by
  induction f with
  | not arg ih => exact params_grouped.trans ih
  | implies a c iha ihc =>
    rw [phrase, FormulaPhrase.params, params_grouped, params_grouped, iha, ihc, binders,
      map_append]
  | join connective args ih =>
    rw [phrase_join, FormulaPhrase.params, FormulaPhrase.paramsOfAll_eq_flatMap, binders_join, flatMap_map,
      map_flatMap]
    exact flatMap_congr fun f hf => params_grouped.trans (ih f hf)
  | quantified q params body ih =>
    rw [phrase, FormulaPhrase.params, params_grouped, ih, binders, map_append]
  | _ => rfl

/-- Names that no quantifier lists are those of free variables. -/
theorem exists_free_of_mem_freeNames {name : Text} (h : name ∈ (f.phrase ν ρ).freeNames) :
    ∃ v ∈ f.freeVariables, ν v = name := by
  induction f with
  | boolean b => cases h
  | compare op left right =>
    simp only [mem_freeVariables_compare, or_and_right, exists_or]
    rw [phrase, freeNames, flatMap_singleton] at h
    exact (mem_append.mp h).imp (fun h => mem_map.mp (Term.names_phrase_subset _ _ h))
      fun h => mem_map.mp (Term.names_phrase_subset _ _ h)
  | atom name args =>
    obtain ⟨x, hx, h⟩ := mem_flatMap.mp h
    obtain ⟨t, ht, rfl⟩ := mem_map.mp hx
    obtain ⟨v, hv, heq⟩ := mem_map.mp (Term.names_phrase_subset _ _ h)
    exact ⟨v, mem_freeVariables_atom.mpr ⟨t, ht, hv⟩, heq⟩
  | not arg ih =>
    rw [phrase, freeNames, freeNames_grouped] at h
    simpa only [mem_freeVariables_not] using ih h
  | implies a c iha ihc =>
    rw [phrase, freeNames, freeNames_grouped, freeNames_grouped] at h
    simp only [mem_freeVariables_implies, or_and_right, exists_or]
    exact (mem_append.mp h).imp iha ihc
  | join connective args ih =>
    rw [phrase_join, freeNames, FormulaPhrase.freeNamesOfAll_eq_flatMap, flatMap_map] at h
    obtain ⟨f, hf, h⟩ := mem_flatMap.mp h
    rw [freeNames_grouped] at h
    obtain ⟨v, hv, heq⟩ := ih f hf h
    exact ⟨v, mem_freeVariables_join.mpr ⟨f, hf, hv⟩, heq⟩
  | quantified q params body ih =>
    rw [phrase, freeNames, freeNames_grouped] at h
    obtain ⟨h, hnone⟩ := mem_filter.mp h
    obtain ⟨v, hv, rfl⟩ := ih h
    refine ⟨v, mem_freeVariables_quantified.mpr ⟨hv, fun hmem => ?_⟩, rfl⟩
    rw [Option.isNone_iff_eq_none, lookup_eq_none_iff] at hnone
    exact absurd rfl (bne_iff_ne.mp (hnone _ (mem_map.mpr ⟨v, hmem, rfl⟩)))

/-- What is printed means the formula, with the renamed variables. -/
theorem formula_phrase {scopes : List Scope} (hf : ∀ g ∈ f.subformulas, g.Legible r) {vs : List Variable}
    (hν : ∀ v ∈ vs, ∀ w ∈ vs, ν v = ν w → v = w) (hvs : f.binders ⊆ vs)
    (hfree : ∀ v ∈ f.freeVariables, v ∈ vs ∧ Scope.find? scopes (ν v) = some (ρ v)) :
    (f.phrase ν ρ).formula scopes = f.folded.renamed ρ := by
  have hroot := hf f f.self_mem_subformulas
  induction f generalizing scopes with
  | boolean b => rfl
  | compare op left right =>
    obtain ⟨-, hl, hr⟩ := hroot
    have hleft := Term.term_phrase hl fun v hv => (hfree v (mem_freeVariables_compare.mpr (.inl hv))).2
    have hright := Term.term_phrase hr fun v hv => (hfree v (mem_freeVariables_compare.mpr (.inr hv))).2
    exact congrArg₂ (compare op) hleft hright
  | atom name args =>
    obtain ⟨-, -, -, hargs⟩ := hroot
    rw [phrase, formula, folded, renamed, map_map, map_map]
    refine congrArg (atom name) (map_congr_left fun t ht => Term.term_phrase (hargs t ht) fun v hv => ?_)
    exact (hfree v (mem_freeVariables_atom.mpr ⟨t, ht, hv⟩)).2
  | not arg ih =>
    have hparts := (forall_subformulas_not.mp hf).2
    rw [phrase, formula, formula_grouped]
    exact congrArg Formula.not (ih hparts hvs (fun v hv => hfree v (mem_freeVariables_not.mpr hv))
      (hparts arg arg.self_mem_subformulas))
  | implies a c iha ihc =>
    obtain ⟨-, ha, hc⟩ := forall_subformulas_implies.mp hf
    obtain ⟨hva, hvc⟩ := append_subset.mp hvs
    rw [phrase, formula, formula_grouped, formula_grouped]
    exact congrArg₂ implies
      (iha ha hva (fun v hv => hfree v (mem_freeVariables_implies.mpr (.inl hv)))
        (ha a a.self_mem_subformulas))
      (ihc hc hvc (fun v hv => hfree v (mem_freeVariables_implies.mpr (.inr hv)))
        (hc c c.self_mem_subformulas))
  | join connective args ih =>
    rw [phrase_join, formula, FormulaPhrase.formulaOfAll_eq_map, folded, foldedAll_eq_map, renamed,
      renamedAll_eq_map, map_map, map_map]
    refine congrArg (join connective) (map_congr_left fun f hmem => ?_)
    have hparts := (forall_subformulas_join.mp hf).2 f hmem
    refine (formula_grouped scopes).trans (ih f hmem hparts (fun v hv => hvs ?_) (fun v hv => hfree v ?_)
      (hparts f f.self_mem_subformulas))
    · rw [binders_join]
      exact mem_flatMap.mpr ⟨f, hmem, hv⟩
    · exact mem_freeVariables_join.mpr ⟨f, hmem, hv⟩
  | quantified q params body ih =>
    have hparts := (forall_subformulas_quantified.mp hf).2
    obtain ⟨hparams, hbody⟩ := append_subset.mp hvs
    have hbodyFree : ∀ v ∈ body.freeVariables, v ∈ vs ∧
        Scope.find? ((params.map fun v => (ν v, ρ v)) :: scopes) (ν v) = some (ρ v) := by
      intro v hv
      rw [Scope.find?_cons]
      by_cases hmem : v ∈ params
      · refine ⟨hparams hmem, ?_⟩
        rw [Scope.lookup_map fun w hw => hν w (hparams hw) v (hparams hmem), if_pos hmem, Option.some_or]
      · obtain ⟨hin, hfind⟩ := hfree v (mem_freeVariables_quantified.mpr ⟨hv, hmem⟩)
        refine ⟨hin, ?_⟩
        rw [Scope.lookup_map fun w hw => hν w (hparams hw) v hin, if_neg hmem, Option.none_or, hfind]
    have hvalue := ih hparts hbody hbodyFree (hparts body body.self_mem_subformulas)
    have hnames : (params.map fun v => (ν v, ρ v)).map (·.2) = params.map ρ := by simp
    rw [phrase, formula, formula_grouped, hvalue, hnames]
    rfl

/-- A phrase of the shape of what is printed is that, up to variables. -/
theorem eq_phrase_of_shape {y : FormulaPhrase} (h : y.shape = (f.phrase ν id).shape) :
    y.params.map (·.1) = f.binders.map ν ∧ (y.params.map (·.2) = f.binders.map ρ → y = f.phrase ν ρ) := by
  induction f generalizing y with
  | not arg ih =>
    cases y with
    | not z =>
      obtain ⟨w, rfl, hw⟩ := exists_of_shape_grouped (FormulaPhrase.not.inj h)
      rw [FormulaPhrase.params, params_grouped]
      refine ⟨(ih hw).1, fun hρ => ?_⟩
      rw [(ih hw).2 hρ]
      rfl
    | _ => cases h
  | implies a c iha ihc =>
    cases y with
    | implies y z =>
      obtain ⟨hy, hz⟩ := FormulaPhrase.implies.inj h
      obtain ⟨v, rfl, hv⟩ := exists_of_shape_grouped hy
      obtain ⟨w, rfl, hw⟩ := exists_of_shape_grouped hz
      obtain ⟨hleft, hleftEq⟩ := iha hv
      obtain ⟨hright, hrightEq⟩ := ihc hw
      have hlength : (v.params.map (·.2)).length = (a.binders.map ρ).length := by
        simpa using congrArg List.length hleft
      rw [FormulaPhrase.params, params_grouped, params_grouped, binders, map_append,
        map_append, map_append, map_append, hleft, hright]
      refine ⟨rfl, fun hρ => ?_⟩
      obtain ⟨hl, hr⟩ := append_inj hρ hlength
      rw [hleftEq hl, hrightEq hr]
      rfl
    | _ => cases h
  | join connective args ih =>
    cases y with
    | join connective' ys =>
      rw [phrase_join] at h ⊢
      obtain ⟨rfl, hys⟩ := FormulaPhrase.join.inj h
      rw [shapeOfAll_eq_map, shapeOfAll_eq_map, map_map] at hys
      rw [FormulaPhrase.params, FormulaPhrase.paramsOfAll_eq_flatMap, binders_join]
      clear h
      -- the parameters of each member come after those of the members before it
      induction args generalizing ys with
      | nil =>
        obtain rfl := map_eq_nil_iff.mp hys
        exact ⟨rfl, fun _ => rfl⟩
      | cons f args ihargs =>
        obtain ⟨y, zs, rfl, hy, hzs⟩ := map_eq_cons_iff.mp hys
        obtain ⟨hf, hargs⟩ := forall_mem_cons.mp ih
        obtain ⟨w, rfl, hw⟩ := exists_of_shape_grouped hy
        obtain ⟨hfirst, hfirstEq⟩ := hf hw
        obtain ⟨hrest, hrestEq⟩ := ihargs hargs zs hzs
        rw [flatMap_cons, flatMap_cons, params_grouped, map_append, map_append,
          map_append, map_append, hfirst, hrest]
        refine ⟨rfl, fun hρ => ?_⟩
        obtain ⟨hl, hr⟩ := append_inj hρ (by simpa using congrArg List.length hfirst)
        rw [hfirstEq hl, map_cons, (FormulaPhrase.join.inj (hrestEq hr)).2]
    | _ => cases h
  | quantified q params body ih =>
    cases y with
    | quantified q' scope z =>
      obtain ⟨rfl, hscope, hz⟩ := FormulaPhrase.quantified.inj h
      obtain ⟨w, rfl, hw⟩ := exists_of_shape_grouped hz
      obtain ⟨hbody, hbodyEq⟩ := ih hw
      have hnames : scope.map (·.1) = params.map ν := by
        have hfirst := congrArg (List.map (·.1)) hscope
        simpa [Function.comp_def] using hfirst
      rw [FormulaPhrase.params, params_grouped, binders, map_append, map_append, map_append,
        map_append, hnames, hbody]
      refine ⟨rfl, fun hρ => ?_⟩
      obtain ⟨hparams, hrest⟩ := append_inj hρ (by simpa using congrArg List.length hnames)
      have hzip : scope = params.map fun v => (ν v, ρ v) := by
        rw [← zip_unzip scope, unzip_eq_map, hnames, hparams, zip_map']
      rw [hbodyEq hrest, hzip]
      rfl
    | _ => cases h
  | boolean b =>
    cases y with
    | truth => exact ⟨rfl, fun _ => h⟩
    | _ => cases h
  | compare op left right =>
    cases y with
    | chain => exact ⟨rfl, fun _ => h⟩
    | _ => cases h
  | atom name args =>
    cases y with
    | atom => exact ⟨rfl, fun _ => h⟩
    | _ => cases h

/-- Different elements can be given any others. -/
theorem exists_map_eq {vs ws : List Variable} (hvs : vs.Nodup) (hlength : ws.length = vs.length) :
    ∃ ρ : Variable → Variable, vs.map ρ = ws := by
  refine ⟨fun v => ws.getD (vs.idxOf v) 0, ext_getElem (by rw [length_map, hlength]) fun i hi hi' => ?_⟩
  rw [length_map] at hi
  rw [getElem_map, hvs.idxOf_getElem i hi, getD_eq_getElem?_getD, getElem?_eq_getElem hi', Option.getD_some]

/-- A printed closed formula is read as the formula up to its variables. -/
theorem parse_phrase {t : Text} (hf : ∀ g ∈ f.subformulas, g.Legible r) (hclosed : f.freeVariables = [])
    (hdistinct : f.binders.Nodup) (hν : r.Names ν f.binders) (ht : Token.Spells t (f.phrase ν id).words) :
    ∃ ρ r', Returns (Formula.parse t) r (f.folded.renamed ρ) r' ∧
      (∀ v ∈ f.binders, ∀ w ∈ f.binders, ρ v = ρ w → v = w) ∧
      ∀ v ∈ f.binders, r'.variableDomain (ρ v) = r.variableDomain v := by
  have hformed : (f.phrase ν id).Formed := formed_phrase hf hν.distinct
  have hnames : (f.phrase ν id).freeNames = [] := eq_nil_iff_forall_not_mem.mpr fun name hname => by
    obtain ⟨v, hv, -⟩ := exists_free_of_mem_freeNames hname
    rw [hclosed] at hv
    cases hv
  have hadmissible : Admissible (f.phrase ν id).words := by
    refine FormulaPhrase.admissible_of_closed hformed hnames fun name hname => ?_
    rw [params_phrase, map_map] at hname
    obtain ⟨v, hv, rfl⟩ := mem_map.mp hname
    obtain ⟨domain, -, hdomain⟩ := hν.domain v hv
    rw [Function.comp_apply, hdomain]
    rfl
  have hread := FormulaParser.meets_wholeFormula_closed (r := r) hformed hadmissible hnames (Nat.le_succ _)
  rcases FormulaParser.meets_onText ht.all hread with ⟨g, c, -, hreturns, y, hshape, hy⟩ | ⟨e, r', -, h⟩
  swap
  · exact h.elim
  obtain ⟨hlisted, -⟩ := eq_phrase_of_shape (ρ := id) hshape
  have hlength : (y.params.map (·.2)).length = f.binders.length := by simpa using congrArg List.length hlisted
  obtain ⟨ρ, hρ⟩ := exists_map_eq hdistinct hlength
  obtain rfl := (eq_phrase_of_shape hshape).2 hρ.symm
  have hvalue : g = f.folded.renamed ρ := by
    rw [hy.value]
    refine formula_phrase hf hν.distinct (List.Subset.refl _) fun v hv => ?_
    rw [hclosed] at hv
    cases hv
  have hinjective : (f.binders.map ρ).Nodup := by
    rw [hρ]
    have hbinders := FormulaPhrase.binders_formula hy.formed []
    rw [← hy.value] at hbinders
    exact hbinders.nodup_iff.mp hy.distinct
  refine ⟨ρ, c.registry, hvalue ▸ hreturns, fun v hv w hw => inj_on_of_nodup_map hinjective hv hw,
    fun v hv => ?_⟩
  have hparam : (ν v, ρ v) ∈ (f.phrase ν ρ).params := by
    rw [params_phrase]
    exact mem_map.mpr ⟨v, hv, rfl⟩
  obtain ⟨domain, hdomain, -, hdeclaration⟩ := hy.declared _ hparam
  obtain ⟨domain', hdomain', hname⟩ := hν.domain v hv
  rw [Registry.variableDomain, hdeclaration, hdomain']
  rw [hname] at hdomain
  rw [Except.ok.inj hdomain]

end Formula

end LogicProgram
