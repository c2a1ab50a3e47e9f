import LogicProgram.Formula.Copy
import LogicProgram.Proofs.Formula.Sorts

/-!
# Formulas up to bound variables

Two formulas are alike up to bound variables if they differ only in the variables of
their quantifiers and in what these bind.
-/

namespace LogicProgram

open List

universe u

variable {s t : Term} {f g : Formula} {bound bound' : List Variable}

namespace Renaming

/-- Below paired variables of quantifiers, the nearest first, two variables are bound by
the same pair or they are one variable that none of them binds. -/
inductive Pairs : Renaming → Variable → Variable → Prop
  | free (v : Variable) : Pairs [] v v
  | here (ρ : Renaming) (v w : Variable) : Pairs ((v, w) :: ρ) v w
  | there {ρ : Renaming} {v w x y : Variable} (hx : x ≠ v) (hy : y ≠ w) (h : Pairs ρ x y) :
    Pairs ((v, w) :: ρ) x y

variable {ρ : Renaming} {x y : Variable}

theorem Pairs.bound_iff (h : ρ.Pairs x y) : x ∈ ρ.map Prod.fst ↔ y ∈ ρ.map Prod.snd := by
  induction h with
  | free v => simp
  | here ρ v w => simp
  | there hx hy _ ih => simpa [hx, hy] using ih

theorem Pairs.eq_of_not_bound (h : ρ.Pairs x y) (hx : x ∉ ρ.map Prod.fst) : x = y := by
  induction h with
  | free v => rfl
  | here ρ v w => simp at hx
  | there _ _ _ ih => exact ih fun hmem => hx (mem_cons_of_mem _ hmem)

/-- What is free on both sides is the same. -/
theorem Pairs.filter_eq {vs ws : List Variable} (h : Forall₂ ρ.Pairs vs ws)
    (hbound : ∀ v, v ∈ bound ↔ v ∈ ρ.map Prod.fst)
    (hbound' : ∀ w, w ∈ bound' ↔ w ∈ ρ.map Prod.snd) :
    ws.filter (!bound'.contains ·) = vs.filter (!bound.contains ·) := by
  induction h with
  | nil => rfl
  | @cons x y vs ws hxy _ ih =>
    have hiff : x ∈ bound ↔ y ∈ bound' := by
      rw [hbound, hbound']
      exact hxy.bound_iff
    by_cases hx : x ∈ bound
    · rw [filter_cons_of_neg (by simpa using hiff.mp hx),
        filter_cons_of_neg (by simpa using hx), ih]
    · rw [filter_cons_of_pos (by simpa using hiff.not.mp hx),
        filter_cons_of_pos (by simpa using hx), ih,
        hxy.eq_of_not_bound ((hbound x).not.mp hx)]

/-- Paired variables have the same value if those in their places have. -/
theorem Pairs.eq_of_zip {β : Type} {φ : Variable → β} {vs ws : List Variable}
    (hmap : vs.map φ = ws.map φ) (hρ : ∀ x y, ρ.Pairs x y → φ x = φ y)
    (h : Pairs ((vs.zip ws).reverse ++ ρ) x y) : φ x = φ y := by
  induction vs generalizing ws ρ with
  | nil => exact hρ x y h
  | cons v vs ih =>
    cases ws with
    | nil => cases hmap
    | cons w ws =>
      rw [map_cons, map_cons, cons_eq_cons] at hmap
      rw [zip_cons_cons, reverse_cons, append_assoc] at h
      refine ih hmap.2 (fun x y hxy => ?_) h
      cases hxy with
      | here => exact hmap.1
      | there _ _ hxy => exact hρ x y hxy

end Renaming

namespace Term

/-- Two terms are the same but for variables that are paired. -/
inductive AlphaEq (ρ : Renaming) : Term → Term → Prop
  | integer (n : Int) : AlphaEq ρ (.integer n) (.integer n)
  | boolean (b : Bool) : AlphaEq ρ (.boolean b) (.boolean b)
  | string (s : Text) : AlphaEq ρ (.string s) (.string s)
  | infimum : AlphaEq ρ .infimum .infimum
  | supremum : AlphaEq ρ .supremum .supremum
  | var {v w : Variable} (h : ρ.Pairs v w) : AlphaEq ρ (.variable v) (.variable w)
  | function {name : Text} {ts ss : List Term} (h : Forall₂ (AlphaEq ρ) ts ss) :
    AlphaEq ρ (.function name ts) (.function name ss)
  | binary {op : Operator} {a b a' b' : Term} (ha : AlphaEq ρ a a') (hb : AlphaEq ρ b b') :
    AlphaEq ρ (.binary op a b) (.binary op a' b')
  | unary {op : UnaryOperator} {a a' : Term} (ha : AlphaEq ρ a a') :
    AlphaEq ρ (.unary op a) (.unary op a')
  | interval {a b a' b' : Term} (ha : AlphaEq ρ a a') (hb : AlphaEq ρ b b') :
    AlphaEq ρ (.interval a b) (.interval a' b')

variable {ρ : Renaming}

/-- Variables of several terms are paired if those of each are. -/
theorem forall₂_varsOfAll {ts ss : List Term}
    (ih : ∀ t ∈ ts, ∀ s, t.AlphaEq ρ s → Forall₂ ρ.Pairs t.vars s.vars)
    (h : Forall₂ (AlphaEq ρ) ts ss) : Forall₂ ρ.Pairs (varsOfAll ts) (varsOfAll ss) := by
  induction h with
  | nil => exact .nil
  | cons hts _ ihs =>
    exact rel_append (ih _ mem_cons_self _ hts)
      (ihs fun t ht => ih t (mem_cons_of_mem _ ht))

/-- Several such terms have the same values if each two have. -/
theorem map_value_eq {I : Interpretation.{u}} {σ τ : Valuation I} {ts ss : List Term}
    (ih : ∀ t ∈ ts, ∀ s, t.AlphaEq ρ s → t.value I σ = s.value I τ) (h : Forall₂ (AlphaEq ρ) ts ss) :
    ts.map (·.value I σ) = ss.map (·.value I τ) := by
  induction h with
  | nil => rfl
  | cons hts _ ihs => exact congrArg₂ cons (ih _ mem_cons_self _ hts) (ihs fun t ht => ih t (mem_cons_of_mem _ ht))

/-- The variables of such terms are paired one by one. -/
theorem AlphaEq.forall₂_vars (h : t.AlphaEq ρ s) : Forall₂ ρ.Pairs t.vars s.vars := by
  induction t generalizing s with
  | var v =>
    cases h with
    | var h => exact .cons h .nil
  | function name ts ih =>
    cases h with
    | function h => exact forall₂_varsOfAll (fun t ht s => ih t ht) h
  | binary op left right ihl ihr =>
    cases h with
    | binary ha hb => exact rel_append (ihl ha) (ihr hb)
  | unary op arg ih =>
    cases h with
    | unary harg =>
      have hvars := ih harg
      exact hvars
  | interval lower upper ihl ihu =>
    cases h with
    | interval ha hb => exact rel_append (ihl ha) (ihu hb)
  | _ =>
    cases h
    exact .nil

/-- Such terms have the same value if paired variables have. -/
theorem AlphaEq.value_eq {I : Interpretation.{u}} {σ τ : Valuation I} (h : t.AlphaEq ρ s)
    (hρ : ∀ x y, ρ.Pairs x y → σ x = τ y) : t.value I σ = s.value I τ := by
  induction t generalizing s with
  | var v =>
    cases h with
    | var h => exact hρ _ _ h
  | function name ts ih =>
    cases h with
    | function h =>
      rw [value_function, value_function, map_value_eq (fun t ht _ => ih t ht) h]
  | binary op left right ihl ihr =>
    cases h with
    | binary ha hb => exact congrArg₂ (I.binary op) (ihl ha) (ihr hb)
  | unary op arg ih =>
    cases h with
    | unary harg => exact congrArg (I.unary op) (ih harg)
  | interval lower upper ihl ihu =>
    cases h with
    | interval ha hb => exact congrArg₂ I.interval (ihl ha) (ihu hb)
  | _ =>
    cases h
    rfl

/-- Such terms are sorted alike if paired variables have the same domains. -/
theorem AlphaEq.sorted {R : Registry} (h : t.AlphaEq ρ s)
    (hρ : ∀ x y, ρ.Pairs x y → R.variableDomain x = R.variableDomain y) (ht : t.Sorted R) :
    s.Sorted R ∧ (R.isArithmetic t = .ok true → R.isArithmetic s = .ok true) := by
  induction t generalizing s with
  | var v =>
    cases h with
    | var h =>
      rw [Sorted, Registry.isArithmetic_variable_iff, Registry.isArithmetic_variable_iff, ← hρ _ _ h]
      exact ⟨ht, id⟩
  | function name ts ih =>
    obtain rfl : ts = [] := ht
    cases h with
    | function h =>
      cases h
      exact ⟨rfl, id⟩
  | binary op left right ihl ihr =>
    obtain ⟨hop, ⟨hl, hlarith⟩, hr, hrarith⟩ := ht
    cases h with
    | binary ha hb =>
      have hleft := ihl ha hl
      have hright := ihr hb hr
      exact ⟨⟨hop, ⟨hleft.1, hleft.2 hlarith⟩, hright.1, hright.2 hrarith⟩,
        fun _ => Registry.isArithmetic_binary (hleft.2 hlarith) (hright.2 hrarith)⟩
  | unary op arg ih =>
    obtain ⟨hop, harg, harith⟩ := ht
    cases h with
    | unary ha => exact ⟨⟨hop, (ih ha harg).1, (ih ha harg).2 harith⟩, fun _ => (ih ha harg).2 harith⟩
  | interval lower upper ihl ihu => exact ht.elim
  | _ =>
    cases h
    exact ⟨ht, id⟩

/-- A renamed term is the same if the renaming pairs variables. -/
theorem alphaEq_rename {ν : Renaming} (h : ∀ v ∈ t.vars, ρ.Pairs v (ν.apply v)) :
    t.AlphaEq ρ (t.rename ν) := by
  induction t with
  | integer n => exact .integer n
  | boolean b => exact .boolean b
  | string s => exact .string s
  | infimum => exact .infimum
  | supremum => exact .supremum
  | var v => exact .var (h v mem_cons_self)
  | function name ts ih =>
    rw [vars_function] at h
    refine .function ?_
    induction ts with
    | nil => exact .nil
    | cons t ts ihs =>
      refine .cons (ih t mem_cons_self fun v hv => h v ?_)
        (ihs (fun s hs => ih s (mem_cons_of_mem _ hs)) fun v hv => h v ?_)
      · exact mem_append_left _ hv
      · exact mem_append_right _ hv
  | binary op left right ihl ihr =>
    exact .binary (ihl fun v hv => h v (mem_append_left _ hv))
      (ihr fun v hv => h v (mem_append_right _ hv))
  | unary op arg ih => exact .unary (ih h)
  | interval lower upper ihl ihu =>
    exact .interval (ihl fun v hv => h v (mem_append_left _ hv))
      (ihu fun v hv => h v (mem_append_right _ hv))

end Term

namespace Formula

mutual

/-- Two formulas are the same but for the variables that their quantifiers bind. Of a
variable that a quantifier lists twice the last place counts. -/
inductive AlphaEq : Renaming → Formula → Formula → Prop
  | boolean {ρ : Renaming} (b : Bool) : AlphaEq ρ (.boolean b) (.boolean b)
  | compare {ρ : Renaming} {op : Comparison} {a b a' b' : Term} (ha : a.AlphaEq ρ a')
    (hb : b.AlphaEq ρ b') : AlphaEq ρ (.compare op a b) (.compare op a' b')
  | atom {ρ : Renaming} {name : Text} {ts ss : List Term}
    (h : Forall₂ (Term.AlphaEq ρ) ts ss) : AlphaEq ρ (.atom name ts) (.atom name ss)
  | not {ρ : Renaming} {f g : Formula} (h : AlphaEq ρ f g) : AlphaEq ρ (.not f) (.not g)
  | implies {ρ : Renaming} {a c a' c' : Formula} (ha : AlphaEq ρ a a') (hc : AlphaEq ρ c c') :
    AlphaEq ρ (.implies a c) (.implies a' c')
  | join {ρ : Renaming} {connective : Connective} {fs gs : List Formula}
    (h : AlphaEqAll ρ fs gs) : AlphaEq ρ (.join connective fs) (.join connective gs)
  | quantified {ρ : Renaming} {q : Quantifier} {vs ws : List Variable} {f g : Formula}
    (hlen : vs.length = ws.length) (h : AlphaEq ((vs.zip ws).reverse ++ ρ) f g) :
    AlphaEq ρ (.quantified q vs f) (.quantified q ws g)

/-- As many formulas are the same in this way, each as the one in its place. -/
inductive AlphaEqAll : Renaming → List Formula → List Formula → Prop
  | nil {ρ : Renaming} : AlphaEqAll ρ [] []
  | cons {ρ : Renaming} {f g : Formula} {fs gs : List Formula} (h : AlphaEq ρ f g)
    (hrest : AlphaEqAll ρ fs gs) : AlphaEqAll ρ (f :: fs) (g :: gs)

end

variable {ρ : Renaming}

/-- Several such formulas have the same free occurrences if each two have. -/
theorem AlphaEqAll.freeOccurrencesInAll_eq {fs gs : List Formula}
    (ih : ∀ f ∈ fs, ∀ g, f.AlphaEq ρ g → g.freeOccurrences bound' = f.freeOccurrences bound)
    (h : AlphaEqAll ρ fs gs) : freeOccurrencesInAll bound' gs = freeOccurrencesInAll bound fs := by
  induction fs generalizing gs with
  | nil =>
    cases h
    rfl
  | cons f fs ihs =>
    cases h with
    | cons hfg hrest =>
      exact congrArg₂ (· ++ ·) (ih f mem_cons_self _ hfg)
        (ihs (fun f hf => ih f (mem_cons_of_mem _ hf)) hrest)

/-- Such formulas have the same free occurrences below paired quantifiers. -/
theorem AlphaEq.freeOccurrences_eq
    (h : f.AlphaEq ρ g) (hbound : ∀ v, v ∈ bound ↔ v ∈ ρ.map Prod.fst)
    (hbound' : ∀ w, w ∈ bound' ↔ w ∈ ρ.map Prod.snd) :
    g.freeOccurrences bound' = f.freeOccurrences bound := by
  induction f generalizing ρ g bound bound' with
  | boolean b =>
    cases h
    rfl
  | compare op left right =>
    cases h with
    | compare ha hb =>
      have hvars := rel_append ha.forall₂_vars hb.forall₂_vars
      exact Renaming.Pairs.filter_eq hvars hbound hbound'
  | atom name args =>
    cases h with
    | atom hargs =>
      have hvars := Term.forall₂_varsOfAll (fun _ _ _ hts => hts.forall₂_vars) hargs
      exact Renaming.Pairs.filter_eq hvars hbound hbound'
  | not f ih =>
    cases h with
    | not h =>
      have hbody := ih h hbound hbound'
      exact hbody
  | implies a c iha ihc =>
    cases h with
    | implies ha hc =>
      exact congrArg₂ (· ++ ·) (iha ha hbound hbound') (ihc hc hbound hbound')
  | join connective fs ih =>
    cases h with
    | join hall => exact hall.freeOccurrencesInAll_eq fun f hf g hfg => ih f hf hfg hbound hbound'
  | quantified q vs f ih =>
    cases h with
    | @quantified _ _ _ ws _ g hlen h =>
      have hfirst : ∀ v, v ∈ vs ++ bound ↔ v ∈ ((vs.zip ws).reverse ++ ρ).map Prod.fst := by
        intro v
        rw [map_append, map_reverse, map_fst_zip (Nat.le_of_eq hlen),
          mem_append, mem_append, mem_reverse, hbound]
      have hsecond : ∀ w, w ∈ ws ++ bound' ↔ w ∈ ((vs.zip ws).reverse ++ ρ).map Prod.snd := by
        intro w
        rw [map_append, map_reverse, map_snd_zip (Nat.le_of_eq hlen.symm),
          mem_append, mem_append, mem_reverse, hbound']
      have hbody := ih h hfirst hsecond
      exact hbody

/-- Formulas alike up to bound variables have the same free ones. -/
theorem AlphaEq.freeVariables_eq (h : f.AlphaEq [] g) : g.freeVariables = f.freeVariables := by
  rw [Formula.freeVariables_eq, Formula.freeVariables_eq]
  exact congrArg eraseDups (h.freeOccurrences_eq (fun _ => Iff.rfl) fun _ => Iff.rfl)

section Meaning

variable {R : Registry} {I : Interpretation.{u}} {σ τ : Valuation I} {vs ws : List Variable}

/-- Quantifiers over paired variables of the same domains. -/
theorem holds_of_paired {q : Quantifier} {P Q : Valuation I → Prop} (hlen : vs.length = ws.length)
    (hdomains : vs.map R.variableDomain = ws.map R.variableDomain)
    (hbody : ∀ σ τ : Valuation I, (∀ x y, Renaming.Pairs ((vs.zip ws).reverse ++ ρ) x y →
      σ x = τ y) → (P σ ↔ Q τ))
    (hρ : ∀ x y, ρ.Pairs x y → σ x = τ y) : q.Holds (I.Admits R) vs P σ ↔ q.Holds (I.Admits R) ws Q τ := by
  induction vs generalizing ws ρ σ τ with
  | nil =>
    obtain rfl := length_eq_zero_iff.mp hlen.symm
    exact hbody σ τ hρ
  | cons v vs ih =>
    obtain ⟨w, ws, rfl⟩ := exists_cons_of_length_eq_add_one hlen.symm
    rw [map_cons, map_cons, cons_eq_cons] at hdomains
    rw [zip_cons_cons, reverse_cons, append_assoc] at hbody
    refine Quantifier.holds_cons_congr (fun a => ?_) fun a _ => ?_
    · rw [Interpretation.Admits, Interpretation.Admits, hdomains.1]
    · refine ih (Nat.succ.inj hlen) hdomains.2 hbody fun x y h => ?_
      cases h with
      | here => rw [Function.update_self, Function.update_self]
      | there hx hy h => rw [Function.update_of_ne hx, Function.update_of_ne hy, hρ x y h]

/-- Such formulas mean the same and are sorted alike. -/
theorem AlphaEq.same_sense (h : f.AlphaEq ρ g)
    (hdomains : (f.binders ++ vs).map R.variableDomain = (g.binders ++ ws).map R.variableDomain) :
    vs.map R.variableDomain = ws.map R.variableDomain ∧
      (∀ (I : Interpretation.{u}) (σ τ : Valuation I), (∀ x y, ρ.Pairs x y → σ x = τ y) →
        (f.Holds R I σ ↔ g.Holds R I τ)) ∧
      ((∀ x y, ρ.Pairs x y → R.variableDomain x = R.variableDomain y) → f.Sorted R → g.Sorted R) := by
  induction f generalizing ρ g vs ws with
  | boolean b =>
    cases h
    exact ⟨hdomains, fun _ _ _ _ => Iff.rfl, fun _ => id⟩
  | compare op left right =>
    cases h with
    | compare ha hb =>
      refine ⟨hdomains, fun I σ τ hρ => ?_, fun hρ hf => ?_⟩
      · rw [holds_compare, holds_compare, ha.value_eq hρ, hb.value_eq hρ]
      · rw [sorted_compare] at hf ⊢
        exact ⟨(ha.sorted hρ hf.1).1, (hb.sorted hρ hf.2).1⟩
  | atom name args =>
    cases h with
    | atom hargs =>
      refine ⟨hdomains, fun I σ τ hρ => ?_, fun hρ hf => sorted_atom.mpr fun s hs => ?_⟩
      · rw [holds_atom, holds_atom, Term.map_value_eq (fun t _ s hts => hts.value_eq hρ) hargs]
      · obtain ⟨t, ht, hts⟩ := forall₂_exists_left hargs hs
        exact (hts.sorted hρ (hf.terms t ht)).1
  | not f ih =>
    cases h with
    | not h =>
      obtain ⟨hdomains, hholds, hsorted⟩ := ih h hdomains
      exact ⟨hdomains, fun I σ τ hρ => not_congr (hholds I σ τ hρ),
        fun hρ hf => sorted_not.mpr (hsorted hρ (sorted_not.mp hf))⟩
  | implies a c iha ihc =>
    cases h with
    | implies ha hc =>
      simp only [binders, append_assoc] at hdomains
      obtain ⟨hdomains, ha, hsa⟩ := iha ha hdomains
      obtain ⟨hdomains, hc, hsc⟩ := ihc hc hdomains
      refine ⟨hdomains, fun I σ τ hρ => imp_congr (ha I σ τ hρ) (hc I σ τ hρ), fun hρ hf => ?_⟩
      rw [sorted_implies] at hf ⊢
      exact ⟨hsa hρ hf.1, hsc hρ hf.2⟩
  | join connective fs ih =>
    cases h with
    | @join _ _ _ gs hall =>
      have hmembers : vs.map R.variableDomain = ws.map R.variableDomain ∧
          (∀ (I : Interpretation.{u}) (σ τ : Valuation I), (∀ x y, ρ.Pairs x y → σ x = τ y) →
            Forall₂ (fun f g => f.Holds R I σ ↔ g.Holds R I τ) fs gs) ∧
          ((∀ x y, ρ.Pairs x y → R.variableDomain x = R.variableDomain y) →
            (∀ f ∈ fs, f.Sorted R) → ∀ g ∈ gs, g.Sorted R) := by
        induction fs generalizing gs with
        | nil =>
          cases hall
          exact ⟨hdomains, fun _ _ _ _ => .nil, fun _ => id⟩
        | cons f fs ihs =>
          cases hall with
          | cons hfg hrest =>
            simp only [binders, bindersOfAll, append_assoc] at hdomains
            obtain ⟨hdomains, hf, hsf⟩ := ih f mem_cons_self hfg hdomains
            obtain ⟨hdomains, hfs, hsfs⟩ := ihs (fun f hf => ih f (mem_cons_of_mem _ hf)) hrest hdomains
            refine ⟨hdomains, fun I σ τ hρ => .cons (hf I σ τ hρ) (hfs I σ τ hρ), fun hρ hall => ?_⟩
            rw [forall_mem_cons] at hall ⊢
            exact ⟨hsf hρ hall.1, hsfs hρ hall.2⟩
      refine ⟨hmembers.1, fun I σ τ hρ => holds_join_congr (hmembers.2.1 I σ τ hρ), fun hρ hf => ?_⟩
      exact sorted_join.mpr (hmembers.2.2 hρ (sorted_join.mp hf))
  | quantified q params f ih =>
    cases h with
    | @quantified _ _ _ params' _ g hlen h =>
      simp only [binders, append_assoc, map_append] at hdomains
      obtain ⟨hparams, hdomains⟩ := append_inj hdomains (by rw [length_map, length_map, hlen])
      rw [← map_append, ← map_append] at hdomains
      obtain ⟨hdomains, hbody, hsorted⟩ := ih h hdomains
      refine ⟨hdomains, fun I σ τ hρ => ?_, fun hρ hf => ?_⟩
      · rw [holds_quantified, holds_quantified]
        exact holds_of_paired hlen hparams (hbody I) hρ
      · rw [sorted_quantified] at hf ⊢
        refine ⟨?_, hsorted (fun x y => Renaming.Pairs.eq_of_zip hparams hρ) hf.2⟩
        rw [← @forall_mem_map _ _ R.variableDomain _ fun d => d.isSome, ← hparams, forall_mem_map]
        exact hf.1

end Meaning

end Formula

end LogicProgram
