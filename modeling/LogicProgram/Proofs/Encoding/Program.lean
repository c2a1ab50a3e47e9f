import LogicProgram.Proofs.Encoding.Choice
import LogicProgram.Proofs.Encoding.Contributions

/-!
# The meaning of an encoded program

What the rules of a predicate contribute, closed by quantifiers over the
variables of the rules, holds of exactly the tuples that some rule supports, and
the constraints hold if none of them is violated.
-/

namespace LogicProgram

open List

universe u

namespace Rule

variable {isChoice : Bool} {r : Registry} {fs : List Formula}

variable {I : Interpretation.{u}} {rule : Rule} {name name' : Text} {args : List Term}
  {ds : List I.Object}

/-- The head that is an atom or a choice of one. -/
abbrev Head.about (isChoice : Bool) (name : Text) (args : List Term) : Head :=
  if isChoice then .ofChoice name args else .ofAtom name args

/-- A rule supports what its body and the values of its arguments allow. -/
theorem supports_about (h : rule.head = .about isChoice name args) :
    rule.Supports I name' ds ↔ name = name' ∧ (isChoice = true → I.predicate name ds) ∧
      ∃ ρ, Forall₂ (Term.HasValue I ρ) args ds ∧ rule.BodyHolds I ρ := by
  cases isChoice with
  | false =>
    constructor
    · rintro ⟨_, ρ, hhead | ⟨hhead, -⟩, hρ⟩
      · cases h.symm.trans hhead
        exact ⟨rfl, by simp, ρ, hρ⟩
      · cases h.symm.trans hhead
    · rintro ⟨rfl, -, ρ, hρ⟩
      exact ⟨args, ρ, .inl h, hρ⟩
  | true =>
    constructor
    · rintro ⟨_, ρ, hhead | ⟨hhead, hholds⟩, hρ⟩
      · cases h.symm.trans hhead
      · cases h.symm.trans hhead
        exact ⟨rfl, fun _ => hholds, ρ, hρ⟩
    · rintro ⟨rfl, hholds, ρ, hρ⟩
      exact ⟨args, ρ, .inr ⟨h, hholds rfl⟩, hρ⟩

theorem namesOfAll_subset_about (h : rule.head = .about isChoice name args) :
    Term.namesOfAll args ⊆ rule.names := by
  have hsub : Term.namesOfAll args ⊆ rule.head.names := by
    rw [h]
    cases isChoice with
    | false => exact List.Subset.refl _
    | true => simp [Head.about, Head.names, ConditionalLiteral.names, Literal.names, Term.names]
  exact fun name hname => mem_append_left _ (hsub hname)

/-- What a rule supports is of its predicate. -/
theorem Supports.symbol?_eq (h : rule.Supports I name ds) : rule.head.symbol? = some ⟨name, ds.length⟩ := by
  obtain ⟨args, ρ, hhead | ⟨hhead, -⟩, hvalues, -⟩ := h
  · rw [hhead, ← hvalues.length_eq]
    rfl
  · rw [hhead, ← hvalues.length_eq]
    rfl

end Rule

namespace Encoding

variable {I : Interpretation.{u}} {R : Registry} {σ : Valuation I} {c c' : RuleContext}
  {s s' : State} {p : Symbol} {params : List Variable} {rule : Rule}

/-- Quantifying a rule's variables asks for an assignment to their names. -/
theorem exists_scope_iff (hc : c.WellFormed)
    (hnamed : ∀ v ∈ c.scope, c.registry.nameOf v ≠ "_") (hR : c.registry.Grows R)
    {P : Valuation I → Prop} {Q : (Text → I.Object) → Prop}
    (hPQ : ∀ τ ρ, (∀ w, w ∉ c.scope → τ w = σ w) → Agrees R c.scope τ ρ → (P τ ↔ Q ρ)) :
    Quantifier.existential.Holds (I.Admits R) c.scope P σ ↔ ∃ ρ, Q ρ := by
  have hprogram : ∀ v ∈ c.scope, ∀ a, I.Admits R v a := fun v hv =>
    Interpretation.admits_of_program ((hR.domain (hc.below v hv)).trans (hc.domain v hv))
  rw [Quantifier.existential_holds_iff]
  simp only [forall₂_iff_length_eq hprogram]
  constructor
  · rintro ⟨ds, hlen, hP⟩
    obtain ⟨τ, ρ, hagrees, hτ, -⟩ := hc.exists_agrees hR (assign σ c.scope ds) I.infimum
    obtain rfl : τ = assign σ c.scope ds := funext fun v =>
      (hτ v).resolve_right fun h => hnamed v h.1 h.2.1
    exact ⟨ρ, (hPQ _ ρ (fun w hw => assign_of_not_mem hw) hagrees).mp hP⟩
  · rintro ⟨ρ, hQ⟩
    have hlen : (c.scope.map fun v => ρ (R.nameOf v)).length = c.scope.length := length_map _
    refine ⟨_, hlen, (hPQ _ ρ (fun w hw => assign_of_not_mem hw) ?_).mpr hQ⟩
    exact map_inj_left.mp (map_assign hc.nodup hlen)

/-- A universal quantifier excludes what an existential one asks for. -/
theorem forall_not_iff {range : Variable → I.Object → Prop} {vs : List Variable}
    {P : Valuation I → Prop} : Quantifier.universal.Holds range vs (fun σ => ¬ P σ) σ ↔
      ¬ Quantifier.existential.Holds range vs P σ := by
  rw [Quantifier.universal_holds_iff, Quantifier.existential_holds_iff]
  constructor
  · rintro h ⟨ds, hds, hP⟩
    exact h ds hds hP
  · exact fun h ds hds hP => h ⟨ds, hds, hP⟩

theorem holds_conjunctionOf : (conjunctionOf fs).Holds R I σ ↔ ∀ f ∈ fs, f.Holds R I σ := by
  cases fs with
  | nil => simp [conjunctionOf, Formula.Holds]
  | cons f fs => exact Formula.holds_and

/-- The variables of an encoded rule have names that occur in it. -/
theorem Allocates.named {names : List Text} {bound : List Variable}
    (h : Allocates names ⟨r, []⟩ bound c) (hnames : Text.ofString "_" ∉ names) :
    ∀ v ∈ c.scope, c.registry.nameOf v ≠ "_" := by
  obtain ⟨new, hscope, -, -, hnew⟩ := h.fresh
  intro v hv he
  rw [hscope, nil_append] at hv
  exact hnames (he ▸ hnew v hv)

/-- A contribution holds if some assignment makes body and arguments fit. -/
theorem contribution_meaning (hI : I.Standard) {args : List Rule.Term}
    {chosen : List Formula} {r₁ : Registry} (hrule : rule.HasUnsignedComparisons)
    (hnames : Text.ofString "_" ∉ rule.names) (hargs : Rule.Term.namesOfAll args ⊆ rule.names)
    (hfs : Returns (body rule.body) ⟨r, []⟩ fs c) (hgrows : c.registry.Grows r₁)
    (hchosen : Returns (chooseValues args params) ⟨r₁, c.scope⟩ chosen c')
    (hlen : args.length = params.length)
    (hparams : ∀ v : Nat, v ∈ params → v < r₁.variableTable.size ∧ v ∉ c'.scope)
    (hR : c'.registry.Grows R) :
    (OpenFormula.close .existential ⟨c'.scope, contribution isChoice p params fs chosen⟩).Holds
        R I σ ↔ (isChoice = true → I.predicate p.name (params.map σ)) ∧
      ∃ ρ, Forall₂ (Rule.Term.HasValue I ρ) args (params.map σ) ∧ rule.BodyHolds I ρ := by
  have hyfs := (body_yields (RuleContext.wellFormed_nil r) hfs).allocates
  have hc := hyfs.wellFormed (RuleContext.wellFormed_nil r)
  have hys := (chooseValues_yields (hc.grows hgrows) hchosen).allocates
  have hc' := hys.wellFormed (hc.grows hgrows)
  have hall := (hyfs.mono (subset_append_right rule.head.names _)).trans
    ((Allocates.of_grows hgrows).trans (hys.mono hargs))
  rw [OpenFormula.close, Formula.holds_close, ← exists_and_left]
  refine exists_scope_iff hc' (hall.named hnames) hR fun τ ρ hold hρ => ?_
  have hmap : params.map τ = params.map σ :=
    map_congr_left fun v hv => hold v (hparams v hv).2
  have hbody := body_meaning hI hrule (RuleContext.wellFormed_nil r) hfs
    (hgrows.trans (hys.grows.trans hR)) (hρ.mono hys.scope_subset)
  have hvalues := chooseValues_meaning hI (hc.grows hgrows) hlen (fun v hv => (hparams v hv).1)
    hchosen hR hρ
  have hown : (∀ f ∈ (if isChoice then [Formula.atomOf p params] else []), f.Holds R I τ) ↔
      (isChoice = true → I.predicate p.name (params.map σ)) := by
    cases isChoice <;> simp [hmap]
  rw [contribution, holds_conjunctionOf, forall_mem_append, forall_mem_append, hbody, hown,
    hvalues, hmap]
  constructor
  · rintro ⟨⟨hb, ho⟩, hv⟩
    exact ⟨ho, hv, hb⟩
  · rintro ⟨ho, hv, hb⟩
    exact ⟨⟨hb, ho⟩, hv⟩

/-- A constraint says that it is not violated. -/
theorem constraint_meaning (hI : I.Standard)
    (hrule : rule.HasUnsignedComparisons) (hnames : Text.ofString "_" ∉ rule.names)
    (hhead : rule.head = .ofBoolean false) (hfs : Returns (body rule.body) ⟨r, []⟩ fs c)
    (hR : c.registry.Grows R) :
    (Formula.close .universal c.scope (.not (.and fs))).Holds R I σ ↔ ¬ rule.Violated I := by
  have hyfs := (body_yields (RuleContext.wellFormed_nil r) hfs).allocates
  have hc := hyfs.wellFormed (RuleContext.wellFormed_nil r)
  have hnamed := (hyfs.mono (subset_append_right rule.head.names _)).named hnames
  have hexists : Quantifier.existential.Holds (I.Admits R) c.scope ((Formula.and fs).Holds R I) σ ↔
      ∃ ρ, rule.BodyHolds I ρ := by
    refine exists_scope_iff hc hnamed hR fun τ ρ _ hρ => ?_
    rw [Formula.holds_and]
    exact body_meaning hI hrule (RuleContext.wellFormed_nil r) hfs hR hρ
  have hnot : (Formula.not (.and fs)).Holds R I = fun σ => ¬ (Formula.and fs).Holds R I σ := by
    funext σ
    rw [Formula.holds_not]
  rw [Formula.holds_close, hnot, forall_not_iff, hexists, Rule.Violated, hhead]
  simp

variable {u : Unit} {f : OpenFormula}

/-- What is recorded of a rule holds of the tuples that it supports. -/
theorem Contributes.meaning (h : Contributes params s rule f) (hs : Scoped s) (hI : I.Standard)
    (hrule : rule.HasUnsignedComparisons) (hnames : Text.ofString "_" ∉ rule.names)
    (hr : Returns (addRule rule) s u s') (hR : s'.registry.Grows R) (hp : rule.head.symbol? = some p) :
    (f.close .existential).Holds R I σ ↔ rule.Supports I p.name (params.map σ) := by
  obtain ⟨isChoice, name, args, fs, chosen, c₀, c, s₁, c', hfs, hshape, hparams, hchosen, rfl⟩ := h
  obtain ⟨fs', _, shape, _, hfs', hshape', hadds⟩ := addRule_returns hr
  obtain ⟨rfl, rfl⟩ := hfs.unique hfs'
  obtain ⟨rfl, rfl⟩ := hshape.unique hshape'
  obtain ⟨hhead, hdeclared, hadds⟩ : rule.head = .about isChoice name args ∧
      (⟨name, args.length⟩ : Symbol) ∈ c.registry.symbols ∧
      Returns (addDefinition isChoice name args fs c.scope) ⟨c.registry, s.encoding⟩ u s' := by
    cases isChoice with
    | false | true => exact ⟨(headShape_found hshape).head, (headShape_found hshape).declared _ rfl, hadds⟩
  obtain ⟨_, _, _, _, hparams', hchosen', rfl⟩ := addDefinition_returns hadds
  obtain ⟨rfl, rfl⟩ := hparams.unique hparams'
  obtain ⟨rfl, rfl⟩ := hchosen.unique hchosen'
  have hsymbol : rule.head.symbol? = some ⟨name, args.length⟩ := by
    rw [hhead]
    cases isChoice <;> rfl
  obtain rfl := Option.some.inj (hsymbol.symm.trans hp)
  have hfound := (headShape_found hshape).allocates
  have hyfs := (body_yields (RuleContext.wellFormed_nil _) hfs).allocates
  have hc₀ := hyfs.wellFormed (RuleContext.wellFormed_nil _)
  obtain ⟨new, hs₁, hnew, hbound₁, d, hd, hdp, rfl⟩ :=
    headParams_scoped (hs.grows (hyfs.grows.trans hfound.grows)) hdeclared hparams c.scope
  have hlen : d.params.length = args.length := by rw [(hs₁.params d hd).1, hdp]
  have hgrows := hfound.grows.trans hnew.grows
  rw [hfound.scope_eq] at hchosen
  have hys := (chooseValues_yields (hc₀.grows hgrows) hchosen).allocates
  -- the variables for the arguments were made before the rule or after its body
  have hfresh : ∀ v : Nat, v ∈ d.params → v < s₁.registry.variableTable.size ∧ v ∉ c'.scope := by
    intro v hv
    have hbound := Scoped.params_subset hd hv
    have hlt := hs₁.below v hbound
    refine ⟨hlt, fun hscope => ?_⟩
    rcases hys.scope_range v hscope with hold | hmade
    · have hrange := (hyfs.scope_range v hold).resolve_left not_mem_nil
      rcases hbound₁ v hbound with hbefore | hafter
      · exact Nat.lt_irrefl _ (Nat.lt_of_lt_of_le (hs.below v hbefore) hrange.1)
      · have hle := Nat.le_trans hfound.grows.size (hnew.range v hafter).1
        exact Nat.lt_irrefl _ (Nat.lt_of_lt_of_le hrange.2 hle)
    · exact Nat.lt_irrefl _ (Nat.lt_of_lt_of_le hlt hmade.1)
  rw [contribution_meaning hI hrule hnames (Rule.namesOfAll_subset_about hhead) hfs hgrows hchosen
    hlen.symm hfresh hR, Rule.supports_about hhead]
  exact ⟨fun hholds => ⟨rfl, hholds⟩, And.right⟩

/-- What is recorded of an accepted constraint says that it is not violated. -/
theorem Excludes.meaning {f : Formula} (h : Excludes s rule f) (hI : I.Standard)
    (hrule : rule.HasUnsignedComparisons) (hnames : Text.ofString "_" ∉ rule.names)
    (hr : Returns (addRule rule) s u s') (hR : s'.registry.Grows R) :
    f.Holds R I σ ↔ ¬ rule.Violated I := by
  obtain ⟨fs, c, c', hfs, hshape, rfl⟩ := h
  obtain ⟨fs', _, shape, _, hfs', hshape', hadds⟩ := addRule_returns hr
  obtain ⟨rfl, rfl⟩ := hfs.unique hfs'
  obtain ⟨rfl, rfl⟩ := hshape.unique hshape'
  subst hadds
  obtain ⟨hhead, halloc, -⟩ := headShape_found hshape
  rw [halloc.scope_eq]
  exact constraint_meaning hI hrule hnames hhead hfs (halloc.grows.trans hR)

/-- Each of several accepted rules is added where variables are apart. -/
theorem addRules_attempts {rules : List Rule} (hs : Scoped s) (h : Returns (addRules rules) s u s') :
    (attempts rules s).2 = s' ∧ (attempts rules s).1.map (·.2) = rules ∧
      ∀ a ∈ (attempts rules s).1, Scoped a.1 ∧
        ∃ u t, Returns (addRule a.2) a.1 u t ∧ t.registry.Grows s'.registry := by
  induction rules generalizing s with
  | nil =>
    obtain ⟨-, rfl⟩ := Returns.pure_iff.mp h
    exact ⟨rfl, rfl, nofun⟩
  | cons rule rules ih =>
    obtain ⟨u, s₁, hrule, hrest⟩ := Returns.bind_iff.mp h
    obtain ⟨hs₁, -⟩ := addRule_scoped hs hrule
    obtain ⟨hstate, hmap, hall⟩ := ih hs₁ hrest
    rw [attempts, hrule]
    exact ⟨hstate, congrArg (rule :: ·) hmap,
      forall_mem_cons.mpr ⟨⟨hs, u, s₁, hrule, (addRules_scoped hs₁ hrest).2⟩, hall⟩⟩

/-- The formulas of a program say what its rules do. -/
structure Encoded (s : State) (rules : List Rule) : Prop where
  definitions : ∀ d ∈ s.encoding.definitions, ∀ R, s.registry.Grows R →
    ∀ I : Interpretation.{u}, I.Standard → ∀ σ : Valuation I,
      (∃ f ∈ d.rules, (f.close .existential).Holds R I σ) ↔
        ∃ rule ∈ rules, rule.Supports I d.predicate.name (d.params.map σ)
  heads : ∀ rule ∈ rules, ∀ (I : Interpretation.{u}) name ds, rule.Supports I name ds →
    (⟨name, ds.length⟩ : Symbol) ∈ s.encoding.definitions.map (·.predicate)
  constraints : ∀ R, s.registry.Grows R → ∀ I : Interpretation.{u}, I.Standard →
    ∀ σ : Valuation I,
      (∀ f ∈ s.encoding.constraints, f.Holds R I σ) ↔ ∀ rule ∈ rules, ¬ rule.Violated I

/-- An encoding has an entry for each rule, and says what they do. -/
theorem addRules_encoded {rules : List Rule} (hrules : ∀ rule ∈ rules, rule.HasUnsignedComparisons)
    (hnames : ∀ rule ∈ rules, Text.ofString "_" ∉ rule.names)
    (hr : Returns (addRules rules) ⟨r, .empty⟩ u s) : Encoded.{u} s rules := by
  have hs := (addRules_scoped (Scoped.empty r) hr).1
  obtain ⟨hstate, hmap, hall⟩ := addRules_attempts (Scoped.empty r) hr
  have hrecords := attempts_records rules (Records.empty r)
  rw [hstate, nil_append] at hrecords
  generalize (attempts rules ⟨r, .empty⟩).1 = accepted at hmap hall hrecords
  subst hmap
  simp only [forall_mem_map] at hrules hnames
  refine ⟨fun d hd R hR I hI σ => ?_, ?_, fun R hR I hI σ => ?_⟩
  · have hmeaning : ∀ a ∈ accepted, a.2.head.symbol? = some d.predicate → ∀ f,
      Contributes d.params a.1 a.2 f →
        ((f.close .existential).Holds R I σ ↔ a.2.Supports I d.predicate.name (d.params.map σ)) := by
      intro a ha hsymbol f hf
      obtain ⟨hscoped, _, t, hadd, hgrows⟩ := hall a ha
      exact hf.meaning hscoped hI (hrules a ha) (hnames a ha) hadd (hgrows.trans hR) hsymbol
    constructor
    · rintro ⟨f, hf, hholds⟩
      obtain ⟨a, ha, hcontributes⟩ := forall₂_exists_left (hrecords.rules d hd) hf
      obtain ⟨ha, hsymbol⟩ := mem_filter.mp ha
      exact ⟨a.2, mem_map_of_mem ha, (hmeaning a ha (of_decide_eq_true hsymbol) f hcontributes).mp hholds⟩
    · rintro ⟨_, hmem, hsupports⟩
      obtain ⟨a, ha, rfl⟩ := mem_map.mp hmem
      have hsymbol : a.2.head.symbol? = some d.predicate := by
        rw [hsupports.symbol?_eq, length_map, (hs.params d hd).1]
      obtain ⟨f, hf, hcontributes⟩ := forall₂_exists_left (hrecords.rules d hd).flip
        (mem_filter.mpr ⟨ha, decide_eq_true hsymbol⟩)
      exact ⟨f, hf, (hmeaning a ha hsymbol f hcontributes).mpr hsupports⟩
  · rw [forall_mem_map]
    exact fun a ha I name ds hsupports => hrecords.heads a ha _ hsupports.symbol?_eq
  · have hmeaning : ∀ a ∈ accepted, ∀ f, Excludes a.1 a.2 f → (f.Holds R I σ ↔ ¬ a.2.Violated I) := by
      intro a ha f hf
      obtain ⟨-, _, t, hadd, hgrows⟩ := hall a ha
      exact hf.meaning hI (hrules a ha) (hnames a ha) hadd (hgrows.trans hR)
    rw [forall_mem_map]
    constructor
    · intro hholds a ha hviolated
      obtain ⟨f, hf, hexcludes⟩ := forall₂_exists_left hrecords.constraints.flip
        (mem_filter.mpr ⟨ha, by rw [hviolated.1]; rfl⟩)
      exact (hmeaning a ha f hexcludes).mp (hholds f hf) hviolated
    · intro hnone f hf
      obtain ⟨a, ha, hexcludes⟩ := forall₂_exists_left hrecords.constraints hf
      exact (hmeaning a (mem_of_mem_filter ha) f hexcludes).mpr (hnone a (mem_of_mem_filter ha))

end Encoding

end LogicProgram
