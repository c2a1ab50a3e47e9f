import LogicProgram.Proofs.Encoding.Meaning
import Mathlib.Data.List.Pairwise

/-!
# Values and comparisons among the other parts of a rule

What a chosen value and a comparison say where the rest of the rule is arbitrary.
The rule may have anonymous variables elsewhere, which share their name and stand
for different objects, so the objects of names are read off the valuation itself
and only for the names that a part of the rule has.
-/

namespace LogicProgram

open List

universe u

/-- The values of a term depend on the objects of its own names alone. -/
theorem Rule.Term.hasValue_congr {I : Interpretation.{u}} {ρ ρ' : Text → I.Object} {t : Rule.Term}
    (h : ∀ name ∈ t.names, ρ name = ρ' name) {d : I.Object} :
    t.HasValue I ρ d ↔ t.HasValue I ρ' d := by
  induction t generalizing d with
  | var name =>
    show d = ρ name ↔ d = ρ' name
    rw [h name mem_cons_self]
  | binary op left right ihl ihr =>
    have hl : ∀ {d}, left.HasValue I ρ d ↔ left.HasValue I ρ' d :=
      ihl fun name hname => h name (mem_append_left _ hname)
    have hr : ∀ {d}, right.HasValue I ρ d ↔ right.HasValue I ρ' d :=
      ihr fun name hname => h name (mem_append_right _ hname)
    cases op <;> simp only [HasValue, hl, hr]
  | unary op arg ih =>
    have harg : ∀ {d}, arg.HasValue I ρ d ↔ arg.HasValue I ρ' d := ih h
    cases op <;> simp only [HasValue, harg]
  | interval lower upper ihl ihu =>
    have hl : ∀ {d}, lower.HasValue I ρ d ↔ lower.HasValue I ρ' d :=
      ihl fun name hname => h name (mem_append_left _ hname)
    have hu : ∀ {d}, upper.HasValue I ρ d ↔ upper.HasValue I ρ' d :=
      ihu fun name hname => h name (mem_append_right _ hname)
    simp only [HasValue, hl, hu]
  | _ => exact Iff.rfl

namespace Encoding

variable {I : Interpretation.{u}} {R : Registry} {c c' : RuleContext} {σ : Valuation I}

namespace RuleContext

/-- The variable of a name in the rule. -/
def variableOf? (c : RuleContext) (name : Text) : Option Variable :=
  c.scope.find? fun v => c.registry.nameOf v == name

/-- The objects that a valuation gives the names of the rule; a name that the rule
does not have so far stands for nothing in particular. -/
def objects (c : RuleContext) (σ : Valuation I) (name : Text) : I.Object :=
  ((c.variableOf? name).map σ).getD I.infimum

/-- A variable of the rule is the one of its name, unless it is anonymous. -/
theorem WellFormed.variableOf?_eq (hc : c.WellFormed) {v : Variable} (hv : v ∈ c.scope)
    (hname : c.registry.nameOf v ≠ "_") :
    c.variableOf? (c.registry.nameOf v) = some v := by
  have hsymm : Std.Symm fun v w => c.registry.nameOf v = c.registry.nameOf w →
      c.registry.nameOf v = "_" := ⟨fun _ _ hnamed he => he.trans (hnamed he.symm)⟩
  cases hfound : c.variableOf? (c.registry.nameOf v) with
  | none => exact absurd (find?_eq_none.mp hfound v hv) (by simp)
  | some w =>
    have hw := mem_of_find?_eq_some hfound
    have he := find?_some hfound
    by_contra hne
    have hvw : v ≠ w := fun h => hne (congrArg some h.symm)
    exact hname (hc.named.forall hv hw hvw (beq_iff_eq.mp he).symm)

/-- With one object for anonymous variables, each name has one object. -/
theorem WellFormed.exists_agrees (hc : c.WellFormed) (hR : c.registry.Grows R) (σ : Valuation I)
    (a : I.Object) : ∃ (τ : Valuation I) (ρ : Text → I.Object), Agrees R c.scope τ ρ ∧
      (∀ v, τ v = σ v ∨ v ∈ c.scope ∧ c.registry.nameOf v = "_" ∧ τ v = a) ∧
      ∀ name, name ≠ Text.ofString "_" → ρ name = c.objects σ name := by
  refine ⟨fun v => if v ∈ c.scope ∧ c.registry.nameOf v = "_" then a else σ v,
    fun name => if name = "_" then a else c.objects σ name, fun v hv => ?_,
    fun v => ?_, fun name hname => if_neg hname⟩
  · rw [hR.nameOf (hc.below v hv)]
    dsimp only
    by_cases hname : c.registry.nameOf v = "_"
    · rw [if_pos ⟨hv, hname⟩, if_pos hname]
    · rw [if_neg fun h => hname h.2, if_neg hname, objects, hc.variableOf?_eq hv hname]
      rfl
  · dsimp only
    split
    · next h => exact .inr ⟨h.1, h.2, rfl⟩
    · exact .inl rfl

end RuleContext

/-- Anonymous variables do not matter to what a step makes for named ones. -/
theorem Yields.holds_congr {given : List Variable} {names : List Text} {f : Formula}
    (h : Yields given names c f c') (hc : c.WellFormed) (hnames : Text.ofString "_" ∉ names) {τ : Valuation I}
    (hgiven : ∀ v ∈ given, τ v = σ v)
    (hτ : ∀ v, τ v = σ v ∨ v ∈ c'.scope ∧ c'.registry.nameOf v = "_") :
    f.Holds R I τ ↔ f.Holds R I σ := by
  refine Formula.holds_congr (fun _ _ => rfl) fun v hv => ?_
  rcases h.free hc v hv with hv | ⟨-, hname⟩
  · exact hgiven v hv
  · exact (hτ v).resolve_right fun hanonymous => hnames (hanonymous.2 ▸ hname)

/-- Whatever the rest of the rule is, the formula that chooses a value of a term
holds of exactly the values of the term, and its only free variables are the chosen
one and variables of the term. A rule starts with no variables, and every step of
its encoding keeps the context well formed. -/
theorem chooseValue_holds_iff {t : Rule.Term} {z : Variable} {f : Formula} (hc : c.WellFormed)
    (hz : z < c.registry.variableTable.size) (ht : Text.ofString "_" ∉ t.names)
    (h : Returns (chooseValue t z) c f c') :
    (∀ R, c'.registry.Grows R → ∀ I : Interpretation.{u}, I.Standard → ∀ σ : Valuation I,
      f.Holds R I σ ↔ t.HasValue I (c'.objects σ) (σ z)) ∧
    ∀ v ∈ f.freeVariables, v = z ∨ ∃ name ∈ t.names, c'.variableOf? name = some v := by
  have hyields := chooseValue_yields hc h
  have hc' := hyields.allocates.wellFormed hc
  constructor
  · intro R hR I hI σ
    -- The formula has no anonymous variables. All of them may get the value of `z`, which then
    -- stays as it is even if it is one of them.
    obtain ⟨τ, ρ, hagrees, hτ, hρ⟩ := hc'.exists_agrees hR σ (σ z)
    have hτz : τ z = σ z := (hτ z).elim id fun hanonymous => hanonymous.2.2
    have hsame : f.Holds R I τ ↔ f.Holds R I σ :=
      hyields.holds_congr hc ht (by simpa using hτz) fun v => (hτ v).imp_right fun h => ⟨h.1, h.2.1⟩
    have hvalues : t.HasValue I ρ (σ z) ↔ t.HasValue I (c'.objects σ) (σ z) :=
      Rule.Term.hasValue_congr fun name hname => hρ name fun he => ht (he ▸ hname)
    rw [← hsame, ← hvalues, ← hτz]
    exact chooseValue_meaning hI t hc hz h hR hagrees
  · intro v hv
    rcases hyields.free hc v hv with hz | ⟨hscope, hname⟩
    · exact .inl (mem_singleton.mp hz)
    · exact .inr ⟨_, hname, hc'.variableOf?_eq hscope fun he => ht (he ▸ hname)⟩

/-- A rule with a variable `X` and two anonymous ones, and an integer variable. -/
def withAnonymous : RuleContext :=
  ⟨Registry.empty.addVariables #[⟨"X", some .program⟩, ⟨"_", some .program⟩,
    ⟨"_", some .program⟩, ⟨[], some .integer⟩], [0, 1, 2]⟩

/-- The integers from `X` to the quotients of `X * Y`. -/
def rising : Rule.Term :=
  .interval (.variable "X") (.binary .divide (.binary .multiply (.variable "X") (.variable "Y"))
    (.number 2))

theorem withAnonymous_wellFormed : withAnonymous.WellFormed where
  below := by decide
  domain := by decide
  nodup := by decide
  named := by decide

theorem chooseValue_holds_iff_rising : ∃ f c', Returns (chooseValue rising 3) withAnonymous f c' ∧
    (∀ R, c'.registry.Grows R → ∀ I : Interpretation.{0}, I.Standard → ∀ σ : Valuation I,
      f.Holds R I σ ↔ rising.HasValue I (c'.objects σ) (σ 3)) ∧
    ∀ v ∈ f.freeVariables, v = 3 ∨ ∃ name ∈ rising.names, c'.variableOf? name = some v := by
  have hz : 3 < withAnonymous.registry.variableTable.size := by decide
  have hnames : Text.ofString "_" ∉ rising.names := by decide
  have hok : (outcome (chooseValue rising 3) withAnonymous).1.toBool = true := by decide +kernel
  obtain ⟨f, c', h⟩ := Returns.of_toBool hok
  exact ⟨f, c', h, chooseValue_holds_iff withAnonymous_wellFormed hz hnames h⟩

/-- A comparison says that some pair of values is in the relation. -/
theorem bodyComparison_holds_iff {op : Comparison} {left right : Rule.Term} {f : Formula}
    (hc : c.WellFormed) (hnames : Text.ofString "_" ∉ left.names ++ right.names)
    (h : Returns (bodyComparison op left right) c f c') (hR : c'.registry.Grows R)
    (hI : I.Standard) : f.Holds R I σ ↔ ∃ x y, left.HasValue I (c'.objects σ) x ∧
      right.HasValue I (c'.objects σ) y ∧ I.Compares op x y := by
  have hyields := bodyComparison_yields hc h
  have hc' := hyields.allocates.wellFormed hc
  obtain ⟨τ, ρ, hagrees, hτ, hρ⟩ := hc'.exists_agrees hR σ I.infimum
  have hsame : f.Holds R I τ ↔ f.Holds R I σ :=
    hyields.holds_congr hc hnames (by simp)
      fun v => (hτ v).imp_right fun h => ⟨h.1, h.2.1⟩
  have hvalues : ∀ t : Rule.Term, t.names ⊆ left.names ++ right.names →
      ∀ d, t.HasValue I ρ d ↔ t.HasValue I (c'.objects σ) d := fun t hsub d =>
    Rule.Term.hasValue_congr fun name hname => hρ name fun he => hnames (he ▸ hsub hname)
  rw [← hsame, bodyComparison_meaning hI hc hR hagrees h]
  simp only [hvalues left (subset_append_left _ _),
    hvalues right (subset_append_right _ _)]

/-- A comparison in a body says, whatever its sign, that some pair of values is in the
relation. That is what the literal says unless it is negated. -/
theorem bodyElement_comparison_holds_iff {b : Rule.BodyLiteral} {sign : Rule.Sign}
    {op : Comparison} {left right : Rule.Term} {f : Formula} (hc : c.WellFormed)
    (hb : b.element = .literal ⟨sign, .comparison op left right⟩)
    (hnames : Text.ofString "_" ∉ b.names) (h : Returns (bodyElement b) c f c') :
    ∀ R, c'.registry.Grows R → ∀ I : Interpretation.{u}, I.Standard → ∀ σ : Valuation I,
      (f.Holds R I σ ↔ ∃ x y, left.HasValue I (c'.objects σ) x ∧
        right.HasValue I (c'.objects σ) y ∧ I.Compares op x y) ∧
      (sign ≠ .negated → (f.Holds R I σ ↔ b.Holds I (c'.objects σ))) := by
  obtain ⟨l, rfl, hl⟩ := bodyElement_cases h
  cases hb
  intro R hR I hI σ
  have hpairs := bodyComparison_holds_iff (σ := σ) hc hnames hl hR hI
  refine ⟨hpairs, fun hsign => hpairs.trans ?_⟩
  cases sign with
  | plain => exact Iff.rfl
  | negated => exact absurd rfl hsign
  | doublyNegated => exact Iff.rfl

/-- The comparison `not not X < rising`. -/
def belowRising : Rule.BodyLiteral :=
  ⟨.plain, .literal ⟨.doublyNegated, .comparison .less (.variable "X") rising⟩⟩

theorem bodyElement_comparison_holds_iff_belowRising :
    ∃ f c', Returns (bodyElement belowRising) withAnonymous f c' ∧
      ∀ R, c'.registry.Grows R → ∀ I : Interpretation.{0}, I.Standard → ∀ σ : Valuation I,
        (f.Holds R I σ ↔ ∃ x y, (Rule.Term.variable "X").HasValue I (c'.objects σ) x ∧
          rising.HasValue I (c'.objects σ) y ∧ I.Compares .less x y) ∧
        (Rule.Sign.doublyNegated ≠ .negated →
          (f.Holds R I σ ↔ belowRising.Holds I (c'.objects σ))) := by
  have hnames : Text.ofString "_" ∉ belowRising.names := by decide
  have hok : (outcome (bodyElement belowRising) withAnonymous).1.toBool = true := by
    decide +kernel
  obtain ⟨f, c', h⟩ := Returns.of_toBool hok
  exact ⟨f, c', h, bodyElement_comparison_holds_iff withAnonymous_wellFormed rfl hnames h⟩

/-- The comparison `not 1 < 2`. -/
def notLess : Rule.BodyLiteral :=
  ⟨.plain, .literal ⟨.negated, .comparison .less (.number 1) (.number 2)⟩⟩

/-- The negation of a comparison is lost: the formula of `not 1 < 2` holds. -/
theorem bodyElement_notLess : ∃ f c', Returns (bodyElement notLess) ⟨.empty, []⟩ f c' ∧
    ∀ σ : Valuation (.integers fun _ _ => False),
      f.Holds c'.registry (.integers fun _ _ => False) σ ∧
      ¬ notLess.Holds (.integers fun _ _ => False) (c'.objects σ) := by
  have hless : (Interpretation.integers fun _ _ => False).Compares .less (1 : Int) (2 : Int) := by
    simp [Interpretation.Compares, Interpretation.integers]
  have hok : (outcome (bodyElement notLess) ⟨.empty, []⟩).1.toBool = true := by decide
  obtain ⟨f, c', h⟩ := Returns.of_toBool hok
  refine ⟨f, c', h, fun σ => ⟨?_, ?_⟩⟩
  · rw [bodyComparison_holds_iff (RuleContext.wellFormed_nil _) (by decide) h
      (Registry.Grows.refl _) (.integers _)]
    exact ⟨_, _, rfl, rfl, hless⟩
  · rintro ⟨_, _, rfl, rfl, hnot⟩
    exact hnot hless

end Encoding

end LogicProgram
