import LogicProgram.Proofs.Encoding.Allocation

/-!
# Variables of an encoded program

The variables that the formulas of a program bind, or will bind once they are closed,
are all different: the variables for the arguments of a predicate are shared by its
rules and by nothing else, and each rule has variables of its own.
-/

namespace LogicProgram

open List
open Returns (bind_iff pure_iff modify_iff)

variable {u : Unit} {e : Encoding} {r : Registry} {names : List Text} {c c' : RuleContext} {fs : List Formula}
  {d : RuleFormulas}

/-- The variables that a closed formula binds. -/
def OpenFormula.bound (f : OpenFormula) : List Variable := f.free ++ f.formula.binders

/-- The variables that a completed definition binds. -/
def RuleFormulas.bound (d : RuleFormulas) : List Variable := d.params ++ d.rules.flatMap (·.bound)

namespace Encoding

/-- The variables that the formulas of a program bind. -/
def bound (e : Encoding) : List Variable :=
  e.definitions.flatMap (·.bound) ++ e.constraints.flatMap (·.binders)

variable {s s' s₁ : State} {p : Symbol} {params : List Variable}

/-- The variables for the arguments are known, or they are made. -/
theorem headParams_cases (h : Returns (headParams p) s params s') :
    (∃ d, s.encoding.definition? p = some d ∧ params = d.params ∧ s' = s) ∨
      (s.encoding.definition? p = none ∧
        params = List.range' s.registry.variableTable.size p.arity ∧
        s' = ⟨s.registry.addGenerated (some .program) p.arity,
          { s.encoding with definitions := s.encoding.definitions ++ [⟨p, params, []⟩] }⟩) := by
  simp only [headParams, bind_iff, Returns.get_iff] at h
  obtain ⟨_, _, ⟨rfl, rfl⟩, h⟩ := h
  split at h
  · next d hd =>
    obtain ⟨rfl, rfl⟩ := pure_iff.mp h
    exact .inl ⟨d, hd, rfl, rfl⟩
  · next hd =>
    simp only [bind_iff, inRule_iff, Step.objects_iff, modify_iff,
      pure_iff] at h
    obtain ⟨⟨vs, scope⟩, _, ⟨r, ⟨rfl, hr⟩, rfl⟩, _, _, rfl, rfl, rfl⟩ := h
    cases hr
    exact .inr ⟨hd, rfl, rfl⟩

/-- What a rule says about the arguments of a predicate: its body, the atom itself
for a choice, and that the arguments have their values. -/
def contribution (isChoice : Bool) (p : Symbol) (params : List Variable) (fs chosen : List Formula) :
    Formula :=
  conjunctionOf (fs ++ (if isChoice then [Formula.atomOf p params] else []) ++ chosen)

/-- A rule for a predicate adds a contribution to it. -/
theorem addDefinition_returns {isChoice : Bool} {name : Text} {args : List Rule.Term}
    {scope : List Variable} (h : Returns (addDefinition isChoice name args fs scope) s u s') :
    ∃ params s₁ chosen c, Returns (headParams ⟨name, args.length⟩) s params s₁ ∧
      Returns (chooseValues args params) ⟨s₁.registry, scope⟩ chosen c ∧
      s' = ⟨c.registry, s₁.encoding.addRuleFormula ⟨name, args.length⟩
        ⟨c.scope, contribution isChoice ⟨name, args.length⟩ params fs chosen⟩⟩ := by
  simp only [addDefinition, bind_iff, inRule_iff, modify_iff] at h
  obtain ⟨params, s₁, hparams, ⟨chosen, scope'⟩, _, ⟨r, hr, rfl⟩, rfl⟩ := h
  exact ⟨params, s₁, chosen, ⟨r, scope'⟩, hparams, hr, rfl⟩

/-- A rule is encoded by its body, the shape of its head and what that adds. -/
theorem addRule_returns {rule : Rule} (h : Returns (addRule rule) s u s') :
    ∃ fs c shape c', Returns (body rule.body) ⟨s.registry, []⟩ fs c ∧
      Returns (headShape rule.head) c shape c' ∧
      match shape with
      | .trivial => s' = ⟨c'.registry, s.encoding⟩
      | .constraint => s' = ⟨c'.registry, { s.encoding with constraints :=
          s.encoding.constraints ++ [.close .universal c'.scope (.not (.and fs))] }⟩
      | .atom name args =>
        Returns (addDefinition false name args fs c'.scope) ⟨c'.registry, s.encoding⟩ u s'
      | .choice name args =>
        Returns (addDefinition true name args fs c'.scope) ⟨c'.registry, s.encoding⟩ u s' := by
  simp only [addRule, bind_iff, inRule_iff] at h
  obtain ⟨⟨fs, scope⟩, _, ⟨r, hbody, rfl⟩, ⟨shape, scope'⟩, _, ⟨r', hshape, rfl⟩, h⟩ := h
  refine ⟨fs, ⟨r, scope⟩, shape, ⟨r', scope'⟩, hbody, hshape, ?_⟩
  cases shape with
  | trivial => exact (pure_iff.mp h).2.symm
  | constraint => exact (modify_iff.mp h).symm
  | atom name args | choice name args => exact h

theorem definition?_eq_some (h : e.definition? p = some d) :
    d ∈ e.definitions ∧ d.predicate = p := by
  rw [definition?] at h
  exact ⟨mem_of_find?_eq_some h, by simpa using find?_some h⟩

theorem definition?_eq_none : e.definition? p = none ↔ p ∉ e.definitions.map (·.predicate) := by
  simp [definition?, find?_eq_none]

/-- A contribution to the one definition of its predicate. -/
theorem bound_map_addRule {ds : List RuleFormulas} (hnodup : (ds.map (·.predicate)).Nodup)
    (hp : p ∈ ds.map (·.predicate)) (f : OpenFormula) :
    ((ds.map fun d => if d.predicate = p then { d with rules := d.rules ++ [f] } else d).flatMap
      (·.bound)).Perm (ds.flatMap (·.bound) ++ f.bound) := by
  induction ds with
  | nil => cases hp
  | cons d ds ih =>
    rw [map_cons, nodup_cons] at hnodup
    rw [map_cons, flatMap_cons, flatMap_cons]
    by_cases hdp : d.predicate = p
    · have hothers : ds.map (fun d => if d.predicate = p then { d with rules := d.rules ++ [f] }
          else d) = ds := by
        conv_rhs => rw [← map_id ds]
        refine map_congr_left fun d' hd' => if_neg fun he => hnodup.1 ?_
        rw [hdp, ← he]
        exact mem_map_of_mem hd'
      have hbound : ({ d with rules := d.rules ++ [f] } : RuleFormulas).bound = d.bound ++ f.bound := by
        simp [RuleFormulas.bound]
      rw [if_pos hdp, hothers, hbound, append_assoc, append_assoc]
      exact List.Perm.append_left _ perm_append_comm
    · rw [if_neg hdp, append_assoc]
      refine List.Perm.append_left _ (ih hnodup.2 ?_)
      exact (mem_cons.mp hp).resolve_left fun he => hdp he.symm

/-- A contribution goes to the definition of its predicate alone. -/
theorem mem_addRuleFormula {f : OpenFormula} {d₀ : RuleFormulas}
    (hnodup : (e.definitions.map (·.predicate)).Nodup) (hd₀ : d₀ ∈ e.definitions)
    (hd : d ∈ (e.addRuleFormula d₀.predicate f).definitions) :
    (d ∈ e.definitions ∧ d.predicate ≠ d₀.predicate) ∨ d = { d₀ with rules := d₀.rules ++ [f] } := by
  obtain ⟨d', hd', rfl⟩ := mem_map.mp hd
  by_cases he : d'.predicate = d₀.predicate
  · rw [if_pos he, inj_on_of_nodup_map hnodup hd' hd₀ he]
    exact .inr rfl
  · rw [if_neg he]
    exact .inl ⟨hd', he⟩

theorem map_predicate_addRuleFormula (e : Encoding) (p : Symbol) (f : OpenFormula) :
    (e.addRuleFormula p f).definitions.map (·.predicate) = e.definitions.map (·.predicate) := by
  rw [addRuleFormula, map_map]
  refine map_congr_left fun d _ => ?_
  simp only [Function.comp_apply]
  split <;> rfl

/-- A contribution brings its own variables along. -/
theorem bound_addRuleFormula (hnodup : (e.definitions.map (·.predicate)).Nodup)
    (hp : p ∈ e.definitions.map (·.predicate)) (f : OpenFormula) :
    (e.addRuleFormula p f).bound.Perm (e.bound ++ f.bound) := by
  have h := (bound_map_addRule hnodup hp f).append_right (e.constraints.flatMap (·.binders))
  refine h.trans ?_
  rw [bound, append_assoc, append_assoc]
  exact List.Perm.append_left _ perm_append_comm

/-- The formulas of a program bind different variables, all declared, leave none free
and are sorted. -/
structure Scoped (s : State) : Prop where
  distinct : (s.encoding.definitions.map (·.predicate)).Nodup
  nodup : s.encoding.bound.Nodup
  below : ∀ v : Nat, v ∈ s.encoding.bound → v < s.registry.variableTable.size
  declared : ∀ d ∈ s.encoding.definitions, d.predicate ∈ s.registry.symbols
  params : ∀ d ∈ s.encoding.definitions, d.params.length = d.predicate.arity ∧
    ∀ v ∈ d.params, s.registry.variableDomain v = some .program
  /-- A contribution has the variables of its predicate and of its rule. -/
  rules : ∀ d ∈ s.encoding.definitions, ∀ f ∈ d.rules,
    (∀ v ∈ f.formula.freeVariables, v ∈ d.params ∨ v ∈ f.free) ∧
      (∀ q, f.formula.mentions q → q ∈ s.registry.symbols) ∧
      ∀ R, s.registry.Grows R → (f.close .existential).Sorted R
  constraints : ∀ f ∈ s.encoding.constraints,
    (∀ v, v ∉ f.freeVariables) ∧ (∀ q, f.mentions q → q ∈ s.registry.symbols) ∧
      ∀ R, s.registry.Grows R → f.Sorted R

namespace Scoped

theorem empty (r : Registry) : Scoped ⟨r, .empty⟩ := by
  constructor <;> simp [Encoding.empty, Encoding.bound]

theorem params_subset (hd : d ∈ e.definitions) : d.params ⊆ e.bound := by
  intro v hv
  refine mem_append_left _ (mem_flatMap.mpr ⟨d, hd, ?_⟩)
  exact mem_append_left _ hv

/-- The variables of one definition are distinct. -/
theorem nodup_of_mem (h : Scoped s) (hd : d ∈ s.encoding.definitions) : d.bound.Nodup :=
  (nodup_flatMap.mp (nodup_append.mp h.nodup).1).1 d hd

/-- More declarations do no harm. -/
theorem grows (h : Scoped s) (hr : s.registry.Grows r) : Scoped ⟨r, s.encoding⟩ where
  distinct := h.distinct
  nodup := h.nodup
  below := fun v hv => Nat.lt_of_lt_of_le (h.below v hv) hr.size
  declared := fun d hd => hr.symbols (h.declared d hd)
  params := fun d hd => ⟨(h.params d hd).1, fun v hv => by
    rw [hr.domain (h.below v (params_subset hd hv))]
    exact (h.params d hd).2 v hv⟩
  rules := fun d hd f hf => (h.rules d hd f hf).imp_right fun h =>
    ⟨fun q hq => hr.symbols (h.1 q hq), fun R hR => h.2 R (hr.trans hR)⟩
  constraints := fun f hf => (h.constraints f hf).imp_right fun h =>
    ⟨fun q hq => hr.symbols (h.1 q hq), fun R hR => h.2 R (hr.trans hR)⟩

/-- A closed constraint whose variables are new. -/
theorem addConstraint (h : Scoped s) {f : Formula} (hnodup : f.binders.Nodup)
    (hnew : ∀ v ∈ f.binders, v ∉ s.encoding.bound)
    (hbelow : ∀ v : Nat, v ∈ f.binders → v < s.registry.variableTable.size)
    (hclosed : ∀ v, v ∉ f.freeVariables) (hdeclared : ∀ q, f.mentions q → q ∈ s.registry.symbols)
    (hsorted : ∀ R, s.registry.Grows R → f.Sorted R) :
    Scoped ⟨s.registry, { s.encoding with constraints := s.encoding.constraints ++ [f] }⟩ := by
  have hbound : ({ s.encoding with constraints := s.encoding.constraints ++ [f] } : Encoding).bound =
      s.encoding.bound ++ f.binders := by
    simp [bound]
  refine ⟨h.distinct, ?_, fun v hv => ?_, h.declared, h.params, h.rules, fun g hg => ?_⟩
  · rw [hbound]
    exact nodup_append.mpr ⟨h.nodup, hnodup, fun v hv w hw he => hnew w hw (he ▸ hv)⟩
  · rw [hbound] at hv
    rcases mem_append.mp hv with hv | hv
    · exact h.below v hv
    · exact hbelow v hv
  · rcases mem_append.mp hg with hg | hg
    · exact h.constraints g hg
    · rw [mem_singleton.mp hg]
      exact ⟨hclosed, hdeclared, hsorted⟩

/-- A definition without rules whose variables are new. -/
theorem addDefinition (h : Scoped s) (hp : p ∉ s.encoding.definitions.map (·.predicate))
    (hnodup : params.Nodup) (hnew : ∀ v ∈ params, v ∉ s.encoding.bound)
    (hbelow : ∀ v : Nat, v ∈ params → v < s.registry.variableTable.size)
    (hdeclared : p ∈ s.registry.symbols) (hlen : params.length = p.arity)
    (hdomain : ∀ v ∈ params, s.registry.variableDomain v = some .program) : Scoped ⟨s.registry,
      { s.encoding with definitions := s.encoding.definitions ++ [⟨p, params, []⟩] }⟩ := by
  have hbound : ({ s.encoding with definitions := s.encoding.definitions ++ [⟨p, params, []⟩] } :
      Encoding).bound.Perm (s.encoding.bound ++ params) := by
    simp only [bound, flatMap_append, flatMap_singleton, RuleFormulas.bound,
      flatMap_nil, append_nil, append_assoc]
    exact List.Perm.append_left _ perm_append_comm
  refine ⟨?_, ?_, fun v hv => ?_, fun d hd => ?_, fun d hd => ?_, fun d hd f hf => ?_, h.constraints⟩
  · rw [map_append]
    refine nodup_append.mpr ⟨h.distinct, by simp, fun q hq q' hq' he => ?_⟩
    rw [map_singleton, mem_singleton] at hq'
    rw [he, hq'] at hq
    exact hp hq
  · rw [hbound.nodup_iff]
    exact nodup_append.mpr ⟨h.nodup, hnodup, fun v hv w hw he => hnew w hw (he ▸ hv)⟩
  · rcases mem_append.mp (hbound.mem_iff.mp hv) with hv | hv
    · exact h.below v hv
    · exact hbelow v hv
  · rcases mem_append.mp hd with hd | hd
    · exact h.declared d hd
    · rw [mem_singleton.mp hd]
      exact hdeclared
  · rcases mem_append.mp hd with hd | hd
    · exact h.params d hd
    · rw [mem_singleton.mp hd]
      exact ⟨hlen, hdomain⟩
  · rcases mem_append.mp hd with hd | hd
    · exact h.rules d hd f hf
    · rw [mem_singleton.mp hd] at hf
      cases hf

/-- A contribution whose variables are new. -/
theorem addRuleFormula (h : Scoped s) (hp : ∃ d ∈ s.encoding.definitions, d.predicate = p ∧
      d.params = params) {f : OpenFormula} (hnodup : f.bound.Nodup)
    (hnew : ∀ v ∈ f.bound, v ∉ s.encoding.bound)
    (hbelow : ∀ v : Nat, v ∈ f.bound → v < s.registry.variableTable.size)
    (hfree : ∀ v ∈ f.formula.freeVariables, v ∈ params ∨ v ∈ f.free)
    (hdeclared : ∀ q, f.formula.mentions q → q ∈ s.registry.symbols)
    (hsorted : ∀ R, s.registry.Grows R → (f.close .existential).Sorted R) :
    Scoped ⟨s.registry, s.encoding.addRuleFormula p f⟩ := by
  obtain ⟨d₀, hd₀, rfl, rfl⟩ := hp
  have hbound := bound_addRuleFormula h.distinct (mem_map_of_mem hd₀) f
  refine ⟨?_, ?_, fun v hv => ?_, fun d hd => ?_, fun d hd => ?_, fun d hd g hg => ?_, h.constraints⟩
  · rw [map_predicate_addRuleFormula]
    exact h.distinct
  · rw [hbound.nodup_iff]
    exact nodup_append.mpr ⟨h.nodup, hnodup, fun v hv w hw he => hnew w hw (he ▸ hv)⟩
  · rcases mem_append.mp (hbound.mem_iff.mp hv) with hv | hv
    · exact h.below v hv
    · exact hbelow v hv
  · rcases mem_addRuleFormula h.distinct hd₀ hd with ⟨hd, -⟩ | rfl
    · exact h.declared d hd
    · exact h.declared d₀ hd₀
  · rcases mem_addRuleFormula h.distinct hd₀ hd with ⟨hd, -⟩ | rfl
    · exact h.params d hd
    · exact h.params d₀ hd₀
  · rcases mem_addRuleFormula h.distinct hd₀ hd with ⟨hd, -⟩ | rfl
    · exact h.rules d hd g hg
    · rcases mem_append.mp hg with hg | hg
      · exact h.rules d₀ hd₀ g hg
      · rw [mem_singleton.mp hg]
        exact ⟨hfree, hdeclared, hsorted⟩

end Scoped

/-- The variables for the arguments of a predicate stay the same or are new. -/
theorem headParams_scoped (hs : Scoped s) (hp : p ∈ s.registry.symbols)
    (h : Returns (headParams p) s params s') (scope : List Variable) :
    ∃ new, Scoped s' ∧ Allocates [] ⟨s.registry, scope⟩ new ⟨s'.registry, scope⟩ ∧
      (∀ v ∈ s'.encoding.bound, v ∈ s.encoding.bound ∨ v ∈ new) ∧
      ∃ d ∈ s'.encoding.definitions, d.predicate = p ∧ d.params = params := by
  rcases headParams_cases h with ⟨d, hd, rfl, rfl⟩ | ⟨hd, rfl, rfl⟩
  · obtain ⟨hmem, hpredicate⟩ := definition?_eq_some hd
    exact ⟨[], hs, Allocates.refl _ _, fun v hv => .inl hv, d, hmem, hpredicate, rfl⟩
  · have hgrows := s.registry.grows_addGenerated (some .program) p.arity
    have halloc := Allocates.generated [] ⟨s.registry, scope⟩ (some .program) p.arity
    refine ⟨_, ?_, halloc, fun v hv => ?_, _,
      mem_append_right _ (mem_singleton.mpr rfl), rfl, rfl⟩
    · refine (hs.grows hgrows).addDefinition (definition?_eq_none.mp hd) nodup_range' ?_
        halloc.below (hgrows.symbols hp) length_range' ?_
      · intro v hv hbound
        have hlt := hs.below v hbound
        have hle := (mem_range'_1.mp hv).1
        exact Nat.lt_irrefl _ (Nat.lt_of_lt_of_le hlt hle)
      · exact fun v hv => Registry.variableDomain_addGenerated _ hv
    · simp only [bound, flatMap_append, flatMap_singleton, RuleFormulas.bound,
        flatMap_nil, append_nil, mem_append] at hv ⊢
      rcases hv with (hv | hv) | hv
      · exact .inl (.inl hv)
      · exact .inr hv
      · exact .inl (.inr hv)

/-- The conjunction of no formulas is written as truth. -/
theorem Yields.conjunctionOf {given : List Variable} (h : Yields given names c (.and fs) c') :
    Yields given names c (conjunctionOf fs) c' := by
  cases fs with
  | nil => exact ⟨h.allocates, by simp [Encoding.conjunctionOf], by simp [Encoding.conjunctionOf],
      fun _ _ _ _ => Formula.sorted_boolean true⟩
  | cons f fs => exact h

theorem binders_conjunctionOf (fs : List Formula) :
    (conjunctionOf fs).binders = fs.flatMap (·.binders) := by
  cases fs with
  | nil => rfl
  | cons f fs => exact Formula.binders_join .and (f :: fs)

/-- The contribution of a rule, given variables for the arguments. -/
theorem contribution_yields (isChoice : Bool) {chosen : List Formula}
    {r₁ : Registry} (hbody : Yields [] names ⟨r, []⟩ (.and fs) c)
    (hgrows : c.registry.Grows r₁) (hp : p ∈ r₁.symbols) (hlen : params.length = p.arity)
    (hchosen : Yields params names ⟨r₁, c.scope⟩ (.and chosen) c') :
    Yields params names ⟨r, []⟩ (contribution isChoice p params fs chosen) c' := by
  have hown : Yields params names ⟨r₁, c.scope⟩
      (.and (if isChoice then [Formula.atomOf p params] else [])) ⟨r₁, c.scope⟩ := by
    cases isChoice with
    | false => exact Yields.and_nil
    | true =>
      have hatom : Yields params names ⟨r₁, c.scope⟩ (signedAtom .plain p params) ⟨r₁, c.scope⟩ :=
        signedAtom_yields hlen hp
      exact hatom.and_singleton
  have hbody' := hbody.mono (nil_subset params) (List.Subset.refl names)
  exact ((hbody'.and_append (Yields.after (Allocates.of_grows hgrows) hown)).and_append
    hchosen).conjunctionOf

/-- Variables made before the arguments are not bound by the contribution. -/
theorem contribution_avoids (isChoice : Bool) {chosen : List Formula}
    {r₁ : Registry} (hbody : Yields [] names ⟨r, []⟩ (.and fs) c)
    (hchosen : Yields params names ⟨r₁, c.scope⟩ (.and chosen) c') {v : Nat}
    (hv : v ∈ c'.scope ++ (contribution isChoice p params fs chosen).binders) :
    v < c.registry.variableTable.size ∨ r₁.variableTable.size ≤ v := by
  have hc := hbody.allocates.wellFormed (RuleContext.wellFormed_nil _)
  rcases mem_append.mp hv with hv | hv
  · exact (hchosen.allocates.scope_range v hv).imp (hc.below v) And.left
  · rw [contribution, binders_conjunctionOf, flatMap_append, flatMap_append] at hv
    rcases mem_append.mp hv with hv | hv
    · rcases mem_append.mp hv with hv | hv
      · rw [← Formula.binders_join .and] at hv
        exact .inl (hbody.allocates.below v hv)
      · cases isChoice <;> simp [Formula.atomOf, Formula.binders] at hv
    · rw [← Formula.binders_join .and] at hv
      exact .inr (hchosen.allocates.range v hv).1

/-- The contribution of a rule has variables that are new. -/
theorem addDefinition_scoped {isChoice : Bool} {name : Text} {args : List Rule.Term} (hs : Scoped s)
    (hbody : Yields [] names ⟨s.registry, []⟩ (.and fs) c)
    (hp : (⟨name, args.length⟩ : Symbol) ∈ c.registry.symbols)
    (h : Returns (addDefinition isChoice name args fs c.scope) ⟨c.registry, s.encoding⟩ u s') :
    Scoped s' ∧ s.registry.Grows s'.registry := by
  obtain ⟨params, s₁, chosen, c', hparams, hchosen, rfl⟩ := addDefinition_returns h
  have hc : c.WellFormed := hbody.allocates.wellFormed (RuleContext.wellFormed_nil _)
  obtain ⟨new, hs₁, hnew, hbound₁, d, hd, hdp, hdparams⟩ :=
    headParams_scoped (hs.grows hbody.allocates.grows) hp hparams c.scope
  have hlen : params.length = args.length := by
    rw [← hdparams, (hs₁.params d hd).1, hdp]
  have hbody' := hbody.mono (List.Subset.refl _)
    (subset_append_left names (Rule.Term.namesOfAll args))
  have hys := (chooseValues_yields (hc.grows hnew.grows) hchosen).mono (List.Subset.refl _)
    (subset_append_right names _)
  have hf := contribution_yields isChoice hbody' hnew.grows (hnew.grows.symbols hp) hlen hys
  obtain ⟨scope, hscope, hnodup, hrange, -⟩ := hf.allocates.fresh
  rw [nil_append] at hscope
  subst hscope
  refine ⟨(hs₁.grows hys.allocates.grows).addRuleFormula ⟨d, hd, hdp, hdparams⟩ ?_ ?_ ?_
    (fun v hv => (hf.free (RuleContext.wellFormed_nil _) v hv).imp_right And.left) hf.declared ?_,
      hf.allocates.grows⟩
  · exact perm_append_comm.nodup hnodup
  · intro v hv hbound
    rcases hbound₁ v hbound with hold | hmade
    · have hlt := hs.below v hold
      have hle := (hrange v (mem_append.mpr (mem_append.mp hv).symm)).1
      exact Nat.lt_irrefl _ (Nat.lt_of_lt_of_le hlt hle)
    · have hbetween := hnew.range v hmade
      have hlt := hbetween.1
      have hgt := hbetween.2
      rcases contribution_avoids isChoice hbody' hys hv with hbefore | hafter
      · exact Nat.lt_irrefl _ (Nat.lt_of_lt_of_le hbefore hlt)
      · exact Nat.lt_irrefl _ (Nat.lt_of_lt_of_le hgt hafter)
  · exact fun v hv => (hrange v (mem_append.mpr (mem_append.mp hv).symm)).2
  · intro R hR
    have hc' := hf.allocates.wellFormed (RuleContext.wellFormed_nil _)
    refine Formula.sorted_close.mpr ⟨hc'.isSome_domain hR,
      hf.sorted (RuleContext.wellFormed_nil _) R hR fun v hv => ?_⟩
    subst hdparams
    rw [((hs₁.grows (hys.allocates.grows.trans hR)).params d hd).2 v hv]
    rfl

theorem Allocates.scope_eq {bound : List Variable}
    (h : Allocates [] c bound c') : c'.scope = c.scope := by
  obtain ⟨new, hscope, -, -, hnames⟩ := h.fresh
  cases new with
  | nil => rw [hscope, append_nil]
  | cons v new => exact absurd (hnames v mem_cons_self) not_mem_nil

/-- What holds after a body also holds after the head's shape was found. -/
theorem Yields.found {c₀ : RuleContext}
    {head : Rule.Head} {shape : HeadShape} (hbody : Yields [] names c₀ (.and fs) c)
    (h : shape.Found head c c') : Yields [] names c₀ (.and fs) c' := by
  have h' := hbody.and_append (Yields.after (h.allocates.mono (nil_subset names)) Yields.and_nil)
  rwa [append_nil] at h'

/-- Adding a rule keeps the variables apart. -/
theorem addRule_scoped {rule : Rule} (hs : Scoped s)
    (h : Returns (addRule rule) s u s') : Scoped s' ∧ s.registry.Grows s'.registry := by
  obtain ⟨fs, c, shape, c', hfs, hshape, h⟩ := addRule_returns h
  have hfound := headShape_found hshape
  have hbody := (body_yields (RuleContext.wellFormed_nil _) hfs).found hfound
  cases shape with
  | trivial =>
    subst h
    exact ⟨hs.grows hbody.allocates.grows, hbody.allocates.grows⟩
  | constraint =>
    subst h
    obtain ⟨scope, hscope, hnodup, hrange, -⟩ := hbody.allocates.fresh
    rw [nil_append] at hscope
    subst hscope
    have hbinders : ∀ v : Nat, v ∈ (Formula.close .universal c'.scope (.not (.and fs))).binders →
        s.registry.variableTable.size ≤ v ∧ v < c'.registry.variableTable.size := by
      intro v hv
      rw [Formula.binders_close] at hv
      exact hrange v (mem_append.mpr (mem_append.mp hv).symm)
    refine ⟨(hs.grows hbody.allocates.grows).addConstraint ?_ ?_ (fun v hv => (hbinders v hv).2)
      ?_ ?_ ?_, hbody.allocates.grows⟩
    · rw [Formula.binders_close]
      exact perm_append_comm.nodup hnodup
    · intro v hv hbound
      exact Nat.lt_irrefl _ (Nat.lt_of_lt_of_le (hs.below v hbound) (hbinders v hv).1)
    · intro v hv
      rw [Formula.mem_freeVariables_close, Formula.mem_freeVariables_not] at hv
      exact hv.2 ((hbody.free (RuleContext.wellFormed_nil _) v hv.1).resolve_left not_mem_nil).1
    · intro q hq
      rw [Formula.mentions_close, Formula.mentions_not] at hq
      exact hbody.declared q hq
    · intro R hR
      have hc' := hbody.allocates.wellFormed (RuleContext.wellFormed_nil _)
      exact Formula.sorted_close.mpr ⟨hc'.isSome_domain hR, Formula.sorted_not.mpr
        (hbody.sorted (RuleContext.wellFormed_nil _) R hR nofun)⟩
  | atom name args | choice name args => exact addDefinition_scoped hs hbody (hfound.declared _ rfl) h

/-- Adding rules keeps the variables apart. -/
theorem addRules_scoped {rules : List Rule} (hs : Scoped s)
    (h : Returns (addRules rules) s u s') : Scoped s' ∧ s.registry.Grows s'.registry := by
  induction rules generalizing s with
  | nil =>
    obtain ⟨-, rfl⟩ := pure_iff.mp h
    exact ⟨hs, Registry.Grows.refl _⟩
  | cons rule rules ih =>
    obtain ⟨_, s₁, hrule, hrules⟩ := bind_iff.mp h
    obtain ⟨hs₁, hgrows⟩ := addRule_scoped hs hrule
    obtain ⟨hs', hgrows'⟩ := ih hs₁ hrules
    exact ⟨hs', hgrows.trans hgrows'⟩

end Encoding

end LogicProgram
