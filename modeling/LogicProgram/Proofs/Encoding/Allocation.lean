import LogicProgram.Encoding.Basic
import LogicProgram.Proofs.Formula.Sorts
import LogicProgram.Proofs.Rule

/-!
# New variables of an encoding

Every step that encodes a part of a rule takes its bound variables and the variables of
the rule from the numbers that are still free. So no two quantifiers of an encoding bind
the same variable, and none binds a variable of a rule.
-/

namespace LogicProgram.Encoding

open List
open Returns (bind_iff pure_iff)

variable {name : Text} {f : Formula} {R : Registry} {v z : Variable} {shape : HeadShape} {sign : Rule.Sign}
  {left right : Rule.Term} {fs : List Formula} {l : Rule.Literal} {vs : List Variable} {args : List Rule.Term}

variable {α : Type} {c c' c'' : RuleContext}

namespace Step

/-- A step on the registry leaves the scope alone. -/
@[simp] theorem register_iff {step : Registering α} {a : α} :
    Returns (register step) c a c' ↔ ∃ r, Returns step c.registry a r ∧ c' = ⟨r, c.scope⟩ := by
  rw [@Returns.within_iff _ _ _ _ c c' _ _ step _ c.registry (⟨·, c.scope⟩) (fun a _ => a)]
  · simp [eq_comm]
  all_goals
    intro _ r hrun
    simp only [register, outcome_bind, outcome_get, hrun]
    rfl

@[simp] theorem unsupported_iff {feature : Text} {a : α} :
    Returns (unsupported feature) c a c' ↔ False := Returns.throw_iff

theorem integer_iff : Returns integer c v c' ↔ v = c.registry.variableTable.size ∧
      c' = ⟨c.registry.addGenerated (some .integer) 1, c.scope⟩ := by
  simp only [integer, register_iff, Registering.generated_iff, and_assoc, exists_and_left, exists_eq_left]

theorem objects_iff {n : Nat} :
    Returns (objects n) c vs c' ↔ vs = List.range' c.registry.variableTable.size n ∧
      c' = ⟨c.registry.addGenerated (some .program) n, c.scope⟩ := by
  simp only [objects, register_iff, Registering.generatedMany_iff, and_assoc, exists_and_left, exists_eq_left]

/-- A name stands for the variable of that name, or for a new one. -/
theorem ruleVariable_cases (h : Returns (ruleVariable name) c v c') :
    (v ∈ c.scope ∧ c.registry.nameOf v = name ∧ c' = c) ∨
      ((name = "_" ∨ ∀ w ∈ c.scope, c.registry.nameOf w ≠ name) ∧
        v = c.registry.variableTable.size ∧
        c' = ⟨c.registry.addVariables #[⟨name, none⟩], c.scope ++ [v]⟩) := by
  simp only [ruleVariable, bind_iff, Returns.get_iff] at h
  obtain ⟨_, _, ⟨rfl, rfl⟩, h⟩ := h
  split at h
  · next w hw =>
    obtain ⟨rfl, rfl⟩ := pure_iff.mp h
    split at hw
    · cases hw
    · have hfound := find?_some hw
      exact .inl ⟨mem_of_find?_eq_some hw, beq_iff_eq.mp hfound, rfl⟩
  · next hw =>
    simp only [bind_iff, register_iff, Registering.namedVariable_iff, Returns.modify_iff,
      pure_iff] at h
    obtain ⟨_, _, ⟨_, ⟨rfl, rfl⟩, rfl⟩, _, _, rfl, rfl, rfl⟩ := h
    refine .inr ⟨?_, rfl, rfl⟩
    split at hw
    · next heq => exact .inl (beq_iff_eq.mp heq)
    · refine .inr fun w hmem hname => ?_
      exact find?_eq_none.mp hw w hmem (beq_iff_eq.mpr hname)

end Step

/-- A step of a rule changes the registry and gives the rule's variables. -/
@[simp] theorem inRule_iff {scope : List Variable} {step : Step α} {b : α × List Variable}
    {s s' : State} : Returns (inRule scope step) s b s' ↔
      ∃ r, Returns step ⟨s.registry, scope⟩ b.1 ⟨r, b.2⟩ ∧ s' = { s with registry := r } := by
  rw [@Returns.within_iff _ _ _ _ s s' _ _ step _ ⟨s.registry, scope⟩
    (fun c => ⟨c.registry, s.encoding⟩) (fun a c => (a, c.scope))]
  · constructor
    · rintro ⟨a, c, hc, rfl, rfl⟩
      exact ⟨c.registry, hc, rfl⟩
    · rintro ⟨r, hr, rfl⟩
      exact ⟨_, _, hr, rfl, rfl⟩
  · intro a c hrun
    simp only [inRule, outcome_bind, outcome_get, hrun]
    rfl
  · intro e c hrun
    simp only [inRule, outcome_bind, outcome_get, hrun]
    rfl

/-- The variables of a rule are declared program variables, told apart by their
names unless they are anonymous. -/
structure RuleContext.WellFormed (c : RuleContext) : Prop where
  below : ∀ v : Nat, v ∈ c.scope → v < c.registry.variableTable.size
  /-- They range over all objects. -/
  domain : ∀ v ∈ c.scope, c.registry.variableDomain v = some .program
  nodup : c.scope.Nodup
  /-- Only anonymous variables share a name. -/
  named : c.scope.Pairwise fun v w =>
    c.registry.nameOf v = c.registry.nameOf w → c.registry.nameOf v = "_"

theorem RuleContext.wellFormed_nil (r : Registry) : RuleContext.WellFormed ⟨r, []⟩ :=
  ⟨by simp, by simp, nodup_nil, List.Pairwise.nil⟩

/-- The same scope in a grown registry. -/
theorem RuleContext.WellFormed.grows (h : c.WellFormed) {r : Registry} (hr : c.registry.Grows r) :
    RuleContext.WellFormed ⟨r, c.scope⟩ where
  below := fun v hv => Nat.lt_of_lt_of_le (h.below v hv) hr.size
  domain := fun v hv => (hr.domain (h.below v hv)).trans (h.domain v hv)
  nodup := h.nodup
  named := by
    refine h.named.imp_of_mem fun hv hw himp => ?_
    rw [hr.nameOf (h.below _ hv), hr.nameOf (h.below _ hw)]
    exact himp

theorem RuleContext.WellFormed.isSome_domain (h : c.WellFormed)
    (hR : c.registry.Grows R) : ∀ v ∈ c.scope, (R.variableDomain v).isSome := by
  intro v hv
  rw [hR.domain (h.below v hv), h.domain v hv]
  rfl

/-- Between two states of a rule's encoding the quantifiers that bind `bound` were
made: these variables and the new ones of the rule are new and distinct, and the
latter bear the given names. -/
structure Allocates (names : List Text) (c : RuleContext) (bound : List Variable)
    (c' : RuleContext) : Prop where
  grows : c.registry.Grows c'.registry
  wellFormed : c.WellFormed → c'.WellFormed
  fresh : ∃ new, c'.scope = c.scope ++ new ∧ (bound ++ new).Nodup ∧
    (∀ v : Nat, v ∈ bound ++ new →
      c.registry.variableTable.size ≤ v ∧ v < c'.registry.variableTable.size) ∧
    ∀ v ∈ new, c'.registry.nameOf v ∈ names

namespace Allocates

variable {names names' : List Text} {bound bound' : List Variable}

/-- A step that makes no variables. -/
theorem of_grows {r : Registry} (h : c.registry.Grows r) : Allocates names c [] ⟨r, c.scope⟩ :=
  ⟨h, fun hc => hc.grows h, [], by simp, by simp, by simp, by simp⟩

theorem refl (names : List Text) (c : RuleContext) : Allocates names c [] c :=
  of_grows (Registry.Grows.refl c.registry)

/-- Steps one after the other bind different variables. -/
theorem trans (h : Allocates names c bound c') (h' : Allocates names c' bound' c'') :
    Allocates names c (bound ++ bound') c'' := by
  obtain ⟨new, hscope, hnodup, hrange, hnames⟩ := h.fresh
  obtain ⟨new', hscope', hnodup', hrange', hnames'⟩ := h'.fresh
  have hperm : ((bound ++ bound') ++ (new ++ new')).Perm ((bound ++ new) ++ (bound' ++ new')) := by
    rw [append_assoc, append_assoc, perm_append_left_iff, ← append_assoc,
      ← append_assoc, perm_append_right_iff]
    exact perm_append_comm
  refine ⟨h.grows.trans h'.grows, fun hc => h'.wellFormed (h.wellFormed hc), new ++ new', ?_, ?_,
    fun v hv => ?_, fun v hv => ?_⟩
  · rw [hscope', hscope, append_assoc]
  · rw [hperm.nodup_iff]
    refine nodup_append.mpr ⟨hnodup, hnodup', fun v hv w hw he => ?_⟩
    have hlt := (hrange v hv).2
    have hle := (hrange' w hw).1
    rw [he] at hlt
    omega
  · have hsize := h.grows.size
    have hsize' := h'.grows.size
    rcases mem_append.mp (hperm.mem_iff.mp hv) with hv | hv
    · have hb := hrange v hv
      omega
    · have hb := hrange' v hv
      omega
  · rcases mem_append.mp hv with hv | hv
    · rw [h'.grows.nameOf (hrange v (mem_append_right _ hv)).2]
      exact hnames v hv
    · exact hnames' v hv

/-- More names may be allowed. -/
theorem mono (h : Allocates names c bound c') (hsub : names ⊆ names') :
    Allocates names' c bound c' := by
  obtain ⟨new, hscope, hnodup, hrange, hnames⟩ := h.fresh
  exact ⟨h.grows, h.wellFormed, new, hscope, hnodup, hrange, fun v hv => hsub (hnames v hv)⟩

/-- Generated variables are bound by the quantifier that they were made for. -/
theorem generated (names : List Text) (c : RuleContext) (domain : Option Domain) (n : Nat) :
    Allocates names c (List.range' c.registry.variableTable.size n)
      ⟨c.registry.addGenerated domain n, c.scope⟩ := by
  have hr := c.registry.grows_addGenerated domain n
  refine ⟨hr, fun hc => hc.grows hr, [], by simp, ?_, fun v hv => ?_, by simp⟩
  · rw [append_nil]
    exact nodup_range'
  · rw [append_nil, mem_range'_1] at hv
    rw [Registry.size_addGenerated]
    exact hv

theorem scope_subset (h : Allocates names c bound c') : c.scope ⊆ c'.scope := by
  obtain ⟨new, hscope, -⟩ := h.fresh
  rw [hscope]
  exact subset_append_left _ _

theorem range (h : Allocates names c bound c') : ∀ v : Nat, v ∈ bound →
    c.registry.variableTable.size ≤ v ∧ v < c'.registry.variableTable.size := by
  obtain ⟨new, -, -, hrange, -⟩ := h.fresh
  exact fun v hv => hrange v (mem_append_left _ hv)

theorem below (h : Allocates names c bound c') :
    ∀ v : Nat, v ∈ bound → v < c'.registry.variableTable.size := fun v hv => (h.range v hv).2

/-- The variables of the rule are old or new. -/
theorem scope_range (h : Allocates names c bound c') : ∀ v : Nat, v ∈ c'.scope →
    v ∈ c.scope ∨ c.registry.variableTable.size ≤ v ∧ v < c'.registry.variableTable.size := by
  obtain ⟨new, hscope, -, hrange, -⟩ := h.fresh
  intro v hv
  rw [hscope, mem_append] at hv
  exact hv.imp_right fun hv => hrange v (mem_append_right _ hv)

/-- No variable of the rule is bound by a quantifier. -/
theorem not_mem_scope (h : Allocates names c bound c') (hc : c.WellFormed)
    (hv : v ∈ bound) : v ∉ c'.scope := by
  obtain ⟨new, hscope, hnodup, hrange, -⟩ := h.fresh
  rw [hscope, mem_append, not_or]
  constructor
  · intro hmem
    have hlt := hc.below v hmem
    have hle := (hrange v (mem_append_left _ hv)).1
    omega
  · intro hmem
    exact (nodup_append.mp hnodup).2.2 v hv v hmem rfl

end Allocates

/-- A step of a rule's encoding makes a formula whose quantifiers bind new
variables, whose free variables are given or variables of the rule with some
names and whose predicates are declared. It is sorted if the given variables have
domains. -/
structure Yields (given : List Variable) (names : List Text) (c : RuleContext) (f : Formula)
    (c' : RuleContext) : Prop where
  allocates : Allocates names c f.binders c'
  free : c.WellFormed → ∀ v ∈ f.freeVariables, v ∈ given ∨ v ∈ c'.scope ∧ c'.registry.nameOf v ∈ names
  declared : ∀ p, f.mentions p → p ∈ c'.registry.symbols
  sorted : c.WellFormed → ∀ R, c'.registry.Grows R → (∀ v ∈ given, (R.variableDomain v).isSome) →
    f.Sorted R

namespace Yields

variable {given given' : List Variable} {names names' : List Text} {f : Formula}

theorem mono (h : Yields given names c f c') (hgiven : given ⊆ given') (hnames : names ⊆ names') :
    Yields given' names' c f c' :=
  ⟨h.allocates.mono hnames,
    fun hc v hv => (h.free hc v hv).imp (@hgiven v) (And.imp_right (@hnames _)), h.declared,
    fun hc R hR hdomains => h.sorted hc R hR fun v hv => hdomains v (hgiven hv)⟩

/-- Declarations may be made before. -/
theorem after (h : Allocates names c [] c') (hf : Yields given names c' f c'') :
    Yields given names c f c'' :=
  ⟨h.trans hf.allocates, fun hc => hf.free (h.wellFormed hc), hf.declared,
    fun hc => hf.sorted (h.wellFormed hc)⟩

/-- An equation that gives a variable its value. -/
theorem equals {t : Term} (h : Allocates names c [] c')
    (ht : ∀ v ∈ t.vars, v ∈ c'.scope ∧ c'.registry.nameOf v ∈ names)
    (hsorted : ∀ R, c'.registry.Grows R → t.Sorted R) :
    Yields [z] names c (.equals (.variable z) t) c' := by
  refine ⟨h, fun _ v hv => ?_, fun p hp => (Formula.mentions_compare.mp hp).elim,
    fun _ R hR hz => Formula.sorted_equals_variable.mpr ⟨hz z mem_cons_self, hsorted R hR⟩⟩
  exact (Formula.mem_freeVariables_compare.mp hv).imp id (ht v)

theorem and_nil : Yields given names c (.and []) c :=
  ⟨Allocates.refl names c, by simp, by simp, fun _ _ _ _ => Formula.sorted_join.mpr nofun⟩

theorem and_append {fs gs : List Formula} (hfs : Yields given names c (.and fs) c')
    (hgs : Yields given names c' (.and gs) c'') : Yields given names c (.and (fs ++ gs)) c'' := by
  refine ⟨?_, fun hc v hv => ?_, fun p hp => ?_, fun hc R hR hgiven => ?_⟩
  · have hb : (Formula.and (fs ++ gs)).binders = (Formula.and fs).binders ++ (Formula.and gs).binders := by
      simp only [Formula.binders, Formula.bindersOfAll_eq_flatMap, flatMap_append]
    rw [hb]
    exact hfs.allocates.trans hgs.allocates
  · obtain ⟨g, hg, hgv⟩ := Formula.mem_freeVariables_join.mp hv
    have hc' := hfs.allocates.wellFormed hc
    rcases mem_append.mp hg with hg | hg
    · refine (hfs.free hc v (Formula.mem_freeVariables_join.mpr ⟨g, hg, hgv⟩)).imp_right fun hmem => ?_
      rw [hgs.allocates.grows.nameOf (hc'.below v hmem.1)]
      exact ⟨hgs.allocates.scope_subset hmem.1, hmem.2⟩
    · exact hgs.free hc' v (Formula.mem_freeVariables_join.mpr ⟨g, hg, hgv⟩)
  · obtain ⟨g, hg, hgp⟩ := Formula.mentions_join.mp hp
    rcases mem_append.mp hg with hg | hg
    · exact hgs.allocates.grows.symbols (hfs.declared p (Formula.mentions_join.mpr ⟨g, hg, hgp⟩))
    · exact hgs.declared p (Formula.mentions_join.mpr ⟨g, hg, hgp⟩)
  · have hsorted := hfs.sorted hc R (hgs.allocates.grows.trans hR) hgiven
    have hsorted' := hgs.sorted (hfs.allocates.wellFormed hc) R hR hgiven
    rw [Formula.sorted_join] at hsorted hsorted' ⊢
    exact forall_mem_append.mpr ⟨hsorted, hsorted'⟩

theorem and_singleton (hf : Yields given names c f c') : Yields given names c (.and [f]) c' := by
  refine ⟨?_, by simpa using hf.free, by simpa using hf.declared,
    by simpa [Formula.sorted_join] using hf.sorted⟩
  simpa [Formula.binders, Formula.bindersOfAll] using hf.allocates

theorem and_cons (hf : Yields given names c f c')
    (hfs : Yields given names c' (.and fs) c'') : Yields given names c (.and (f :: fs)) c'' :=
  hf.and_singleton.and_append hfs

/-- A quantifier over variables that were made before the formula under it. -/
theorem existential (hvs : Allocates names c vs c')
    (hdomains : ∀ R, c'.registry.Grows R → ∀ v ∈ vs, (R.variableDomain v).isSome)
    (hf : Yields (vs ++ given) names c' f c'') : Yields given names c (.existential vs f) c'' := by
  refine ⟨hvs.trans hf.allocates, fun hc v hv => ?_, hf.declared, fun hc R hR hgiven => ?_⟩
  · obtain ⟨hv, hbound⟩ := Formula.mem_freeVariables_quantified.mp hv
    exact (hf.free (hvs.wellFormed hc) v hv).imp_left fun hgiven =>
      (mem_append.mp hgiven).resolve_left hbound
  · have hvs' := hdomains R (hf.allocates.grows.trans hR)
    exact Formula.sorted_quantified.mpr ⟨hvs',
      hf.sorted (hvs.wellFormed hc) R hR (forall_mem_append.mpr ⟨hvs', hgiven⟩)⟩

/-- Comparisons of what is given. -/
theorem compares (h : ∀ f ∈ fs, ∃ op s t, f = .compare op s t ∧ s.vars ++ t.vars ⊆ given)
    (hsorted : ∀ R, c.registry.Grows R → (∀ v ∈ given, (R.variableDomain v).isSome) → ∀ f ∈ fs, f.Sorted R) :
    Yields given names c (.and fs) c := by
  induction fs with
  | nil => exact and_nil
  | cons f fs ih =>
    obtain ⟨⟨op, s, t, rfl, hvars⟩, hfs⟩ := forall_mem_cons.mp h
    refine and_cons ⟨Allocates.refl names c, fun _ v hv => ?_, fun p hp => ?_, fun _ R hR hgiven =>
      hsorted R hR hgiven _ mem_cons_self⟩ (ih hfs fun R hR hgiven f hf =>
        hsorted R hR hgiven f (mem_cons_of_mem _ hf))
    · exact .inl (hvars (mem_append.mpr (Formula.mem_freeVariables_compare.mp hv)))
    · exact (Formula.mentions_compare.mp hp).elim

end Yields

/-- New variables of a domain are made for a quantifier. -/
structure Makes (domain : Domain) (c : RuleContext) (vs : List Variable) (c' : RuleContext) : Prop where
  vars : vs = List.range' c.registry.variableTable.size vs.length
  context : c' = ⟨c.registry.addGenerated (some domain) vs.length, c.scope⟩

namespace Makes

variable {d : Domain} {vs ws : List Variable}

theorem integer (h : Returns Step.integer c v c') : Makes .integer c [v] c' := by
  obtain ⟨rfl, rfl⟩ := Step.integer_iff.mp h
  exact ⟨rfl, rfl⟩

theorem objects {n : Nat} (h : Returns (Step.objects n) c vs c') :
    vs.length = n ∧ Makes .program c vs c' := by
  obtain ⟨rfl, rfl⟩ := Step.objects_iff.mp h
  refine ⟨length_range', ?_, ?_⟩ <;> rw [length_range']

theorem append (h : Makes d c vs c') (h' : Makes d c' ws c'') : Makes d c (vs ++ ws) c'' := by
  obtain ⟨hvs, rfl⟩ := h
  obtain ⟨hws, rfl⟩ := h'
  rw [Registry.size_addGenerated] at hws
  refine ⟨?_, ?_⟩
  · rw [length_append, ← range'_append_1, ← hvs, ← hws]
  · rw [length_append, Registry.addGenerated_addGenerated]

theorem allocates (h : Makes d c vs c') (names : List Text) : Allocates names c vs c' := by
  have hgenerated := Allocates.generated names c (some d) vs.length
  rwa [← h.vars, ← h.context] at hgenerated

theorem domain (h : Makes d c vs c') (hR : c'.registry.Grows R) :
    ∀ v ∈ vs, R.variableDomain v = some d := by
  intro v hv
  rw [h.vars] at hv
  rw [h.context] at hR
  exact hR.domain_addGenerated hv

theorem isSome_domain (h : Makes d c vs c') (hR : c'.registry.Grows R) :
    ∀ v ∈ vs, (R.variableDomain v).isSome := fun v hv => by rw [h.domain hR v hv]; rfl

end Makes

/-- Values of two terms are chosen one after the other, for two of the variables that were made for them. -/
structure ChosenPair (domain : Domain) (vs : List Variable) (a b : Rule.Term) (i j : Variable)
    (c : RuleContext)
    (l r : Formula) (c' : RuleContext) : Prop where
  mem : i ∈ vs ∧ j ∈ vs
  steps : ∃ c₁ c₂, Makes domain c vs c₁ ∧ Returns (chooseValue a i) c₁ l c₂ ∧
    Returns (chooseValue b j) c₂ r c'

/-- A variable of the rule is in its scope from then on. -/
theorem chooseValue_variable (hc : c.WellFormed)
    (h : Returns (chooseValue (.variable name) z) c f c') :
    ∃ v ∈ c'.scope, f = isValue z v ∧ c'.registry.nameOf v = name ∧ Allocates [name] c [] c' := by
  simp only [chooseValue, bind_iff, Step.register_iff, Registering.assignDomain_iff,
    pure_iff] at h
  obtain ⟨v, c₁, hv, _, _, ⟨r, hr, rfl⟩, rfl, rfl⟩ := h
  rcases Step.ruleVariable_cases hv with ⟨hmem, hname, rfl⟩ | ⟨hnew, rfl, rfl⟩
  · rw [Registry.assignDomain_same (hc.domain v hmem)] at hr
    cases hr
    exact ⟨v, hmem, rfl, hname, Allocates.refl _ _⟩
  · rw [Registry.assignDomain_last] at hr
    cases hr
    have hd := Registry.variableDeclaration_addVariables c.registry (k := 0)
      (d := ⟨name, some .program⟩) (show #[(⟨name, some .program⟩ : VariableDeclaration)][0]? = _ from rfl)
    have hname : (c.registry.addVariables #[⟨name, some .program⟩]).nameOf
        c.registry.variableTable.size = name := congrArg VariableDeclaration.name hd
    have hdomain : (c.registry.addVariables #[⟨name, some .program⟩]).variableDomain
        c.registry.variableTable.size = some .program := congrArg VariableDeclaration.domain hd
    have hgrows := c.registry.grows_addVariables #[⟨name, some .program⟩]
    refine ⟨_, by simp, rfl, hname, hgrows, fun _ => ?_, [c.registry.variableTable.size], rfl,
      by simp, by simp, by simp [hname]⟩
    have hold := hc.grows hgrows
    refine ⟨fun v hv => ?_, fun v hv => ?_, ?_, ?_⟩
    · rcases mem_append.mp hv with hv | hv
      · exact hold.below v hv
      · rw [mem_singleton.mp hv, Registry.size_addVariables]
        exact Nat.lt_succ_self _
    · rcases mem_append.mp hv with hv | hv
      · exact hold.domain v hv
      · rw [mem_singleton.mp hv]
        exact hdomain
    · refine nodup_append.mpr ⟨hc.nodup, by simp, fun v hv w hw he => ?_⟩
      have hlt := hc.below v hv
      rw [he, mem_singleton.mp hw] at hlt
      exact Nat.lt_irrefl _ hlt
    · refine pairwise_append.mpr ⟨hold.named, pairwise_singleton _ _, fun v hv w hw => ?_⟩
      rw [mem_singleton.mp hw, hname, hgrows.nameOf (hc.below v hv)]
      intro he
      rcases hnew with hanonymous | hother
      · rw [he, hanonymous]
      · exact absurd he (hother v hv)

/-- A function is a constant of the program. -/
theorem chooseValue_function {external : Bool}
    (h : Returns (chooseValue (.function external name args) z) c f c') :
    external = false ∧ args = [] ∧ f = .equals (.variable z) (.function name []) ∧
      c' = ⟨c.registry.declareFunction ⟨name, 0⟩, c.scope⟩ := by
  rw [chooseValue] at h
  cases external with
  | true => simp at h
  | false =>
    cases args with
    | cons t args => simp at h
    | nil =>
      simp only [isEmpty_nil, Bool.not_true, Bool.false_eq_true, if_false, bind_iff,
        pure_iff, Step.register_iff, Registering.function_iff] at h
      obtain ⟨_, _, ⟨_, rfl, rfl⟩, rfl, rfl⟩ := h
      exact ⟨rfl, rfl, rfl, rfl⟩

/-- An operation is arithmetic on chosen integers or a division. -/
theorem chooseValue_binary {op : Rule.Operator}
    (h : Returns (chooseValue (.binary op left right) z) c f c') :
    (∃ operator i j l r, arithmetic? op = some operator ∧ ChosenPair .integer [i, j] left right i j c l r c' ∧
        f = .existential [i, j] (.and [
          .equals (.variable z) (.binary operator (.variable i) (.variable j)), l, r])) ∨
      (∃ i j q k l r, (op = .divide ∨ op = .modulo) ∧
        ChosenPair .integer [i, j, q, k] left left i j c l r c' ∧
        f = quotient i j q k l r (if op = .divide then isValue z q else isValue z k)) := by
  cases op
  case add | subtract | multiply =>
    simp only [chooseValue, arithmetic?, bind_iff, pure_iff] at h
    obtain ⟨i, c₁, hi, j, c₂, hj, l, c₃, hl, r, _, hr, rfl, rfl⟩ := h
    exact .inl ⟨_, i, j, l, r, rfl, ⟨by simp, _, _, (Makes.integer hi).append (.integer hj), hl, hr⟩, rfl⟩
  case divide | modulo =>
    simp only [chooseValue, arithmetic?, bind_iff, pure_iff] at h
    obtain ⟨i, c₁, hi, j, c₂, hj, q, c₃, hq, k, c₄, hk, l, c₅, hl, r, _, hr, rfl, rfl⟩ := h
    have hvars := (((Makes.integer hi).append (.integer hj)).append (.integer hq)).append (.integer hk)
    exact .inr ⟨i, j, q, k, l, r, by simp, ⟨by simp, _, _, hvars, hl, hr⟩, rfl⟩
  all_goals exact (Step.unsupported_iff.mp h).elim

/-- Only minus is defined on values, and on integers. -/
theorem chooseValue_unary {op : Rule.UnaryOperator} {arg : Rule.Term}
    (h : Returns (chooseValue (.unary op arg) z) c f c') :
      op = .minus ∧ ∃ n c₁ choose, Makes .integer c [n] c₁ ∧
      Returns (chooseValue arg n) c₁ choose c' ∧
      f = .existential [n] (.and [.equals (.variable z) (.unary .negative (.variable n)), choose]) := by
  cases op with
  | minus =>
    simp only [chooseValue, bind_iff, pure_iff] at h
    obtain ⟨n, c₁, hn, choose, _, hchoose, rfl, rfl⟩ := h
    exact ⟨rfl, n, c₁, choose, .integer hn, hchoose, rfl⟩
  | absolute | bitNegation => exact (Step.unsupported_iff.mp h).elim

theorem chooseValue_interval {lower upper : Rule.Term}
    (h : Returns (chooseValue (.interval lower upper) z) c f c') : ∃ i j k l r,
      ChosenPair .integer [i, j, k] lower upper i j c l r c' ∧ f = between z i j k l r := by
  simp only [chooseValue, bind_iff, pure_iff] at h
  obtain ⟨i, c₁, hi, j, c₂, hj, k, c₃, hk, l, c₄, hl, r, _, hr, rfl, rfl⟩ := h
  have hvars := ((Makes.integer hi).append (.integer hj)).append (.integer hk)
  exact ⟨i, j, k, l, r, ⟨by simp, _, _, hvars, hl, hr⟩, rfl⟩

/-- The formula that chooses a value of a term binds new variables. -/
def YieldsValues (t : Rule.Term) : Prop :=
  ∀ {z c f c'}, c.WellFormed → Returns (chooseValue t z) c f c' → Yields [z] t.names c f c'

/-- Two chosen values among comparisons, under a quantifier. -/
theorem ChosenPair.yields {domain : Domain} {a b : Rule.Term} {i j : Variable} {l r : Formula}
    (h : ChosenPair domain vs a b i j c l r c') (hc : c.WellFormed) (ha : YieldsValues a)
      (hb : YieldsValues b)
    {given : List Variable} {names : List Text} (hnames : a.names ++ b.names ⊆ names)
      (before after : List Formula)
    (hothers : ∀ f ∈ before ++ after, ∃ op s t, f = .compare op s t ∧ s.vars ++ t.vars ⊆ vs ++ given)
    (hsorted : ∀ R : Registry, (∀ v ∈ vs, R.variableDomain v = some domain) →
      (∀ v ∈ given, (R.variableDomain v).isSome) → ∀ f ∈ before ++ after, f.Sorted R) :
    Yields given names c (.existential vs (.and (before ++ l :: r :: after))) c' := by
  obtain ⟨⟨hi, hj⟩, c₁, c₂, hvars, hl, hr⟩ := h
  obtain ⟨hbefore, hafter⟩ := forall_mem_append.mp hothers
  have hc₁ := (hvars.allocates names).wellFormed hc
  have hyl := ha hc₁ hl
  have hyr := hb (hyl.allocates.wellFormed hc₁) hr
  have hcompared : ∀ R, c₁.registry.Grows R → (∀ v ∈ vs ++ given, (R.variableDomain v).isSome) →
      (∀ f ∈ before, f.Sorted R) ∧ ∀ f ∈ after, f.Sorted R := fun R hR hgiven =>
    forall_mem_append.mp (hsorted R (hvars.domain hR) (forall_mem_append.mp hgiven).2)
  refine .existential (hvars.allocates names) (fun R => hvars.isSome_domain)
    ((Yields.compares hbefore fun R hR hgiven => (hcompared R hR hgiven).1).and_append ?_)
  refine .and_cons (hyl.mono (by simp [hi]) fun _ h => hnames (mem_append_left _ h)) ?_
  refine .and_cons (hyr.mono (by simp [hj]) fun _ h => hnames (mem_append_right _ h)) ?_
  exact .compares hafter fun R hR hgiven =>
    (hcompared R (hyl.allocates.grows.trans (hyr.allocates.grows.trans hR)) hgiven).2

theorem mem_of_arithmetic? {op : Rule.Operator} {operator : Term.Operator}
    (h : arithmetic? op = some operator) : operator ∈ [Term.Operator.add, .subtract, .multiply] := by
  cases op <;> simp_all [arithmetic?]

attribute [local simp] Formula.sorted_compare Term.Sorted Registry.isArithmetic_variable_iff
  Registry.isArithmetic_binary Term.vars

/-- The formula that chooses a value binds new variables. -/
theorem chooseValue_yields {t : Rule.Term} : YieldsValues t := by
  intro z c f c' hc h
  induction t generalizing z c f c' with
  | number n | string s | infimum | supremum =>
    obtain ⟨rfl, rfl⟩ := pure_iff.mp h
    exact Yields.equals (Allocates.refl _ _) (by simp) fun _ _ => trivial
  | var name =>
    obtain ⟨v, hv, rfl, hname, halloc⟩ := chooseValue_variable hc h
    exact Yields.equals halloc (by simp [hv, hname, Rule.Term.names])
      fun R hR => (halloc.wellFormed hc).isSome_domain hR v hv
  | function external name args =>
    obtain ⟨-, -, rfl, rfl⟩ := chooseValue_function h
    exact Yields.equals (Allocates.of_grows (c.registry.grows_declareFunction _))
      (by simp [Term.varsOfAll]) fun _ _ => rfl
  | binary op left right ihl ihr =>
    rcases chooseValue_binary h with ⟨operator, i, j, l, r, hop, hpair, rfl⟩ | ⟨i, j, q, k, l, r, -,
      hpair, rfl⟩
    · have hop' := mem_of_arithmetic? hop
      simp only [mem_cons, not_mem_nil, or_false] at hop'
      refine hpair.yields hc ihl ihr (List.Subset.refl _) [_] [] (by simp) fun R hvs hz => ?_
      simp_all
    · refine hpair.yields hc ihl ihl (by simp [Rule.Term.names]) [_] [_, _, _, _] ?_ fun R hvs hz => ?_
      · split <;> simp
      · simp only [forall_mem_cons] at hvs hz
        split <;> simp [hvs, hz]
  | unary op arg ih =>
    obtain ⟨-, n, c₁, choose, hn, hchoose, rfl⟩ := chooseValue_unary h
    have hvars := hn.allocates arg.names
    have hy := ih (hvars.wellFormed hc) hchoose
    refine .existential hvars (fun R => hn.isSome_domain) (@Yields.and_append _ _ _ _ _ [_] _
      (.compares (by simp) fun R hR hgiven => ?_) (hy.mono (by simp) (List.Subset.refl _)).and_singleton)
    have hdomain := hn.domain hR n mem_cons_self
    simp_all
  | interval lower upper ihl ihu =>
    obtain ⟨i, j, k, l, r, hpair, rfl⟩ := chooseValue_interval h
    refine hpair.yields hc ihl ihu (List.Subset.refl _) [] [_, _, _] (by simp) fun R hvs hz => ?_
    simp_all
  | pool args => exact (Step.unsupported_iff.mp h).elim

/-- The contexts between the steps in which two values are chosen. -/
theorem ChosenPair.contexts {domain : Domain} {a b : Rule.Term} {i j : Variable} {l r : Formula}
    (h : ChosenPair domain vs a b i j c l r c') (hc : c.WellFormed) :
      ∃ c₁ c₂, Makes domain c vs c₁ ∧ c₁.WellFormed ∧
      Returns (chooseValue a i) c₁ l c₂ ∧ Allocates a.names c₁ l.binders c₂ ∧ c₂.WellFormed ∧
      Returns (chooseValue b j) c₂ r c' ∧ Allocates b.names c₂ r.binders c' := by
  obtain ⟨-, c₁, c₂, hvars, hl, hr⟩ := h
  have hc₁ := (hvars.allocates []).wellFormed hc
  have hyl := (chooseValue_yields hc₁ hl).allocates
  have hc₂ := hyl.wellFormed hc₁
  exact ⟨c₁, c₂, hvars, hc₁, hl, hyl, hc₂, hr, (chooseValue_yields hc₂ hr).allocates⟩

/-- The formulas that choose values bind new variables. -/
theorem chooseValues_yields {params : List Variable}
    (hc : c.WellFormed) (h : Returns (chooseValues args params) c fs c') :
    Yields params (Rule.Term.namesOfAll args) c (.and fs) c' := by
  induction args generalizing params c fs c' with
  | nil =>
    obtain ⟨rfl, rfl⟩ := pure_iff.mp h
    exact Yields.and_nil
  | cons t args ih =>
    cases params with
    | nil =>
      obtain ⟨rfl, rfl⟩ := pure_iff.mp h
      exact Yields.and_nil
    | cons z params =>
      simp only [chooseValues, bind_iff, pure_iff] at h
      obtain ⟨f, c₁, hf, fs, _, hfs, rfl, rfl⟩ := h
      have hy := chooseValue_yields hc hf
      have hys := ih (hy.allocates.wellFormed hc) hfs
      exact (hy.mono (by simp) (subset_append_left _ _)).and_cons
        (hys.mono (by simp) (subset_append_right _ _))

/-- An atom with the sign of a literal. -/
def signedAtom (sign : Rule.Sign) (p : Symbol) (params : List Variable) : Formula :=
  if sign = .negated then .not (.atomOf p params) else .atomOf p params

/-- An atom declares its predicate and chooses values for new variables. -/
theorem bodyAtom_returns (h : Returns (bodyAtom sign name args) c f c') :
    ∃ params fs c₁, params.length = args.length ∧ (∀ names, Allocates names c params c₁) ∧
      (∀ R, c₁.registry.Grows R → ∀ v ∈ params, R.variableDomain v = some .program) ∧
      (⟨name, args.length⟩ : Symbol) ∈ c₁.registry.symbols ∧ Returns (chooseValues args params) c₁ fs c' ∧
      f = if args.isEmpty then signedAtom sign ⟨name, args.length⟩ params
        else .existential params (.and (fs ++ [signedAtom sign ⟨name, args.length⟩ params])) := by
  simp only [bodyAtom, bind_iff, Step.register_iff, Registering.predicate_iff] at h
  obtain ⟨_, _, ⟨_, rfl, rfl⟩, params, c₁, hparams, h⟩ := h
  obtain ⟨hlength, hmakes⟩ := Makes.objects hparams
  have hallocates : ∀ names, Allocates names c params c₁ := fun names =>
    (Allocates.of_grows (c.registry.grows_declarePredicate _)).trans (hmakes.allocates names)
  have hdeclared := (hmakes.allocates []).grows.symbols
      (Registry.mem_symbols_declarePredicate _ ⟨name, args.length⟩)
  refine ⟨params, ?_⟩
  cases args with
  | nil =>
    obtain ⟨rfl, rfl⟩ := pure_iff.mp h
    exact ⟨[], _, hlength, hallocates, fun _ => hmakes.domain, hdeclared, pure_iff.mpr ⟨rfl, rfl⟩, rfl⟩
  | cons t args =>
    simp only [isEmpty_cons, Bool.false_eq_true, if_false, bind_iff,
      pure_iff] at h
    obtain ⟨fs, _, hfs, rfl, rfl⟩ := h
    exact ⟨fs, _, hlength, hallocates, fun _ => hmakes.domain, hdeclared, hfs, rfl⟩

theorem signedAtom_yields {names : List Text} {p : Symbol}
    {params : List Variable} (hlen : params.length = p.arity) (hp : p ∈ c.registry.symbols) :
    Yields params names c (signedAtom sign p params) c := by
  have hatom : Yields params names c (.atomOf p params) c := by
    refine ⟨Allocates.refl _ _, fun _ v hv => ?_, fun q hq => ?_,
      fun _ _ _ => Formula.sorted_atomOf.mpr⟩
    · obtain ⟨t, ht, hv⟩ := Formula.mem_freeVariables_atom.mp hv
      obtain ⟨w, hw, rfl⟩ := mem_map.mp ht
      rw [mem_singleton.mp hv]
      exact .inl hw
    · rw [← (Formula.mentions_atomOf hlen).mp hq]
      exact hp
  rw [signedAtom]
  split
  · exact ⟨hatom.allocates, hatom.free, fun q hq => hatom.declared q (Formula.mentions_not.mp hq),
      fun hc R hR hgiven => Formula.sorted_not.mpr (hatom.sorted hc R hR hgiven)⟩
  · exact hatom

theorem bodyAtom_yields (hc : c.WellFormed) (h : Returns (bodyAtom sign name args) c f c') :
    Yields [] (Rule.Term.namesOfAll args) c f c' := by
  obtain ⟨params, fs, c₁, hlength, hvars, hdomains, hdeclared, hfs, rfl⟩ := bodyAtom_returns h
  have hys := chooseValues_yields ((hvars []).wellFormed hc) hfs
  have hatom : Yields params (Rule.Term.namesOfAll args) c' (signedAtom sign ⟨name, args.length⟩ params) c' :=
    signedAtom_yields hlength (hys.allocates.grows.symbols hdeclared)
  cases args with
  | nil =>
    obtain ⟨-, rfl⟩ := pure_iff.mp hfs
    obtain rfl := length_eq_zero_iff.mp hlength
    exact Yields.after (hvars _) hatom
  | cons t args =>
    refine Yields.existential (hvars _) (fun R hR v hv => by rw [hdomains R hR v hv]; rfl) ?_
    rw [append_nil]
    exact hys.and_append hatom.and_singleton

/-- A comparison chooses values for two new variables. -/
theorem bodyComparison_returns {op : Comparison}
    (h : Returns (bodyComparison op left right) c f c') :
    ∃ x y l r, ChosenPair .program [x, y] left right x y c l r c' ∧
      f = .existential [x, y] (.and [l, r, .compare op (.variable x) (.variable y)]) := by
  simp only [bodyComparison, bind_iff, Step.register_iff, Registering.generated_iff,
    pure_iff] at h
  obtain ⟨x, _, ⟨_, ⟨rfl, rfl⟩, rfl⟩, y, _, ⟨_, ⟨rfl, rfl⟩, rfl⟩, l, c₂, hl, r, _, hr, rfl, rfl⟩ := h
  have hx : Makes .program c [c.registry.variableTable.size] _ := ⟨rfl, rfl⟩
  exact ⟨_, _, l, r, ⟨by simp, _, c₂, hx.append ⟨rfl, rfl⟩, hl, hr⟩, rfl⟩

theorem bodyComparison_yields {op : Comparison}
    (hc : c.WellFormed) (h : Returns (bodyComparison op left right) c f c') :
    Yields [] (left.names ++ right.names) c f c' := by
  obtain ⟨x, y, l, r, hpair, rfl⟩ := bodyComparison_returns h
  refine hpair.yields hc chooseValue_yields chooseValue_yields (List.Subset.refl _) [] [_] (by simp)
    fun R hvs _ => ?_
  simp_all

/-- The literals that a body can have. -/
theorem bodyLiteral_cases (h : Returns (bodyLiteral l) c f c') :
    (∃ value, l = ⟨.plain, .boolean value⟩ ∧ f = .boolean value ∧ c' = c) ∨
      (∃ sign name args, l = ⟨sign, .symbolic (.function false name args)⟩ ∧
        Returns (bodyAtom sign name args) c f c') ∨
      ∃ sign op left right, l = ⟨sign, .comparison op left right⟩ ∧
        Returns (bodyComparison op left right) c f c' := by
  obtain ⟨sign, atom⟩ := l
  cases atom with
  | boolean value =>
    cases sign with
    | plain =>
      obtain ⟨rfl, rfl⟩ := pure_iff.mp h
      exact .inl ⟨value, rfl, rfl, rfl⟩
    | negated | doublyNegated => simp [bodyLiteral] at h
  | symbolic t =>
    cases t
    case function external name args =>
      cases external with
      | true => exact (Step.unsupported_iff.mp h).elim
      | false => exact .inr (.inl ⟨sign, name, args, rfl, h⟩)
    all_goals exact (Step.unsupported_iff.mp h).elim
  | comparison op left right => exact .inr (.inr ⟨sign, op, left, right, rfl, h⟩)

theorem bodyLiteral_yields (hc : c.WellFormed)
    (h : Returns (bodyLiteral l) c f c') : Yields [] l.names c f c' := by
  rcases bodyLiteral_cases h with ⟨value, rfl, rfl, rfl⟩ | ⟨sign, name, args, rfl, h⟩ |
    ⟨sign, op, left, right, rfl, h⟩
  · exact ⟨Allocates.refl _ _, by simp, by simp, fun _ _ _ _ => Formula.sorted_boolean value⟩
  · exact bodyAtom_yields hc h
  · exact bodyComparison_yields hc h

/-- The elements that a body can have. -/
theorem bodyElement_cases {b : Rule.BodyLiteral} (h : Returns (bodyElement b) c f c') :
    ∃ l, b = ⟨.plain, .literal l⟩ ∧ Returns (bodyLiteral l) c f c' := by
  obtain ⟨sign, element⟩ := b
  cases sign with
  | plain =>
    cases element with
    | literal l => exact ⟨l, rfl, h⟩
    | aggregate function | conditional element => exact (Step.unsupported_iff.mp h).elim
  | negated | doublyNegated => simp [bodyElement] at h

/-- The formulas of a body bind different new variables. -/
theorem body_yields {bs : List Rule.BodyLiteral} (hc : c.WellFormed)
    (h : Returns (body bs) c fs c') : Yields [] (bs.flatMap (·.names)) c (.and fs) c' := by
  induction bs generalizing c fs c' with
  | nil =>
    obtain ⟨rfl, rfl⟩ := pure_iff.mp h
    exact Yields.and_nil
  | cons b bs ih =>
    simp only [body, bind_iff, pure_iff] at h
    obtain ⟨f, c₁, hf, fs, _, hfs, rfl, rfl⟩ := h
    obtain ⟨l, rfl, hl⟩ := bodyElement_cases hf
    have hy := bodyLiteral_yields hc hl
    have hys := ih (hy.allocates.wellFormed hc) hfs
    rw [flatMap_cons]
    exact (hy.mono (List.Subset.refl _) (subset_append_left _ _)).and_cons
      (hys.mono (List.Subset.refl _) (subset_append_right _ _))

/-- The head that has a shape. -/
def HeadShape.head : HeadShape → Rule.Head
  | .atom name args => .ofAtom name args
  | .choice name args => .ofChoice name args
  | .constraint => .ofBoolean false
  | .trivial => .ofBoolean true

/-- The predicate that a head of a shape speaks of. -/
def HeadShape.symbol? : HeadShape → Option Symbol
  | .atom name args | .choice name args => some ⟨name, args.length⟩
  | .constraint | .trivial => none

theorem headAtom_returns {t : Rule.Term} {place : Text} {a : Text × List Rule.Term}
    (h : Returns (headAtom t place) c a c') : t = .function false a.1 a.2 ∧
      c' = ⟨c.registry.declarePredicate ⟨a.1, a.2.length⟩, c.scope⟩ := by
  cases t
  case function external name args =>
    cases external with
    | true => exact (Step.unsupported_iff.mp h).elim
    | false =>
      simp only [headAtom, bind_iff, Step.register_iff, Registering.predicate_iff,
        pure_iff] at h
      obtain ⟨_, _, ⟨_, rfl, rfl⟩, rfl, rfl⟩ := h
      exact ⟨rfl, rfl⟩
  all_goals exact (Step.unsupported_iff.mp h).elim

/-- What is known after the shape of a head was found: the head has that shape,
and its predicate is declared. -/
structure HeadShape.Found (head : Rule.Head) (c : RuleContext) (shape : HeadShape)
    (c' : RuleContext) : Prop where
  head : head = shape.head
  allocates : Allocates [] c [] c'
  declared : ∀ p ∈ shape.symbol?, p ∈ c'.registry.symbols

theorem headAtom_found {t : Rule.Term} {place : Text} {head : Rule.Head}
    {f : Text × List Rule.Term → HeadShape}
    (h : Returns (do return f (← headAtom t place)) c shape c')
    (hf : ∀ a, t = .function false a.1 a.2 → head = (f a).head ∧ (f a).symbol? = some ⟨a.1, a.2.length⟩) :
    shape.Found head c c' := by
  obtain ⟨a, _, ha, h⟩ := bind_iff.mp h
  obtain ⟨rfl, rfl⟩ := pure_iff.mp h
  obtain ⟨rfl, rfl⟩ := headAtom_returns ha
  refine ⟨(hf a rfl).1, Allocates.of_grows (c.registry.grows_declarePredicate _), fun p hp => ?_⟩
  rw [(hf a rfl).2] at hp
  cases hp
  exact Registry.mem_symbols_declarePredicate _ _

theorem literalShape_found (h : Returns (literalShape l) c shape c') : shape.Found (.literal l) c c' := by
  obtain ⟨sign, atom⟩ := l
  cases sign with
  | negated | doublyNegated => simp [literalShape] at h
  | plain =>
    cases atom with
    | boolean value =>
      cases value with
      | false | true =>
        obtain ⟨rfl, rfl⟩ := pure_iff.mp h
        exact ⟨rfl, Allocates.refl _ _, by simp [HeadShape.symbol?]⟩
    | symbolic t => exact headAtom_found h fun a ht => ht ▸ ⟨rfl, rfl⟩
    | comparison op left right => exact (Step.unsupported_iff.mp h).elim

theorem choiceShape_found {element : Rule.ConditionalLiteral}
    (h : Returns (choiceShape element) c shape c') :
    shape.Found (.choice none none [element]) c c' := by
  obtain ⟨⟨sign, atom⟩, condition⟩ := element
  cases condition with
  | cons l condition => simp [choiceShape] at h
  | nil =>
    cases sign with
    | negated | doublyNegated => simp [choiceShape] at h
    | plain =>
      cases atom with
      | boolean value => exact (Step.unsupported_iff.mp h).elim
      | symbolic t => exact headAtom_found h fun a ht => ht ▸ ⟨rfl, rfl⟩
      | comparison op left right => exact (Step.unsupported_iff.mp h).elim

/-- A head that is accepted has the shape that was found. -/
theorem headShape_found {head : Rule.Head}
    (h : Returns (headShape head) c shape c') : shape.Found head c c' := by
  cases head with
  | literal l => exact literalShape_found h
  | choice left right elements =>
    cases left with
    | some guard => simp [headShape] at h
    | none =>
      cases right with
      | some guard => simp [headShape] at h
      | none =>
        rcases elements with _ | ⟨element, _ | ⟨other, rest⟩⟩
        · exact (Step.unsupported_iff.mp h).elim
        · exact choiceShape_found h
        · exact (Step.unsupported_iff.mp h).elim
  | disjunction elements => exact (Step.unsupported_iff.mp h).elim

end LogicProgram.Encoding
