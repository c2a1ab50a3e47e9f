import LogicProgram.Proofs.Completion.Consistency

/-!
# Variables while predicates are hidden

The definitions of a completion are closed and sorted, bind each variable once, and have
variables for the arguments that occur in no other formula.
-/

namespace LogicProgram.Completion

open List

universe u

variable {v : Nat} {d d' : CompletedDefinition}

variable {p : Symbol} {params : List Variable} {body f g : Formula} {fs gs : List Formula}
  {r r' : Registry} {s s' : State}

/-- The variables for the arguments of a completed definition. -/
def paramsOf (d : CompletedDefinition) : List Variable :=
  match split d.formula with
  | .ok ((_, args), _) => args.flatMap (·.vars)
  | .error _ => []

theorem IsDefinition.paramsOf_eq
    (h : IsDefinition p params body d.formula) : paramsOf d = params := by
  rw [paramsOf, h.split_eq]
  simp only [flatMap_map]
  exact flatMap_singleton' params

theorem IsDefinition.binders_eq (h : IsDefinition p params body f) :
    f.binders = params ++ body.binders := by
  cases h with
  | equivalence body =>
    rw [Formula.binders_close, Formula.binders_join]
    simp [Formula.atomOf, Formula.binders]
  | negation =>
    rw [Formula.binders_close]
    simp [Formula.atomOf, Formula.binders]

theorem IsDefinition.mentions (h : IsDefinition p params body f) {q : Symbol}
    (hq : body.mentions q) : f.mentions q := by
  cases h with
  | equivalence body =>
    rw [Formula.mentions_close, Formula.mentions_join]
    exact ⟨body, by simp, hq⟩
  | negation => simp at hq

/-- What is free in the body and not an argument is free in the definition. -/
theorem IsDefinition.mem_freeVariables (h : IsDefinition p params body f) {v : Variable}
    (hv : v ∈ body.freeVariables) (hparams : v ∉ params) : v ∈ f.freeVariables := by
  cases h with
  | equivalence body =>
    rw [Formula.mem_freeVariables_close, Formula.mem_freeVariables_join]
    exact ⟨⟨body, by simp, hv⟩, hparams⟩
  | negation => simp at hv

/-- A definition whose body speaks of the arguments alone is closed. -/
theorem IsDefinition.not_mem_freeVariables (h : IsDefinition p params body f)
    (hbody : ∀ w ∈ body.freeVariables, w ∈ params) (v : Variable) : v ∉ f.freeVariables := by
  have hatom : v ∈ (Formula.atomOf p params).freeVariables → v ∈ params := by
    simp [Formula.atomOf, Term.vars]
  cases h with
  | equivalence body =>
    rw [Formula.mem_freeVariables_close, Formula.mem_freeVariables_join]
    intro hv
    obtain ⟨⟨g, hg, hvg⟩, hparams⟩ := hv
    simp only [mem_cons, not_mem_nil, or_false] at hg
    rcases hg with rfl | rfl
    · exact hparams (hatom hvg)
    · exact hparams (hbody v hvg)
  | negation =>
    rw [Formula.mem_freeVariables_close, Formula.mem_freeVariables_not]
    exact fun hv => hv.2 (hatom hv.1)

theorem IsDefinition.sorted_iff (h : IsDefinition p params body f) :
    f.Sorted r ↔ (∀ v ∈ params, (r.variableDomain v).isSome) ∧ body.Sorted r := by
  cases h with
  | equivalence body =>
    rw [Formula.sorted_close, Formula.sorted_join, forall_mem_cons, forall_mem_singleton,
      Formula.sorted_atomOf]
    exact ⟨fun h => ⟨h.1, h.2.2⟩, fun h => ⟨h.1, h.1, h.2⟩⟩
  | negation =>
    rw [Formula.sorted_close, Formula.sorted_not, Formula.sorted_atomOf]
    exact ⟨fun h => ⟨h.1, Formula.sorted_boolean false⟩, fun h => ⟨h.1, h.1⟩⟩

/-- The formulas of a completion. -/
def contents (c : Completion) : List Formula := c.definitions.map (·.formula) ++ c.constraints

/-- The completion without the definition of one predicate. -/
def remove (c : Completion) (p : Symbol) : Completion := ⟨c.without p, c.constraints⟩

theorem mem_contents_remove {c : Completion} (hf : f ∈ (c.remove p).contents) : f ∈ c.contents := by
  rcases mem_append.mp hf with hf | hf
  · obtain ⟨d, hd, rfl⟩ := mem_map.mp hf
    exact mem_append_left _ (mem_map_of_mem (mem_of_mem_eraseP hd))
  · exact mem_append_right _ hf

/-- A formula is closed and sorted, and binds declared variables, each once. -/
structure Closed (r : Registry) (f : Formula) : Prop where
  free : ∀ v, v ∉ f.freeVariables
  nodup : f.binders.Nodup
  below : ∀ v : Nat, v ∈ f.binders → v < r.variableTable.size
  sorted : ∀ R, r.Grows R → f.Sorted R

theorem Closed.grows (h : Closed r f) (hr : r.Grows r') : Closed r' f :=
  ⟨h.free, h.nodup, fun v hv => Nat.lt_of_lt_of_le (h.below v hv) hr.size,
    fun R hR => h.sorted R (hr.trans hR)⟩

/-- Putting a definition in place keeps a formula closed. -/
theorem Closed.expand (h : Closed r f) (hg : Expansion.{u} p params body r f g r') :
    Closed r' g := by
  have hsize := hg.adds.size
  refine ⟨fun v hv => h.free v (hg.free v hv), hg.nodup_binders h.nodup h.below,
    fun v hv => ?_, fun R hR => hg.sorted R hR (h.sorted R (hg.adds.toGrows.trans hR))⟩
  rcases hg.binders_cases hv with hold | hnew
  · exact Nat.lt_of_lt_of_le (h.below v hold) hsize
  · exact hnew.2

/-- A completed definition of closed form, with a program variable for each argument. -/
structure Proper (r : Registry) (d : CompletedDefinition) : Prop where
  form : IsDefinition d.predicate (paramsOf d) (bodyOf d) d.formula
  arity : (paramsOf d).length = d.predicate.arity
  domain : ∀ v ∈ paramsOf d, r.variableDomain v = some .program
  closed : Closed r d.formula

namespace Proper

variable {d : CompletedDefinition}

theorem nodup (h : Proper r d) : (paramsOf d ++ (bodyOf d).binders).Nodup :=
  h.form.binders_eq ▸ h.closed.nodup

theorem below (h : Proper r d) (hv : v ∈ paramsOf d ++ (bodyOf d).binders) :
    v < r.variableTable.size := by
  rw [← h.form.binders_eq] at hv
  exact h.closed.below v hv

theorem mem_params (h : Proper r d) {v : Variable} (hv : v ∈ (bodyOf d).freeVariables) :
    v ∈ paramsOf d := by
  by_contra hnot
  exact h.closed.free v (h.form.mem_freeVariables hv hnot)

theorem grows (h : Proper r d) (hr : r.Grows r') : Proper r' d where
  form := h.form
  arity := h.arity
  domain := fun v hv => by
    rw [hr.domain (h.below (mem_append_left _ hv))]
    exact h.domain v hv
  closed := h.closed.grows hr

/-- The body can be put in the place of atoms. -/
theorem inlinable (h : Proper r d) : Inlinable r d.predicate (paramsOf d) (bodyOf d) := by
  obtain ⟨hparams, hbinders, hapart⟩ := nodup_append.mp h.nodup
  exact ⟨h.arity, hparams, fun v hv => h.below (mem_append_left _ hv),
    ⟨hbinders, fun v hv hfree => hapart v (h.mem_params hfree) v hv rfl⟩,
    fun v hv => h.below (mem_append_right _ hv), fun v => h.mem_params,
    fun R hR => ⟨(h.grows hR).domain, (h.form.sorted_iff.mp (h.closed.sorted R hR)).2⟩⟩

/-- The body defines a predicate also where other variables have values. -/
theorem defines_iff (h : Proper r d) {R : Registry} {I : Interpretation.{u}} (σ : Valuation I) :
    Defines R I d.predicate (paramsOf d) (bodyOf d) ↔ ∀ ds, ds.length = d.predicate.arity →
      (I.predicate d.predicate.name ds ↔ (bodyOf d).Holds R I (assign σ (paramsOf d) ds)) := by
  have hnodup := h.inlinable.distinct
  refine ⟨fun hall ds hlen => hall σ ds hlen, fun hall τ ds hlen => (hall ds hlen).trans ?_⟩
  -- The body does not depend on what other variables stand for.
  refine Formula.holds_congr (fun _ _ => rfl) fun v hv => ?_
  have hmap : (paramsOf d).map (assign σ (paramsOf d) ds) =
      (paramsOf d).map (assign τ (paramsOf d) ds) := by
    rw [map_assign hnodup (hlen.trans h.arity.symm), map_assign hnodup (hlen.trans h.arity.symm)]
  exact map_inj_left.mp hmap v (h.mem_params hv)

/-- A definition says of its predicate what its body says. -/
theorem holds_iff_defines (h : Proper r d) {R : Registry} (hR : r.Grows R)
    {I : Interpretation.{u}} {σ : Valuation I} :
    d.formula.Holds R I σ ↔ Defines R I d.predicate (paramsOf d) (bodyOf d) := by
  rw [h.form.holds_iff h.inlinable.distinct (h.grows hR).domain, h.arity, h.defines_iff σ]

end Proper

/-- The variables for the arguments of each definition occur in no other formula of
the completion, and all its formulas are closed. -/
structure Separated (s : State) : Prop where
  distinct : (s.completion.definitions.map (·.predicate)).Nodup
  definitions : ∀ d ∈ s.completion.definitions, Proper s.registry d
  constraints : ∀ f ∈ s.completion.constraints, Closed s.registry f
  apart : ∀ d ∈ s.completion.definitions, ∀ f ∈ (s.completion.remove d.predicate).contents,
    ∀ v ∈ paramsOf d, v ∉ f.binders

/-- A further formula has declared variables and none for the arguments of a
definition. -/
def Apart (s : State) (f : Formula) : Prop :=
  ∀ v : Nat, f.Occurs v → v < s.registry.variableTable.size ∧
    ∀ d ∈ s.completion.definitions, v ∉ paramsOf d

namespace Separated

variable {d : CompletedDefinition}

theorem closed (h : Separated s) (hf : f ∈ s.completion.contents) : Closed s.registry f := by
  rcases mem_append.mp hf with hf | hf
  · obtain ⟨d, hd, rfl⟩ := mem_map.mp hf
    exact (h.definitions d hd).closed
  · exact h.constraints f hf

/-- Another formula of the completion can be expanded by a definition. -/
theorem avoids (h : Separated s) (hd : d ∈ s.completion.definitions)
    (hf : f ∈ (s.completion.remove d.predicate).contents) : Avoids s.registry (paramsOf d) f := by
  have hclosed := h.closed (mem_contents_remove hf)
  intro v hv
  rcases hv with hv | hv
  · exact absurd hv (hclosed.free v)
  · exact ⟨hclosed.below v hv, fun hparams => h.apart d hd f hf v hparams hv⟩

end Separated

theorem Apart.avoids (h : Apart s f) (hd : d ∈ s.completion.definitions) :
    Avoids s.registry (paramsOf d) f :=
  fun v hv => ⟨(h v hv).1, (h v hv).2 d hd⟩

/-- Hiding in several definitions hides in each, at some time. -/
theorem hideInDefinitions_runs {definition : Formula} {ds ds' : List CompletedDefinition}
    (hdefinition : IsDefinition p params body definition) (harity : params.length = p.arity)
    (h : Returns (hideInDefinitions definition ds) r ds' r') :
    r.AddsVariables r' ∧ Forall₂ (fun d d' => d'.predicate = d.predicate ∧ ∃ r₁ r₂,
      r.AddsVariables r₁ ∧ Returns (hidePredicate definition d.formula) r₁ d'.formula r₂ ∧
      r₂.AddsVariables r') ds ds' := by
  induction ds generalizing r ds' with
  | nil =>
    obtain ⟨rfl, rfl⟩ := Returns.pure_iff.mp h
    exact ⟨.refl r, .nil⟩
  | cons d ds ih =>
    simp only [hideInDefinitions, Returns.bind_iff, Returns.pure_iff] at h
    obtain ⟨g, r₁, hg, ds', _, hds', rfl, rfl⟩ := h
    have hadds := (replacedAtoms_mentions (bodyCopy_mentions harity)
      (hidePredicate_replaces hdefinition harity hg)).1
    have hrest := ih hds'
    refine ⟨hadds.trans hrest.1, .cons ⟨rfl, r, r₁, .refl r, hg, hrest.1⟩ ?_⟩
    refine hrest.2.imp fun x y hxy => ⟨hxy.1, ?_⟩
    obtain ⟨r₂, r₃, hbefore, hrun, hafter⟩ := hxy.2
    exact ⟨r₂, r₃, hadds.trans hbefore, hrun, hafter⟩

/-- A definition keeps its variables when another is put in place. -/
theorem Proper.hide {d₀ : CompletedDefinition} {r₁ r₂ : Registry}
    (hd : Proper r d) (hd₀ : Proper r d₀) (hne : d.predicate ≠ d₀.predicate)
    (hpredicate : d'.predicate = d.predicate)
    (hexpansion : Expansion.{u} d₀.predicate (paramsOf d₀) (bodyOf d₀) r d.formula d'.formula r')
    (h : Returns (hidePredicate d₀.formula d.formula) r₁ d'.formula r₂) :
    Proper r' d' ∧ paramsOf d' = paramsOf d := by
  have hreplace := hidePredicate_returns hd₀.form hd₀.arity h
  obtain ⟨body', hform, -⟩ := replaceAtoms_isDefinition hd.form hne hd.arity hreplace
  have hparams : paramsOf d' = paramsOf d := hform.paramsOf_eq
  have hbody : bodyOf d' = body' := hform.bodyOf_eq
  refine ⟨⟨?_, ?_, fun v hv => ?_, hd.closed.expand hexpansion⟩, hparams⟩
  · rw [hparams, hbody, hpredicate]
    exact hform
  · rw [hparams, hpredicate]
    exact hd.arity
  · rw [hparams] at hv
    exact ((hd.grows hexpansion.adds.toGrows).domain v hv)

/-- What hiding a predicate by its definition does to a completion. -/
structure HiddenBy (d : CompletedDefinition) (s s' : State) : Prop where
  adds : s.registry.AddsVariables s'.registry
  definitions : Forall₂ (fun x y => y.predicate = x.predicate ∧ paramsOf y = paramsOf x ∧
    Proper s'.registry y ∧ Expansion.{u} d.predicate (paramsOf d) (bodyOf d) s.registry
      x.formula y.formula s'.registry)
    (s.completion.without d.predicate) s'.completion.definitions
  constraints : Forall₂ (fun f g => Expansion.{u} d.predicate (paramsOf d) (bodyOf d)
    s.registry f g s'.registry) s.completion.constraints s'.completion.constraints

theorem Separated.mem_without (h : Separated s) {x : CompletedDefinition} :
    x ∈ s.completion.without p ↔ x ∈ s.completion.definitions ∧ x.predicate ≠ p := by
  rw [without_eq_filter h.distinct, mem_filter, bne_iff_ne]

/-- Hiding expands the completion and the further formulas. -/
theorem Separated.hiddenBy (h : Separated s) (hrun : Returns (hide p fs) s gs s') :
    ∃ d ∈ s.completion.definitions, d.predicate = p ∧ HiddenBy.{u} d s s' ∧
      ((∀ f ∈ fs, Apart s f) → Forall₂ (fun f g => Expansion.{u} d.predicate (paramsOf d)
        (bodyOf d) s.registry f g s'.registry) fs gs) := by
  obtain ⟨-, d, r₁, r₂, hfind, hds, hcs, hgs⟩ := hide_iff.mp hrun
  have hd : d ∈ s.completion.definitions := mem_of_find?_eq_some hfind
  obtain rfl : d.predicate = p := by simpa using find?_some hfind
  have hproper := h.definitions d hd
  have hinlinable := hproper.inlinable
  have hruns := hideInDefinitions_runs hproper.form hproper.arity hds
  have h₁ := hruns.1
  have h₂ := (hideInAll_mentions hproper.form hproper.arity hcs).1
  have h₃ := (hideInAll_mentions hproper.form hproper.arity hgs).1
  have h₁₂ := h₁.trans h₂
  refine ⟨d, hd, rfl, ⟨h₁₂.trans h₃, ?_, ?_⟩, fun hfs => ?_⟩
  · refine ((forall₂_and_left _ _).mpr ⟨fun x hx => hx, hruns.2⟩).imp fun x y hxy => ?_
    obtain ⟨hx, hpredicate, r₃, r₄, hbefore, hg, hafter⟩ := hxy
    have hx' := h.mem_without.mp hx
    have havoids := h.avoids hd (mem_append_left _ (mem_map_of_mem hx))
    have hexpand := replacedAtoms_expansion.{u} (hidePredicate_replaces hproper.form hproper.arity hg)
      (hinlinable.grows hbefore.toGrows) (havoids.grows hbefore.toGrows)
    have hexpansion := hexpand.mono hbefore ((hafter.trans h₂).trans h₃)
    have hy := (h.definitions x hx'.1).hide hproper hx'.2 hpredicate hexpansion hg
    exact ⟨hpredicate, hy.2, hy.1, hexpansion⟩
  · have hconstraints := hideInAll_expansion.{u} hproper.form (hinlinable.grows h₁.toGrows)
      (fun f hf => (h.avoids hd (mem_append_right _ hf)).grows h₁.toGrows) hcs
    exact hconstraints.2.imp fun f g hfg => hfg.mono h₁ h₃
  · have hformulas := hideInAll_expansion.{u} hproper.form (hinlinable.grows h₁₂.toGrows)
      (fun f hf => ((hfs f hf).avoids hd).grows h₁₂.toGrows) hgs
    exact hformulas.2.imp fun f g hfg => hfg.mono h₁₂ (.refl _)

namespace HiddenBy

variable {d : CompletedDefinition}

/-- All formulas of the completion are expanded. -/
theorem contents (h : HiddenBy.{u} d s s') :
    Forall₂ (fun f g => Expansion.{u} d.predicate (paramsOf d) (bodyOf d)
      s.registry f g s'.registry) (s.completion.remove d.predicate).contents
      s'.completion.contents := by
  refine rel_append ?_ h.constraints
  rw [forall₂_map_left_iff, forall₂_map_right_iff]
  exact h.definitions.imp fun x y hxy => hxy.2.2.2

theorem map_predicate (h : HiddenBy.{u} d s s') : s'.completion.definitions.map (·.predicate) =
    (s.completion.without d.predicate).map (·.predicate) := by
  have hmap : Forall₂ (· = ·) ((s.completion.without d.predicate).map (·.predicate))
      (s'.completion.definitions.map (·.predicate)) := by
    rw [forall₂_map_left_iff, forall₂_map_right_iff]
    exact h.definitions.imp fun x y hxy => hxy.1.symm
  rw [forall₂_eq_eq_eq] at hmap
  exact hmap.symm

/-- What is bound in a formula was bound in it before, or is new. -/
theorem separated (h : HiddenBy.{u} d s s') (hs : Separated s) : Separated s' := by
  have hclosed : ∀ g ∈ s'.completion.contents, Closed s'.registry g := by
    intro g hg
    obtain ⟨f, hf, hfg⟩ := forall₂_exists_left h.contents hg
    exact (hs.closed (mem_contents_remove hf)).expand hfg
  have hdistinct : (s'.completion.definitions.map (·.predicate)).Nodup := by
    rw [h.map_predicate, without_eq_filter hs.distinct]
    exact hs.distinct.sublist (filter_sublist.map _)
  refine ⟨hdistinct, fun y hy => ?_, fun g hg => hclosed g (mem_append_right _ hg),
    fun y hy g hg v hv hbound => ?_⟩
  · obtain ⟨x, -, hxy⟩ := forall₂_exists_left h.definitions hy
    exact hxy.2.2.1
  · obtain ⟨x, hx, hpredicate, hparams, -, -⟩ := forall₂_exists_left h.definitions hy
    have hx' := (hs.mem_without.mp hx).1
    rw [hparams] at hv
    have hlt := (hs.definitions x hx').below (mem_append_left _ hv)
    have hother : ∃ f ∈ (s.completion.remove x.predicate).contents,
        Expansion.{u} d.predicate (paramsOf d) (bodyOf d) s.registry f g s'.registry := by
      rcases mem_append.mp hg with hg | hg
      · obtain ⟨y₂, hy₂, rfl⟩ := mem_map.mp hg
        have hne : y₂ ∈ s'.completion.definitions ∧ y₂.predicate ≠ y.predicate := by
          have hmem : y₂ ∈ s'.completion.without y.predicate := hy₂
          rw [without_eq_filter hdistinct, mem_filter, bne_iff_ne] at hmem
          exact hmem
        obtain ⟨x₂, hx₂, hpredicate₂, -, -, hexpansion⟩ := forall₂_exists_left h.definitions hne.1
        refine ⟨x₂.formula, mem_append_left _ (mem_map_of_mem ?_), hexpansion⟩
        refine hs.mem_without.mpr ⟨(hs.mem_without.mp hx₂).1, ?_⟩
        rw [← hpredicate, ← hpredicate₂]
        exact hne.2
      · obtain ⟨f, hf, hfg⟩ := forall₂_exists_left h.constraints hg
        exact ⟨f, mem_append_right _ hf, hfg⟩
    obtain ⟨f, hf, hfg⟩ := hother
    rcases hfg.binders_cases hbound with hold | hnew
    · exact hs.apart x hx' f hf v hv hold
    · exact absurd hlt (Nat.not_lt.mpr hnew.1)

/-- Further formulas stay apart as well. -/
theorem apart (h : HiddenBy.{u} d s s') (hs : Separated s) (hf : Apart s f)
    (hfg : Expansion.{u} d.predicate (paramsOf d) (bodyOf d) s.registry f g s'.registry) :
    Apart s' g := by
  have hsize := h.adds.size
  have hparams : ∀ y ∈ s'.completion.definitions, ∃ x ∈ s.completion.definitions,
      paramsOf y = paramsOf x := by
    intro y hy
    obtain ⟨x, hx, -, hxy, -⟩ := forall₂_exists_left h.definitions hy
    exact ⟨x, (hs.mem_without.mp hx).1, hxy⟩
  intro v hv
  have hcases : f.Occurs v ∨ s.registry.variableTable.size ≤ v ∧ v < s'.registry.variableTable.size := by
    rcases hv with hv | hv
    · exact .inl (.inl (hfg.free v hv))
    · exact (hfg.binders_cases hv).imp_left .inr
  rcases hcases with hold | hnew
  · refine ⟨Nat.lt_of_lt_of_le (hf v hold).1 hsize, fun y hy => ?_⟩
    obtain ⟨x, hx, hxy⟩ := hparams y hy
    rw [hxy]
    exact (hf v hold).2 x hx
  · refine ⟨hnew.2, fun y hy hmem => ?_⟩
    obtain ⟨x, hx, hxy⟩ := hparams y hy
    rw [hxy] at hmem
    have hlt := (hs.definitions x hx).below (mem_append_left _ hmem)
    exact absurd hlt (Nat.not_lt.mpr hnew.1)

end HiddenBy

/-- Hiding predicates one after the other keeps variables apart. -/
theorem Separated.hideEach {ps : List Symbol} (hs : Separated s) (h : Returns (hideEach ps fs) s gs s') :
    Separated s' := by
  induction ps generalizing s fs with
  | nil =>
    obtain ⟨-, rfl⟩ := Returns.pure_iff.mp h
    exact hs
  | cons p ps ih =>
    obtain ⟨gs₁, s₁, hhide, hrest⟩ := Returns.bind_iff.mp h
    obtain ⟨d, -, -, hidden, -⟩ := hs.hiddenBy.{0} hhide
    exact ih (hidden.separated hs) hrest

theorem Separated.restrictToOutput (hs : Separated s) (h : Returns (restrictToOutput fs) s gs s') :
    Separated s' := by
  obtain ⟨_, _, hget, hbranch⟩ := Returns.bind_iff.mp h
  obtain ⟨rfl, rfl⟩ := Returns.get_iff.mp hget
  dsimp only at hbranch
  split at hbranch
  · exact hs.hideEach hbranch
  · obtain ⟨-, rfl⟩ := Returns.pure_iff.mp hbranch
    exact hs

section Completed

variable {e : Encoding.State} {c : Completion}

/-- Further declarations do no harm. -/
theorem Separated.grows (h : Separated ⟨r, c⟩) (hr : r.Grows r') : Separated ⟨r', c⟩ :=
  ⟨h.distinct, fun d hd => (h.definitions d hd).grows hr, fun f hf => (h.constraints f hf).grows hr,
    h.apart⟩

/-- The variables that a completed definition binds. -/
theorem binders_definitionFrom (e : Encoding) (m : Nat) (p : Symbol) :
    (definitionFrom e m p).formula.binders =
      match e.definition? p with
      | some d => d.bound
      | none => List.range' m p.arity := by
  rw [(isDefinition_definitionFrom e m p).binders_eq, paramsFrom, bodyFrom]
  cases e.definition? p with
  | some d =>
    have hrules : (Formula.or (d.rules.map (·.close .existential))).binders =
        d.rules.flatMap (·.bound) := by
      rw [Formula.binders_join, flatMap_map]
      exact flatMap_congr fun f _ => Formula.binders_close .existential f.free f.formula
    exact congrArg (d.params ++ ·) hrules
  | none => exact append_nil _

theorem bound_subset {e : Encoding} {d : RuleFormulas} (hd : d ∈ e.definitions) :
    d.bound ⊆ e.bound :=
  fun _ hv => mem_append_left _ (mem_flatMap.mpr ⟨d, hd, hv⟩)

/-- What a completed definition binds is of the encoding, or new. -/
theorem mem_binders_definitionFrom {e : Encoding} {m : Nat}
    (hv : v ∈ (definitionFrom e m p).formula.binders) :
    (∃ d ∈ e.definitions, d.predicate = p ∧ v ∈ d.bound) ∨ m ≤ v ∧ v < m + newParams e p := by
  rw [binders_definitionFrom] at hv
  rw [newParams]
  cases hp : e.definition? p with
  | some d =>
    rw [hp] at hv
    have hd := Encoding.definition?_eq_some hp
    exact .inl ⟨d, hd.1, hd.2, hv⟩
  | none =>
    rw [hp] at hv
    exact .inr (mem_range'_1.mp hv)

/-- No new variable is bound in two definitions. -/
theorem definitionsFrom_apart {e : Encoding} {n : Nat} {ps : List Symbol}
    (hbelow : ∀ v : Nat, v ∈ e.bound → v < n)
    (hd : d ∈ definitionsFrom e n ps) (hd' : d' ∈ definitionsFrom e n ps) (hn : n ≤ v)
    (hv : v ∈ d.formula.binders) (hv' : v ∈ d'.formula.binders) : d.predicate = d'.predicate := by
  have hnew : ∀ {m p}, v ∈ (definitionFrom e m p).formula.binders →
      m ≤ v ∧ v < m + newParams e p := by
    intro m p hmem
    rcases mem_binders_definitionFrom hmem with ⟨f, hf, -, hbound⟩ | hrange
    · exact absurd (hbelow v (bound_subset hf hbound)) (Nat.not_lt.mpr hn)
    · exact hrange
  induction ps generalizing n with
  | nil => cases hd
  | cons p ps ih =>
    have hlater : ∀ x ∈ definitionsFrom e (n + newParams e p) ps, v ∈ x.formula.binders →
        n + newParams e p ≤ v := by
      intro x hx hmem
      obtain ⟨-, m, hle, -, hm⟩ := mem_definitionsFrom hx
      rw [hm] at hmem
      exact Nat.le_trans hle (hnew hmem).1
    rcases mem_cons.mp hd with rfl | hd <;> rcases mem_cons.mp hd' with rfl | hd'
    · rfl
    · have hlt := (hnew hv).2
      have hge := hlater d' hd' hv'
      omega
    · have hlt := (hnew hv').2
      have hge := hlater d hd hv
      omega
    · have hge := hlater d hd hv
      exact ih (fun w hw => Nat.lt_of_lt_of_le (hbelow w hw) (Nat.le_add_right n _)) hd hd' hge

/-- The completed definition of a predicate is closed. -/
theorem closed_definitionFrom (he : Encoding.Scoped e) {m : Nat}
    (hm : e.registry.variableTable.size ≤ m) {r : Registry} (hgrows : e.registry.Grows r)
    (hr : m + newParams e.encoding p ≤ r.variableTable.size)
    (hparams : ∀ v ∈ paramsFrom e.encoding m p, r.variableDomain v = some .program) :
    Closed r (definitionFrom e.encoding m p).formula := by
  have hdefinition := isDefinition_definitionFrom e.encoding m p
  refine ⟨fun v hv => ?_, ?_, fun v hv => ?_,
    fun R hR => hdefinition.sorted_iff.mpr ⟨fun v hv => ?_, ?_⟩⟩
  · -- What is free in the body of a rule is closed with it or is an argument.
    have hfree : ∀ w ∈ (bodyFrom e.encoding p).freeVariables, w ∈ paramsFrom e.encoding m p := by
      rw [bodyFrom, paramsFrom]
      cases hp : e.encoding.definition? p with
      | some d =>
        intro w hw
        obtain ⟨g, hg, hw⟩ := Formula.mem_freeVariables_join.mp hw
        obtain ⟨f, hf, rfl⟩ := mem_map.mp hg
        have hw' := Formula.mem_freeVariables_close.mp hw
        have hrule := (he.rules d (Encoding.definition?_eq_some hp).1 f hf).1 w hw'.1
        exact hrule.resolve_right hw'.2
      | none => exact fun w hw => absurd hw (by simp)
    exact hdefinition.not_mem_freeVariables hfree v hv
  · rw [binders_definitionFrom]
    cases hp : e.encoding.definition? p with
    | some d => exact he.nodup_of_mem (Encoding.definition?_eq_some hp).1
    | none => exact nodup_range'
  · rcases mem_binders_definitionFrom hv with ⟨f, hf, -, hbound⟩ | hrange
    · have hlt := he.below v (bound_subset hf hbound)
      omega
    · omega
  · have hdomain := hparams v hv
    rw [hR.domain (Registry.lt_size_of_variableDomain hdomain), hdomain]
    rfl
  · rw [bodyFrom]
    cases hp : e.encoding.definition? p with
    | some d =>
      rw [Formula.sorted_join, forall_mem_map]
      exact fun f hf => (he.rules d (Encoding.definition?_eq_some hp).1 f hf).2.2 R (hgrows.trans hR)
    | none => exact Formula.sorted_boolean false

/-- The definitions of a program bind different variables. -/
theorem completionIn_apart (he : Encoding.Scoped e)
    (hd : d ∈ (completionIn e.encoding e.registry).definitions)
    (hd' : d' ∈ (completionIn e.encoding e.registry).definitions)
    (hne : d.predicate ≠ d'.predicate) (hv : v ∈ d.formula.binders) : v ∉ d'.formula.binders := by
  intro hv'
  rcases Nat.lt_or_ge v e.registry.variableTable.size with hlt | hge
  · have hold : ∀ x ∈ (completionIn e.encoding e.registry).definitions, v ∈ x.formula.binders →
        ∃ f ∈ e.encoding.definitions, f.predicate = x.predicate ∧ v ∈ f.bound := by
      intro x hx hmem
      obtain ⟨-, m, hle, -, hm⟩ := mem_definitionsFrom hx
      rw [hm] at hmem
      rcases mem_binders_definitionFrom hmem with hold | hrange
      · exact hold
      · omega
    obtain ⟨f, hf, hfd, hfv⟩ := hold d hd hv
    obtain ⟨f', hf', hfd', hfv'⟩ := hold d' hd' hv'
    have hdisjoint := (nodup_flatMap.mp (nodup_append.mp he.nodup).1).2
    have hneq : f ≠ f' := fun heq => hne (by rw [← hfd, heq, hfd'])
    have hsymm : Std.Symm (Function.onFun List.Disjoint RuleFormulas.bound) :=
      ⟨fun _ _ h => List.Disjoint.symm h⟩
    exact hdisjoint.forall hf hf' hneq hfv hfv'
  · exact hne (definitionsFrom_apart he.below hd hd' hge hv hv')

theorem mem_binders_constraint {f : Formula} (hf : f ∈ e.encoding.constraints) {v : Variable}
    (hv : v ∈ f.binders) : v ∈ e.encoding.constraints.flatMap (·.binders) :=
  mem_flatMap.mpr ⟨f, hf, hv⟩

/-- A new completion keeps its variables apart. -/
theorem separated_of_complete (he : Encoding.Scoped e) (hnodup : e.registry.symbols.Nodup)
    (h : Returns (complete e.encoding) e.registry c r) : Separated ⟨r, c⟩ := by
  have hrecorded := recorded_of_complete he hnodup h
  obtain ⟨rfl, rfl⟩ := (complete_returns e.encoding e.registry).unique h
  have hgrows : (withParams e.encoding e.registry).Grows
      (recorded (completionIn e.encoding e.registry).definitions
        (withParams e.encoding e.registry)) := grows_recorded _ _
  have hparams : e.registry.Grows (withParams e.encoding e.registry) :=
    e.registry.grows_addGenerated _ _
  have hsize := hgrows.size
  rw [withParams, Registry.size_addGenerated] at hsize
  obtain ⟨-, hconstraints, hapart⟩ := nodup_append.mp he.nodup
  refine ⟨hrecorded.distinct, fun d hd => ?_, fun f hf => ⟨(he.constraints f hf).1,
    (nodup_flatMap.mp hconstraints).1 f hf, fun v hv => ?_,
    fun R hR => (he.constraints f hf).2.2 R ((hparams.trans hgrows).trans hR)⟩,
    fun d hd f hf v hv hbound => ?_⟩
  · obtain ⟨-, m, hle, hsum, hm⟩ := mem_definitionsFrom hd
    have hdefinition := isDefinition_definitionFrom e.encoding m d.predicate
    have hclosed := closed_definitionFrom he hle (hparams.trans hgrows) (Nat.le_trans hsum hsize)
    rw [← hm] at hdefinition hclosed
    have hdomain : ∀ v ∈ paramsFrom e.encoding m d.predicate, (recorded
        (completionIn e.encoding e.registry).definitions
        (withParams e.encoding e.registry)).variableDomain v = some .program := by
      intro v hv
      rw [paramsFrom] at hv
      cases hp : e.encoding.definition? d.predicate with
      | some f =>
        rw [hp] at hv
        have hf := (Encoding.definition?_eq_some hp).1
        have hlt := he.below v (Encoding.Scoped.params_subset hf hv)
        rw [(hparams.trans hgrows).domain hlt]
        exact (he.params f hf).2 v hv
      | none =>
        rw [hp] at hv
        simp only [newParams, hp] at hsum
        refine hgrows.domain_addGenerated (mem_range'_1.mpr ?_)
        have hrange := mem_range'_1.mp hv
        omega
    refine ⟨?_, ?_, ?_, hclosed hdomain⟩
    · rw [hdefinition.paramsOf_eq, hdefinition.bodyOf_eq]
      exact hdefinition
    · rw [hdefinition.paramsOf_eq]
      exact (definitionFrom_form he m d.predicate).1
    · rw [hdefinition.paramsOf_eq]
      exact hdomain
  · have hlt := he.below v (mem_append_right _ (mem_binders_constraint hf hv))
    exact Nat.lt_of_lt_of_le hlt (hparams.trans hgrows).size
  · obtain ⟨-, m, hle, -, hm⟩ := mem_definitionsFrom hd
    have hform := isDefinition_definitionFrom e.encoding m d.predicate
    rw [← hm] at hform
    have hv' : v ∈ d.formula.binders := by
      rw [hform.binders_eq, ← hform.paramsOf_eq]
      exact mem_append_left _ hv
    rcases mem_append.mp hf with hf | hf
    · obtain ⟨d', hd', rfl⟩ := mem_map.mp hf
      have hmem : d' ∈ (completionIn e.encoding e.registry).without d.predicate := hd'
      rw [without_eq_filter hrecorded.distinct, mem_filter, bne_iff_ne] at hmem
      exact completionIn_apart he hd hmem.1 hmem.2.symm hv' hbound
    · have hold := mem_binders_constraint hf hbound
      rw [hm] at hv'
      rcases mem_binders_definitionFrom hv' with ⟨f', hf', -, hfv⟩ | hrange
      · exact hapart v (mem_flatMap.mpr ⟨f', hf', hfv⟩) v hold rfl
      · have hlt := he.below v (mem_append_right _ hold)
        omega

end Completed

end LogicProgram.Completion
