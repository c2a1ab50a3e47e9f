import LogicProgram.Completion.Consistency
import LogicProgram.Proofs.Completion.Elimination

/-!
# The consistency check suffices

If the interface of a program passes the check, then its private predicates can be
hidden in any formulas. The check looks at the dependencies of the completion
alone, and at no more than one step towards an output predicate.
-/

namespace LogicProgram

open List

namespace Registry

variable {r r' : Registry} {p q : Symbol}

theorem predicate?_of_mem (hr : r.symbols.Nodup) {d : PredicateDeclaration}
    (hd : d ∈ r.predicates) : r.predicate? d.symbol = some d := by
  have hp : d.symbol ∈ r.symbols := mem_map_of_mem hd
  obtain ⟨x, hx⟩ := Option.isSome_iff_exists.mp (isSome_predicate?.mpr hp)
  have hx' := predicate?_eq_some hx
  rw [hx, inj_on_of_nodup_map hr hx'.1 hd hx'.2]

theorem mem_privatePredicates : p ∈ Completion.privatePredicates r ↔
    ∃ d ∈ r.predicates, d.isPrivate = true ∧ d.symbol = p := by
  rw [Completion.privatePredicates, mem_sortedPredicates]

/-- A declared predicate is private if it is listed as one. -/
theorem isPrivate_iff (hr : r.symbols.Nodup) (hp : p ∈ r.symbols) :
    r.isPrivate p = true ↔ p ∈ Completion.privatePredicates r := by
  obtain ⟨d, hd, rfl⟩ := mem_map.mp hp
  rw [isPrivate, predicate?_of_mem hr hd, mem_privatePredicates]
  constructor
  · exact fun h => ⟨d, hd, h, rfl⟩
  · intro h
    obtain ⟨d', hd', hprivate, hsymbol⟩ := h
    rw [← inj_on_of_nodup_map hr hd' hd hsymbol]
    exact hprivate

theorem mem_symbols_of_private (hp : p ∈ Completion.privatePredicates r) : p ∈ r.symbols := by
  obtain ⟨d, hd, -, rfl⟩ := mem_privatePredicates.mp hp
  exact mem_map_of_mem hd

theorem not_isBuiltIn_of_private (hp : p ∈ Completion.privatePredicates r) :
    p.isBuiltInPredicate = false := by
  obtain ⟨d, -, hprivate, rfl⟩ := mem_privatePredicates.mp hp
  rw [PredicateDeclaration.isPrivate, Bool.and_eq_true, Bool.not_eq_true'] at hprivate
  simpa using hprivate.2

theorem nodup_privatePredicates (hr : r.symbols.Nodup) : (Completion.privatePredicates r).Nodup :=
  nodup_sortedPredicates hr (·.isPrivate)

/-- A private predicate without a private cycle does not lead to itself. -/
theorem not_leadsTo_self (hr : r.symbols.Nodup) (hp : p ∈ Completion.privatePredicates r)
    (hcycle : r.hasPrivateCycle p = false) : ¬ r.LeadsTo p p := by
  intro h
  have hreaches := h.reaches ((isPrivate_iff hr (mem_symbols_of_private hp)).mpr hp)
  rw [hasPrivateCycle, reachesItself_iff.mpr hreaches] at hcycle
  cases hcycle

end Registry

namespace Completion

variable {p : Symbol} {ps : List Symbol} {fs gs : List Formula} {r : Registry} {s s' : State}

/-- The predicates in the body of a definition are those that a chain of recorded
dependencies leads to. -/
def Traced (r : Registry) (d : CompletedDefinition) : Prop :=
  ∃ params body, IsDefinition d.predicate params body d.formula ∧
    params.length = d.predicate.arity ∧
    ∀ q, body.mentions q → q.isBuiltInPredicate = false → r.LeadsTo d.predicate q

/-- Some predicates are still to be hidden. -/
structure Hidable (r : Registry) (ps : List Symbol) (s : State) : Prop where
  predicates : s.registry.predicates = r.predicates
  distinct : (s.completion.definitions.map (·.predicate)).Nodup
  defined : ∀ p ∈ ps, p ∈ s.completion.definitions.map (·.predicate)
  traced : ∀ d ∈ s.completion.definitions, Traced r d

theorem definition?_of_mem {c : Completion} (hp : p ∈ c.definitions.map (·.predicate)) :
    ∃ d ∈ c.definitions, c.definition? p = some d ∧ d.predicate = p := by
  have hsome : (c.definition? p).isSome := by
    obtain ⟨d, hd, rfl⟩ := mem_map.mp hp
    rw [definition?, find?_isSome]
    exact ⟨d, hd, beq_self_eq_true _⟩
  obtain ⟨d, hd⟩ := Option.isSome_iff_exists.mp hsome
  exact ⟨d, mem_of_find?_eq_some hd, hd, by simpa using find?_some hd⟩

theorem without_eq_filter {c : Completion} (hc : (c.definitions.map (·.predicate)).Nodup) :
    c.without p = c.definitions.filter (·.predicate != p) := by
  rw [without]
  generalize c.definitions = ds at hc ⊢
  induction ds with
  | nil => rfl
  | cons d ds ih =>
    rw [map_cons, nodup_cons] at hc
    by_cases hd : d.predicate = p
    · have hothers : ds.filter (·.predicate != p) = ds := by
        refine filter_eq_self.mpr fun d' hd' => bne_iff_ne.mpr fun he => hc.1 ?_
        rw [hd, ← he]
        exact mem_map_of_mem hd'
      simp [hd, hothers]
    · simp [hd, ih hc.2]

/-- A definition in which another was put in place. -/
theorem Traced.hide {d d₀ : CompletedDefinition} {g : Formula} {r₁ r₂ : Registry}
    (hd : Traced r d) (hne : d.predicate ≠ d₀.predicate) (hd₀ : Traced r d₀)
    (hprivate : r.isPrivate d₀.predicate = true) (hbuiltIn : d₀.predicate.isBuiltInPredicate = false)
    (h : Returns (hidePredicate d₀.formula d.formula) r₁ g r₂) : Traced r ⟨d.predicate, g⟩ := by
  obtain ⟨params, body, hdefinition₀, harity, hbody⟩ := hd₀
  obtain ⟨qs, body', hdefinition, hqs, hmentions⟩ := hd
  have hreplace := hidePredicate_returns hdefinition₀ harity h
  obtain ⟨body'', hdefinition', hbody''⟩ := replaceAtoms_isDefinition hdefinition hne hqs hreplace
  refine ⟨qs, body'', hdefinition', hqs, fun q hq hq' => ?_⟩
  have hnew := (replacedAtoms_mentions (bodyCopy_mentions harity)
    (Formula.replacedAtoms_of_returns hbody'')).2
  rcases (forall₂_cons.mp hnew).1 q hq with ⟨hold, -⟩ | ⟨hp, hin⟩
  · exact hmentions q hold hq'
  · exact (hmentions _ hp hbuiltIn).trans hprivate (hbody q hin hq')

theorem hideInDefinitions_succeeds {params : List Variable} {body definition : Formula}
    (hdefinition : IsDefinition p params body definition) (harity : params.length = p.arity)
    (hbody : ¬ body.mentions p) (ds : List CompletedDefinition) (r : Registry) :
    ∃ ds' r', Returns (hideInDefinitions definition ds) r ds' r' := by
  induction ds generalizing r with
  | nil => exact Returns.exists_pure _ r
  | cons d ds ih =>
    obtain ⟨g, r₁, hg⟩ := hidePredicate_succeeds hdefinition harity hbody d.formula r
    obtain ⟨ds', r₂, hds'⟩ := ih r₁
    exact Returns.exists_bind hg (Returns.exists_bind hds' (Returns.exists_pure _ r₂))

/-- A predicate can be hidden. -/
theorem Hidable.hide_succeeds (h : Hidable r (p :: ps) s) (hbuiltIn : p.isBuiltInPredicate = false)
    (hcycle : r.hasPrivateCycle p = false) (hself : ¬ r.LeadsTo p p) (fs : List Formula) :
    ∃ gs s', Returns (hide p fs) s gs s' := by
  obtain ⟨d, hd, hfind, rfl⟩ := definition?_of_mem (h.defined p mem_cons_self)
  obtain ⟨params, body, hdefinition, harity, hbody⟩ := h.traced d hd
  have hmentions : ¬ body.mentions d.predicate := fun hm => hself (hbody _ hm hbuiltIn)
  have hall := hideInAll_succeeds hdefinition harity hmentions
  obtain ⟨ds', r₁, hds'⟩ := hideInDefinitions_succeeds hdefinition harity hmentions
    (s.completion.without d.predicate) s.registry
  obtain ⟨cs, r₂, hcs⟩ := hall s.completion.constraints r₁
  obtain ⟨gs, r₃, hgs⟩ := hall fs r₂
  have hcycle' : s.registry.hasPrivateCycle d.predicate = false := by
    rw [Registry.hasPrivateCycle_congr h.predicates]
    exact hcycle
  exact ⟨gs, ⟨r₃, ⟨ds', cs⟩⟩, hide_iff.mpr ⟨hcycle', d, r₁, r₂, hfind, hds', hcs, hgs⟩⟩

/-- Definitions stay traced when another is put in place. -/
theorem hideInDefinitions_traced {d₀ : CompletedDefinition} {ds ds' : List CompletedDefinition}
    {r₁ r₂ : Registry} (hds : ∀ d ∈ ds, Traced r d ∧ d.predicate ≠ d₀.predicate)
    (hd₀ : Traced r d₀) (hprivate : r.isPrivate d₀.predicate = true)
    (hbuiltIn : d₀.predicate.isBuiltInPredicate = false)
    (h : Returns (hideInDefinitions d₀.formula ds) r₁ ds' r₂) : ∀ d ∈ ds', Traced r d := by
  induction ds generalizing r₁ ds' with
  | nil =>
    obtain ⟨rfl, -⟩ := Returns.pure_iff.mp h
    exact nofun
  | cons d ds ih =>
    simp only [hideInDefinitions, Returns.bind_iff, Returns.pure_iff] at h
    obtain ⟨g, r₃, hg, ds', _, hds', rfl, rfl⟩ := h
    rw [forall_mem_cons] at hds ⊢
    exact ⟨hds.1.1.hide hds.1.2 hd₀ hprivate hbuiltIn hg, ih hds.2 hds'⟩

/-- After a predicate is hidden the others can be hidden as before. -/
theorem Hidable.hide (h : Hidable r (p :: ps) s) (hps : p ∉ ps) (hprivate : r.isPrivate p = true)
    (hbuiltIn : p.isBuiltInPredicate = false) (hrun : Returns (hide p fs) s gs s') :
    Hidable r ps s' ∧ s'.completion.definitions.map (·.predicate) =
      (s.completion.definitions.map (·.predicate)).filter (· != p) := by
  obtain ⟨-, d, r₁, r₂, hfind, hds, hcs, hgs⟩ := hide_iff.mp hrun
  obtain ⟨d', hd, hfind', rfl⟩ := definition?_of_mem (h.defined p mem_cons_self)
  obtain rfl : d = d' := Option.some.inj (hfind.symm.trans hfind')
  have htraced := h.traced d hd
  obtain ⟨params, body, hdefinition, harity, -⟩ := htraced
  have hpredicates := hideInDefinitions_iff.mp hds
  rw [without_eq_filter h.distinct] at hds hpredicates
  have hmap : s'.completion.definitions.map (·.predicate) =
      (s.completion.definitions.map (·.predicate)).filter (· != d.predicate) := by
    rw [hpredicates.1, filter_map]
    rfl
  refine ⟨⟨?_, ?_, fun q hq => ?_, ?_⟩, hmap⟩
  · have h₁ := (hideInAll_mentions hdefinition harity hpredicates.2).1
    have h₂ := (hideInAll_mentions hdefinition harity hcs).1
    have h₃ := (hideInAll_mentions hdefinition harity hgs).1
    exact ((h₁.trans h₂).trans h₃).predicates.trans h.predicates
  · rw [hmap]
    exact h.distinct.filter _
  · have hne : q ≠ d.predicate := fun he => hps (he ▸ hq)
    rw [hmap, mem_filter]
    exact ⟨h.defined q (mem_cons_of_mem _ hq), bne_iff_ne.mpr hne⟩
  · refine hideInDefinitions_traced (fun x hx => ?_) (h.traced d hd) hprivate hbuiltIn hds
    rw [mem_filter, bne_iff_ne] at hx
    exact ⟨h.traced x hx.1, hx.2⟩

/-- A predicate that can be hidden when its turn comes. -/
structure Registry.Removable (r : Registry) (p : Symbol) : Prop where
  isPrivate : r.isPrivate p = true
  notBuiltIn : p.isBuiltInPredicate = false
  noCycle : r.hasPrivateCycle p = false
  notSelf : ¬ r.LeadsTo p p

/-- Several predicates can be hidden one after the other. -/
theorem Hidable.hideEach_succeeds (h : Hidable r ps s) (hps : ps.Nodup)
    (hall : ∀ p ∈ ps, Registry.Removable r p) (fs : List Formula) :
    ∃ gs s', Returns (hideEach ps fs) s gs s' := by
  induction ps generalizing s fs with
  | nil => exact ⟨fs, s, Returns.pure_iff.mpr ⟨rfl, rfl⟩⟩
  | cons p ps ih =>
    rw [nodup_cons] at hps
    rw [forall_mem_cons] at hall
    have hp := hall.1
    obtain ⟨gs, s₁, hgs⟩ := h.hide_succeeds hp.notBuiltIn hp.noCycle hp.notSelf fs
    have h₁ := (h.hide hps.1 hp.isPrivate hp.notBuiltIn hgs).1
    obtain ⟨gs', s₂, hgs'⟩ := ih h₁ hps.2 hall.2 gs
    exact ⟨gs', s₂, Returns.bind_iff.mpr ⟨gs, s₁, hgs, hgs'⟩⟩

section Completed

variable {c : Completion} {r' : Registry}

/-- What a registry knows of a completion that was made in it. -/
structure Recorded (c : Completion) (r : Registry) : Prop where
  nodup : r.symbols.Nodup
  distinct : (c.definitions.map (·.predicate)).Nodup
  defined : ∀ p, p ∈ c.definitions.map (·.predicate) ↔ p ∈ definedPredicates r
  form : ∀ d ∈ c.definitions, ∃ params, IsDefinition d.predicate params (bodyOf d) d.formula ∧
    params.length = d.predicate.arity
  dependencies : ∀ d ∈ c.definitions, ∀ q, q ∈ r.dependencySymbols d.predicate ↔
    (bodyOf d).mentions q ∧ q.isBuiltInPredicate = false
  declared : ∀ d ∈ c.definitions, ∀ q, (bodyOf d).mentions q → q ∈ r.symbols

/-- Variables and functions do not count. -/
theorem Recorded.congr (h : Recorded c r) (hr : r'.predicates = r.predicates) : Recorded c r' := by
  have hsymbols : r'.symbols = r.symbols := by rw [Registry.symbols, Registry.symbols, hr]
  have hdefined : definedPredicates r' = definedPredicates r := by
    rw [definedPredicates, definedPredicates, Registry.sortedPredicates, Registry.sortedPredicates, hr]
  have hdependencies : ∀ p, r'.dependencySymbols p = r.dependencySymbols p := by
    intro p
    rw [Registry.dependencySymbols, Registry.dependencySymbols, Registry.predicate?,
      Registry.predicate?, hr]
  refine ⟨hsymbols ▸ h.nodup, h.distinct, hdefined ▸ h.defined, h.form, fun d hd q => ?_,
    hsymbols ▸ h.declared⟩
  rw [hdependencies]
  exact h.dependencies d hd q

theorem mem_definedPredicates_of_interface
    (h : r'.predicates.map interfaceOf = r.predicates.map interfaceOf) :
    p ∈ definedPredicates r' ↔ p ∈ definedPredicates r := by
  have hmem : ∀ r : Registry, p ∈ definedPredicates r ↔ ∃ i ∈ r.predicates.map interfaceOf,
      (i.2.1 = false ∧ i.1.isBuiltInPredicate = false) ∧ i.1 = p := by
    intro r
    rw [mem_definedPredicates]
    simp only [mem_map, exists_exists_and_eq_and]
    exact Iff.rfl
  rw [hmem, hmem, h]

/-- Definitions have a variable for each argument. -/
theorem definitionFrom_form {e : Encoding.State} (he : Encoding.Scoped e) (n : Nat) (p : Symbol) :
    (paramsFrom e.encoding n p).length = p.arity ∧
      ∀ q, (bodyFrom e.encoding p).mentions q → q ∈ e.registry.symbols := by
  rw [paramsFrom, bodyFrom]
  cases hp : e.encoding.definition? p with
  | some d =>
    have hd := Encoding.definition?_eq_some hp
    refine ⟨hd.2 ▸ (he.params d hd.1).1, fun q hq => ?_⟩
    obtain ⟨g, hg, hq⟩ := Formula.mentions_join.mp hq
    obtain ⟨f, hf, rfl⟩ := mem_map.mp hg
    exact (he.rules d hd.1 f hf).2.1 q (Formula.mentions_close.mp hq)
  | none => exact ⟨length_range', fun q hq => absurd hq (by simp)⟩

/-- Completion records its definitions. -/
theorem recorded_of_complete {e : Encoding.State} (he : Encoding.Scoped e)
    (hnodup : e.registry.symbols.Nodup)
    (h : Returns (complete e.encoding) e.registry c r) : Recorded c r := by
  obtain ⟨rfl, rfl⟩ := (complete_returns e.encoding e.registry).unique h
  have hparams : e.registry.Grows (withParams e.encoding e.registry) :=
    e.registry.grows_addGenerated _ _
  have hgrows := hparams.trans (grows_recorded (completionIn e.encoding e.registry).definitions _)
  have hpredicates : (completionIn e.encoding e.registry).definitions.map (·.predicate) =
      definedPredicates e.registry := map_predicate_definitionsFrom _ _ _
  have hdistinct : (definedPredicates e.registry).Nodup := Registry.nodup_sortedPredicates hnodup _
  have hform : ∀ d ∈ (completionIn e.encoding e.registry).definitions, ∃ params,
      IsDefinition d.predicate params (bodyOf d) d.formula ∧
        params.length = d.predicate.arity ∧
        ∀ q, (bodyOf d).mentions q → q ∈ e.registry.symbols := by
    intro d hd
    obtain ⟨-, m, -, -, hm⟩ := mem_definitionsFrom hd
    have hdefinition := isDefinition_definitionFrom e.encoding m d.predicate
    rw [← hm] at hdefinition
    rw [hdefinition.bodyOf_eq]
    exact ⟨_, hdefinition, definitionFrom_form he m d.predicate⟩
  refine ⟨hgrows.distinct hnodup, hpredicates ▸ hdistinct, fun p => ?_, fun d hd => ?_,
    fun d hd q => ?_, fun d hd q hq => ?_⟩
  · rw [hpredicates]
    have hinterface : (recorded (completionIn e.encoding e.registry).definitions
        (withParams e.encoding e.registry)).predicates.map interfaceOf =
          e.registry.predicates.map interfaceOf := (recorded_spec _ _).2
    exact (mem_definedPredicates_of_interface hinterface).symm
  · obtain ⟨params, hdefinition, harity, -⟩ := hform d hd
    exact ⟨params, hdefinition, harity⟩
  · have hd' : d.predicate ∈ definedPredicates e.registry := hpredicates ▸ mem_map_of_mem hd
    obtain ⟨x, hx, -, hxd⟩ := mem_definedPredicates.mp hd'
    refine mem_dependencySymbols_recorded (hpredicates ▸ hdistinct) hd ?_
    rw [← hxd]
    exact hparams.symbols (mem_map_of_mem hx)
  · obtain ⟨-, -, -, hmentions⟩ := hform d hd
    exact hgrows.symbols (hmentions q hq)

theorem mem_definedPredicates_of_private (hp : p ∈ privatePredicates r) : p ∈ definedPredicates r := by
  obtain ⟨d, hd, hprivate, rfl⟩ := Registry.mem_privatePredicates.mp hp
  rw [mem_definedPredicates]
  simp only [PredicateDeclaration.isPrivate, PredicateDeclaration.isPublic, Bool.and_eq_true,
    Bool.not_eq_true', Bool.or_eq_false_iff] at hprivate
  exact ⟨d, hd, ⟨hprivate.1.1, hprivate.2⟩, rfl⟩

/-- Private predicates without cycles can be removed. -/
theorem Recorded.removable (h : Recorded c r) (hp : p ∈ privatePredicates r)
    (hcycle : r.hasPrivateCycle p = false) : Registry.Removable r p where
  isPrivate := (Registry.isPrivate_iff h.nodup (Registry.mem_symbols_of_private hp)).mpr hp
  notBuiltIn := Registry.not_isBuiltIn_of_private hp
  noCycle := hcycle
  notSelf := Registry.not_leadsTo_self h.nodup hp hcycle

/-- At first definitions mention what their predicates depend on. -/
theorem Recorded.hidable (h : Recorded c r) : Hidable r (privatePredicates r) ⟨r, c⟩ where
  predicates := rfl
  distinct := h.distinct
  defined := fun p hp => (h.defined p).mpr (mem_definedPredicates_of_private hp)
  traced := by
    intro d hd
    obtain ⟨params, hdefinition, harity⟩ := h.form d hd
    exact ⟨params, bodyOf d, hdefinition, harity, fun q hq hq' =>
      .direct ((h.dependencies d hd q).mpr ⟨hq, hq'⟩)⟩

/-- Private predicates without cycles can be hidden in any formulas. -/
theorem Recorded.restrictToOutput_returns (h : Recorded c r)
    (hcycles : hasOutput r = true → ∀ p ∈ privatePredicates r, r.hasPrivateCycle p = false)
    (fs : List Formula) : ∃ gs s', Returns (restrictToOutput fs) ⟨r, c⟩ gs s' := by
  simp only [restrictToOutput, Returns.bind_iff, Returns.get_iff]
  cases houtput : hasOutput r with
  | false =>
    refine ⟨fs, ⟨r, c⟩, _, _, ⟨rfl, rfl⟩, ?_⟩
    rw [houtput]
    exact Returns.pure_iff.mpr ⟨rfl, rfl⟩
  | true =>
    obtain ⟨gs, s', hrun⟩ := h.hidable.hideEach_succeeds (Registry.nodup_privatePredicates h.nodup)
      (fun p hp => h.removable hp (hcycles houtput p hp)) fs
    refine ⟨gs, s', _, _, ⟨rfl, rfl⟩, ?_⟩
    rw [houtput]
    exact hrun

/-- What the check finds nothing wrong with. -/
theorem privateFault?_eq_none (h : privateFault? r p = none) :
    r.hasPrivateCycle p = false ∧ ∀ q ∈ r.dependencySymbols p, isOutput r q = false := by
  rw [privateFault?] at h
  split at h
  · cases h
  · next hcycle =>
    rw [Option.map_eq_none_iff, find?_eq_none] at h
    refine ⟨Bool.eq_false_of_not_eq_true hcycle, fun q hq => ?_⟩
    obtain ⟨edge, hedge, rfl⟩ := mem_map.mp hq
    exact Bool.eq_false_of_not_eq_true (h edge (mem_mergeSort.mpr hedge))

theorem privateFault?_of_checkConsistency {specification : List Formula}
    (h : checkConsistency r specification = .ok ()) (houtput : hasOutput r = true) :
    ∀ p ∈ privatePredicates r, privateFault? r p = none := by
  have hfault : interfaceFault? r specification = none := by
    rw [checkConsistency] at h
    split at h
    · cases h
    · next hnone => exact hnone
  rw [interfaceFault?, houtput, if_pos rfl] at hfault
  split at hfault
  · cases hfault
  · exact findSome?_eq_none_iff.mp hfault

/-- If the interface of a program passes the check, then hiding its private predicates
succeeds, and no private predicate depends on an output predicate, directly or through
other private predicates. -/
theorem restrictToOutput_succeeds {e : Encoding.State} (he : Encoding.Attempted e)
    (hc : Returns (complete e.encoding) e.registry c r) (hr : r'.predicates = r.predicates)
    {specification : List Formula} (hcheck : checkConsistency r' specification = .ok ())
    (fs : List Formula) :
    (∃ gs s', Returns (restrictToOutput fs) ⟨r', c⟩ gs s') ∧
      (hasOutput r' = true → ∀ p q, r'.isPrivate p = true → r'.LeadsTo p q →
        isOutput r' q = false) := by
  have hrecorded := (recorded_of_complete he.scoped.1 he.scoped.2 hc).congr hr
  have hfault : hasOutput r' = true → ∀ p ∈ privatePredicates r', privateFault? r' p = none :=
    privateFault?_of_checkConsistency hcheck
  refine ⟨hrecorded.restrictToOutput_returns (fun houtput p hp =>
    (privateFault?_eq_none (hfault houtput p hp)).1) fs, fun houtput p q hp hpq => ?_⟩
  -- Every chain ends with a dependency of a private predicate, which was checked.
  have hlast : ∀ x, r'.isPrivate x = true → ∀ q ∈ r'.dependencySymbols x, isOutput r' q = false := by
    intro x hx q hq
    have hdeclared : x ∈ r'.symbols := by
      by_contra hnot
      have hnone := Option.not_isSome_iff_eq_none.mp (mt Registry.isSome_predicate?.mp hnot)
      rw [Registry.dependencySymbols, hnone] at hq
      cases hq
    have hmem := (Registry.isPrivate_iff hrecorded.nodup hdeclared).mp hx
    exact (privateFault?_eq_none (hfault houtput x hmem)).2 q hq
  cases hpq with
  | direct hq => exact hlast p hp q hq
  | through _ hx hq => exact hlast _ hx q hq

end Completed

/-- The nodes without edges, by way of those that have some. -/
def isolation : List Rule :=
  let literal (sign : Rule.Sign) (name : Text) (args : List Rule.Term) : Rule.BodyLiteral :=
    ⟨.plain, .literal ⟨sign, .symbolic (.function false name args)⟩⟩
  let x : Rule.Term := .variable "X"
  [⟨.ofAtom "linked" [x], [literal .plain "edge" [x, .variable "Y"]], 1⟩,
    ⟨.ofAtom "loose" [x], [literal .negated "linked" [x]], 2⟩,
    ⟨.ofAtom "isolated" [x], [literal .plain "loose" [x]], 3⟩]

/-- The declarations and formulas of the isolation, of which the isolated nodes are
asked for. -/
def isolated : Encoding.State :=
  let s := (outcome (Encoding.addRules isolation) ⟨.empty, .empty⟩).2
  ⟨s.registry.withInterface (· = ⟨"edge", 2⟩) (· = ⟨"isolated", 1⟩), s.encoding⟩

/-- The registry with the dependencies of the isolation. -/
def isolatedRegistry : Registry :=
  recorded (completionIn isolated.encoding isolated.registry).definitions
    (withParams isolated.encoding isolated.registry)

theorem isolated_attempted : Encoding.Attempted isolated := by
  have hok : (outcome (Encoding.addRules isolation) ⟨.empty, .empty⟩).1 = .ok () := by
    decide +kernel
  have hempty : Registry.empty.symbols.Nodup := nodup_nil
  have hrun := (Encoding.Attempted.start hempty).addRules (Returns.of_ok hok)
  exact hrun.declare (Registry.grows_withInterface _)

theorem definedPredicates_isolated :
    definedPredicates isolated.registry = [⟨"isolated", 1⟩, ⟨"linked", 1⟩, ⟨"loose", 1⟩] :=
  Symbol.map_mergeSort_eq _ (by decide +kernel) (by decide)

theorem isolated_interface : hasOutput isolatedRegistry = true ∧
    ∀ d ∈ isolatedRegistry.predicates, d.isPrivate → privateFault? isolatedRegistry d.symbol = none := by
  rw [isolatedRegistry, completionIn, withParams, definedPredicates_isolated]
  decide +kernel

theorem isolated_faultless : ∀ p ∈ privatePredicates isolatedRegistry,
    privateFault? isolatedRegistry p = none := by
  intro p hp
  obtain ⟨d, hd, hprivate, rfl⟩ := Registry.mem_sortedPredicates.mp hp
  exact isolated_interface.2 d hd hprivate

theorem isolated_consistent : checkConsistency isolatedRegistry [] = .ok () := by
  have hnone : (privatePredicates isolatedRegistry).findSome? (privateFault? isolatedRegistry) = none :=
    findSome?_eq_none_iff.mpr isolated_faultless
  simp [checkConsistency, interfaceFault?, isolated_interface.1, privateInSpecification?, hnone]

theorem restrictToOutput_succeeds_isolation :
    checkConsistency isolatedRegistry [] = .ok () ∧
    (∃ gs s', Returns (restrictToOutput [])
      ⟨isolatedRegistry, completionIn isolated.encoding isolated.registry⟩ gs s') ∧
    (hasOutput isolatedRegistry = true → ∀ p q, isolatedRegistry.isPrivate p = true →
      isolatedRegistry.LeadsTo p q → isOutput isolatedRegistry q = false) := by
  have hcheck := isolated_consistent
  exact ⟨hcheck, restrictToOutput_succeeds isolated_attempted (complete_returns _ _) rfl hcheck []⟩

end Completion

end LogicProgram
