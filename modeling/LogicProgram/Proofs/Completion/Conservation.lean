import LogicProgram.Proofs.Completion.Separation

/-!
# Hiding is conservative

Hiding the private predicates of a program changes nothing for the others: what is
left holds in an interpretation if and only if the private predicates can be given
extents with which the whole completion holds. They never can in two ways.
-/

namespace LogicProgram

open List

universe u

variable {d : CompletedDefinition}

namespace Interpretation

variable {I : Interpretation.{u}} {P Q : Text → List I.Object → Prop} {ps : List Symbol}

/-- The extents `P`, but for one predicate that has the extent of `Q`. -/
def exchange (p : Symbol) (P Q : Text → List I.Object → Prop) : Text → List I.Object → Prop :=
  fun name ds => if (⟨name, ds.length⟩ : Symbol) = p then Q name ds else P name ds

variable {p : Symbol}

theorem exchange_self {name : Text} {ds : List I.Object} (h : (⟨name, ds.length⟩ : Symbol) = p) :
    exchange p P Q name ds = Q name ds := if_pos h

theorem exchange_other {name : Text} {ds : List I.Object} (h : (⟨name, ds.length⟩ : Symbol) ≠ p) :
    exchange p P Q name ds = P name ds := if_neg h

theorem agreeOutside_exchange : AgreeOutside [p] (exchange p P Q) P := by
  intro name ds h
  rw [exchange_other fun he => h (mem_singleton.mpr he)]

/-- A predicate defined by `D` where `B` holds can be added in one way. -/
theorem exists_define {O : Text → List I.Object → Prop}
    {B : (Text → List I.Object → Prop) → Prop}
    {D : (Text → List I.Object → Prop) → List I.Object → Prop}
    (hB : ∀ P Q, AgreeOutside [p] P Q → (B P ↔ B Q))
    (hD : ∀ P Q, AgreeOutside [p] P Q → ∀ ds, D P ds ↔ D Q ds)
    {Old New : (Text → List I.Object → Prop) → Prop}
    (hOld : ∀ P, Old P ↔ AgreeOutside ps P O ∧ B P)
    (hNew : ∀ P, New P ↔ AgreeOutside (p :: ps) P O ∧ B P ∧
      ∀ ds, ds.length = p.arity → (P p.name ds ↔ D P ds)) :
    ((∃ P, Old P) ↔ ∃ P, New P) ∧ ((∀ P Q, Old P → Old Q → P = Q) → ∀ P Q, New P → New Q → P = Q) := by
  -- Add the predicate with the extent that its definition asks for, or take it away again.
  have hadd : ∀ P, Old P → New (exchange p P fun _ ds => D P ds) := by
    intro P hP
    obtain ⟨hagree, hBP⟩ := (hOld P).mp hP
    refine (hNew _).mpr ⟨fun name ds hmem => ?_, (hB _ _ agreeOutside_exchange).mpr hBP, fun ds hlen => ?_⟩
    · rw [mem_cons, not_or] at hmem
      rw [exchange_other hmem.1]
      exact hagree name ds hmem.2
    · rw [exchange_self (by rw [hlen])]
      exact (hD _ _ agreeOutside_exchange ds).symm
  have htake : ∀ P, New P → Old (exchange p P O) := by
    intro P hP
    obtain ⟨hagree, hBP, -⟩ := (hNew P).mp hP
    refine (hOld _).mpr ⟨fun name ds hmem => ?_, (hB _ _ agreeOutside_exchange).mpr hBP⟩
    by_cases hname : (⟨name, ds.length⟩ : Symbol) = p
    · rw [exchange_self hname]
    · rw [exchange_other hname]
      exact hagree name ds (by simp [hname, hmem])
  refine ⟨⟨fun h => h.elim fun P hP => ⟨_, hadd P hP⟩, fun h => h.elim fun P hP => ⟨_, htake P hP⟩⟩,
    fun hunique P Q hP hQ => ?_⟩
  have htaken := hunique _ _ (htake P hP) (htake Q hQ)
  have hdefined : ∀ P, New P → ∀ ds, ds.length = p.arity → (P p.name ds ↔ D (exchange p P O) ds) :=
    fun P hP ds hlen => (((hNew P).mp hP).2.2 ds hlen).trans (hD _ _ agreeOutside_exchange ds).symm
  funext name ds
  by_cases hname : (⟨name, ds.length⟩ : Symbol) = p
  · subst hname
    exact propext (((hdefined P hP ds rfl).trans (by rw [htaken])).trans (hdefined Q hQ ds rfl).symm)
  · have hsame : ∀ P, exchange p P O name ds = P name ds := fun _ => exchange_other hname
    rw [← hsame P, htaken, hsame Q]

end Interpretation

namespace Completion

variable {p : Symbol} {ps : List Symbol} {fs gs : List Formula} {r R : Registry} {s s' : State}
  {c : Completion} {I : Interpretation.{u}} {σ : Valuation I}

/-- A completion and further formulas hold. -/
def Satisfied (c : Completion) (fs : List Formula) (R : Registry) (I : Interpretation.{u})
    (σ : Valuation I) : Prop :=
  c.Holds R I σ ∧ ∀ f ∈ fs, f.Holds R I σ

/-- They hold if some predicates are given other extents. -/
def SatisfiedWith (c : Completion) (fs : List Formula) (R : Registry) (I : Interpretation.{u})
    (σ : Valuation I) (ps : List Symbol) (P : Text → List I.Object → Prop) : Prop :=
  Interpretation.AgreeOutside ps P I.predicate ∧ c.Satisfied fs R (I.withPredicate P) σ

theorem satisfied_iff : c.Satisfied fs R I σ ↔ ∀ f ∈ c.contents ++ fs, f.Holds R I σ := by
  simp only [Satisfied, Holds, contents, forall_mem_append, forall_mem_map]

theorem forall_holds_iff {r' : Registry} {fs gs : List Formula}
    (h : Forall₂ (fun f g => Expansion.{u} d.predicate (paramsOf d) (bodyOf d) r f g r') fs gs)
    (hR : r'.Grows R) (hI : Defines R I d.predicate (paramsOf d) (bodyOf d)) :
    (∀ f ∈ fs, f.Holds R I σ) ↔ ∀ g ∈ gs, g.Holds R I σ := by
  induction h with
  | nil => simp
  | cons hfg _ ih =>
    rw [forall_mem_cons, forall_mem_cons, hfg.meaning R hR I hI σ, ih]

theorem forall_contents_iff (hs : Separated s)
    (hd : d ∈ s.completion.definitions) {P : Formula → Prop} : (∀ f ∈ s.completion.contents, P f) ↔
      P d.formula ∧ ∀ f ∈ (s.completion.remove d.predicate).contents, P f := by
  constructor
  · intro h
    exact ⟨h _ (mem_append_left _ (mem_map_of_mem hd)),
      fun f hf => h f (mem_contents_remove hf)⟩
  · intro h f hf
    rcases mem_append.mp hf with hf | hf
    · obtain ⟨x, hx, rfl⟩ := mem_map.mp hf
      by_cases hxd : x.predicate = d.predicate
      · rw [inj_on_of_nodup_map hs.distinct hx hd hxd]
        exact h.1
      · exact h.2 _ (mem_append_left _ (mem_map_of_mem (hs.mem_without.mpr ⟨hx, hxd⟩)))
    · exact h.2 f (mem_append_right _ hf)

/-- Before a predicate is hidden, formulas say that it is defined besides. -/
theorem HiddenBy.satisfied_iff (h : HiddenBy.{u} d s s')
    (hs : Separated s) (hd : d ∈ s.completion.definitions)
    (hfs : Forall₂ (fun f g => Expansion.{u} d.predicate (paramsOf d) (bodyOf d)
      s.registry f g s'.registry) fs gs) (hR : s'.registry.Grows R) :
    s.completion.Satisfied fs R I σ ↔
      s'.completion.Satisfied gs R I σ ∧ Defines R I d.predicate (paramsOf d) (bodyOf d) := by
  have hdefines := (hs.definitions d hd).holds_iff_defines (h.adds.toGrows.trans hR)
    (I := I) (σ := σ)
  rw [Completion.satisfied_iff, Completion.satisfied_iff, forall_mem_append,
    forall_mem_append, forall_contents_iff hs hd, hdefines]
  constructor
  · intro hall
    have hI := hall.1.1
    exact ⟨⟨(forall_holds_iff h.contents hR hI).mp hall.1.2, (forall_holds_iff hfs hR hI).mp hall.2⟩,
      hI⟩
  · intro hall
    have hI := hall.2
    exact ⟨⟨hI, (forall_holds_iff h.contents hR hI).mpr hall.1.1⟩,
      (forall_holds_iff hfs hR hI).mpr hall.1.2⟩

/-- No formula of a completion or of a list mentions some predicates. -/
def Absent (ps : List Symbol) (c : Completion) (fs : List Formula) : Prop :=
  ∀ p ∈ ps, ∀ f ∈ c.contents ++ fs, ¬ f.mentions p

/-- A predicate is gone once it is hidden, and none comes back. -/
theorem HiddenBy.absent (h : HiddenBy.{u} d s s') (hs : Separated s)
    (hd : d ∈ s.completion.definitions) (hbody : ¬ (bodyOf d).mentions d.predicate)
    (hfs : Forall₂ (fun f g => Expansion.{u} d.predicate (paramsOf d) (bodyOf d)
      s.registry f g s'.registry) fs gs) (hps : Absent ps s.completion fs) :
    Absent (d.predicate :: ps) s'.completion gs := by
  have hbodies : ∀ q ∈ d.predicate :: ps, ¬ (bodyOf d).mentions q := by
    rw [forall_mem_cons]
    refine ⟨hbody, fun q hq hm => hps q hq d.formula ?_ ((hs.definitions d hd).form.mentions hm)⟩
    exact mem_append_left _ (mem_append_left _ (mem_map_of_mem hd))
  intro q hq g hg hm
  have hold : ∃ f ∈ s.completion.contents ++ fs,
      Expansion.{u} d.predicate (paramsOf d) (bodyOf d) s.registry f g s'.registry := by
    rcases mem_append.mp hg with hg | hg
    · obtain ⟨f, hf, hfg⟩ := forall₂_exists_left h.contents hg
      exact ⟨f, mem_append_left _ (mem_contents_remove hf), hfg⟩
    · obtain ⟨f, hf, hfg⟩ := forall₂_exists_left hfs hg
      exact ⟨f, mem_append_right _ hf, hfg⟩
  obtain ⟨f, hf, hfg⟩ := hold
  rcases hfg.mentions q hm with ⟨hfq, hne⟩ | ⟨-, hin⟩
  · exact hps q ((mem_cons.mp hq).resolve_left hne) f hf hfq
  · exact hbodies q hq hin

/-- What one predicate adds to the formulas. -/
theorem HiddenBy.exists_iff (h : HiddenBy.{u} d s s')
    (hs : Separated s) (hd : d ∈ s.completion.definitions)
    (hbody : ¬ (bodyOf d).mentions d.predicate)
    (hfs : Forall₂ (fun f g => Expansion.{u} d.predicate (paramsOf d) (bodyOf d)
      s.registry f g s'.registry) fs gs) (habsent : Absent [d.predicate] s'.completion gs)
    (hR : s'.registry.Grows R) (I : Interpretation.{u}) (σ : Valuation I) :
    ((∃ P, s'.completion.SatisfiedWith gs R I σ ps P) ↔
        ∃ P, s.completion.SatisfiedWith fs R I σ (d.predicate :: ps) P) ∧
      ((∀ P Q, s'.completion.SatisfiedWith gs R I σ ps P →
          s'.completion.SatisfiedWith gs R I σ ps Q → P = Q) →
        ∀ P Q, s.completion.SatisfiedWith fs R I σ (d.predicate :: ps) P →
          s.completion.SatisfiedWith fs R I σ (d.predicate :: ps) Q → P = Q) := by
  have hproper := hs.definitions d hd
  refine Interpretation.exists_define (p := d.predicate)
    (D := fun P ds => (bodyOf d).Holds R (I.withPredicate P) (assign σ (paramsOf d) ds))
    ?_ ?_ (fun _ => Iff.rfl) fun P => and_congr_right' ?_
  · intro P Q hagree
    rw [Completion.satisfied_iff, Completion.satisfied_iff]
    refine forall_congr' fun f => imp_congr_right fun hf => ?_
    exact Interpretation.holds_withPredicate hagree (fun q hq => habsent q hq f hf) σ
  · intro P Q hagree ds
    refine Interpretation.holds_withPredicate hagree (fun q hq => ?_) _
    rw [mem_singleton.mp hq]
    exact hbody
  · rw [h.satisfied_iff hs hd hfs hR, hproper.defines_iff (I := I.withPredicate P) σ]

/-- Predicates were eliminated from a completion and from further formulas. -/
structure Eliminates (ps : List Symbol) (s : State) (fs : List Formula) (s' : State)
    (gs : List Formula) : Prop where
  adds : s.registry.AddsVariables s'.registry
  absent : Absent ps s'.completion gs
  /-- The definitions of the others remain, in order. -/
  definitions : s'.completion.definitions.map (·.predicate) =
    (s.completion.definitions.map (·.predicate)).filter (· ∉ ps)
  /-- Nothing changes for the others. -/
  meaning : ∀ R, s'.registry.Grows R → ∀ (I : Interpretation.{u}) (σ : Valuation I),
    (s'.completion.Satisfied gs R I σ ↔ ∃ P, s.completion.SatisfiedWith fs R I σ ps P) ∧
      ∀ P Q, s.completion.SatisfiedWith fs R I σ ps P →
        s.completion.SatisfiedWith fs R I σ ps Q → P = Q

/-- With nothing to eliminate nothing changes. -/
theorem Eliminates.nil (s : State) (fs : List Formula) : Eliminates.{u} [] s fs s fs := by
  refine ⟨.refl _, nofun, by simp, fun R _ I σ => ?_⟩
  have hsame : ∀ P, Interpretation.AgreeOutside [] P I.predicate → P = I.predicate := by
    intro P hP
    funext name ds
    exact propext (hP name ds not_mem_nil)
  refine ⟨⟨fun h => ⟨I.predicate, fun _ _ _ => Iff.rfl, h⟩, fun h => ?_⟩,
    fun P Q hP hQ => (hsame P hP.1).trans (hsame Q hQ.1).symm⟩
  obtain ⟨P, hP, hsatisfied⟩ := h
  obtain rfl := hsame P hP
  exact hsatisfied

/-- Hiding one after the other eliminates all, and none comes back. -/
theorem hideEach_eliminates (hs : Separated s) (hh : Hidable r ps s) (hps : ps.Nodup)
    (hall : ∀ p ∈ ps, Registry.Removable r p) (hfs : ∀ f ∈ fs, Apart s f)
    (hrun : Returns (hideEach ps fs) s gs s') : Eliminates.{u} ps s fs s' gs ∧
      ∀ qs, Absent qs s.completion fs → Absent (qs ++ ps) s'.completion gs := by
  induction ps generalizing s fs with
  | nil =>
    obtain ⟨rfl, rfl⟩ := Returns.pure_iff.mp hrun
    exact ⟨Eliminates.nil s fs, fun qs h => by rwa [append_nil]⟩
  | cons p ps ih =>
    obtain ⟨gs₁, s₁, hhide, hrest⟩ := Returns.bind_iff.mp hrun
    rw [nodup_cons] at hps
    rw [forall_mem_cons] at hall
    have hp := hall.1
    have hh₁ := hh.hide hps.1 hp.isPrivate hp.notBuiltIn hhide
    obtain ⟨d, hd, rfl, hby, hformulas⟩ := hs.hiddenBy.{u} hhide
    have hexpand := hformulas hfs
    have hs₁ := hby.separated hs
    have hfs₁ : ∀ g ∈ gs₁, Apart s₁ g := by
      intro g hg
      obtain ⟨f, hf, hfg⟩ := forall₂_exists_left hexpand hg
      exact hby.apart hs (hfs f hf) hfg
    have hbody : ¬ (bodyOf d).mentions d.predicate := by
      obtain ⟨params, body, hform, -, hbody⟩ := hh.traced d hd
      rw [hform.bodyOf_eq]
      exact fun hm => hp.notSelf (hbody _ hm hp.notBuiltIn)
    obtain ⟨helim, habsent⟩ := ih hs₁ hh₁.1 hps.2 hall.2 hfs₁ hrest
    have hstep : ∀ qs, Absent qs s.completion fs → Absent (d.predicate :: qs) s₁.completion gs₁ :=
      fun qs => hby.absent hs hd hbody hexpand
    have hgone := hstep [] nofun
    refine ⟨⟨hby.adds.trans helim.adds, habsent [d.predicate] hgone, ?_, fun R hR I σ => ?_⟩,
      fun qs hqs q hq => ?_⟩
    · rw [helim.definitions, hh₁.2, filter_filter]
      refine filter_congr fun q _ => ?_
      by_cases hq : q = d.predicate <;> simp [hq]
    · have hgrows := helim.adds.toGrows.trans hR
      obtain ⟨hmeaning, hunique⟩ := helim.meaning R hR I σ
      obtain ⟨hexists, hadded⟩ := hby.exists_iff hs hd hbody hexpand hgone hgrows I σ
      exact ⟨hmeaning.trans hexists, hadded hunique⟩
    · refine habsent (d.predicate :: qs) (hstep qs hqs) q ?_
      simp only [mem_append, mem_cons] at hq ⊢
      tauto

theorem hideEach_noCycle (hh : Hidable r ps s) (hps : ps.Nodup)
    (hall : ∀ p ∈ ps, r.isPrivate p = true ∧ p.isBuiltInPredicate = false)
    (hrun : Returns (hideEach ps fs) s gs s') : ∀ p ∈ ps, r.hasPrivateCycle p = false := by
  induction ps generalizing s fs with
  | nil => exact nofun
  | cons p ps ih =>
    obtain ⟨gs₁, s₁, hhide, hrest⟩ := Returns.bind_iff.mp hrun
    rw [nodup_cons] at hps
    rw [forall_mem_cons] at hall ⊢
    have hcycle := (hide_iff.mp hhide).1
    rw [Registry.hasPrivateCycle_congr hh.predicates] at hcycle
    exact ⟨hcycle, ih (hh.hide hps.1 hall.1.1 hall.1.2 hhide).1 hps.2 hall.2 hrest⟩

/-- A defined predicate is either private or an output. -/
theorem Recorded.not_private_iff (h : Recorded c r) (hp : p ∈ c.definitions.map (·.predicate)) :
    p ∉ privatePredicates r ↔ isOutput r p = true := by
  obtain ⟨d, hd, ⟨hinput, hbuiltIn⟩, rfl⟩ := mem_definedPredicates.mp ((h.defined p).mp hp)
  have hfound := Registry.predicate?_of_mem h.nodup hd
  rw [← Registry.isPrivate_iff h.nodup (mem_map_of_mem hd), isOutput, Registry.isPrivate, hfound]
  simp [PredicateDeclaration.isPrivate, PredicateDeclaration.isPublic, hinput, hbuiltIn]

/-- Restricting a completed program to its output predicates eliminates the private
ones: they are gone from all formulas, the definitions of output predicates remain in
order, and what remains holds if and only if there are extents of the private
predicates with which the completion holds. There is at most one choice of them. -/
theorem restrictToOutput_conservative {e : Encoding.State} (he : Encoding.Attempted e)
    {r₁ : Registry} (hc : Returns (complete e.encoding) e.registry c r₁)
    (hr : r₁.AddsVariables r) (houtput : hasOutput r = true)
    (hfs : ∀ f ∈ fs, ∀ v : Nat, f.Occurs v → v < r.variableTable.size ∧
      ∀ g ∈ c.contents, ¬ g.Occurs v)
    (hrun : Returns (restrictToOutput fs) ⟨r, c⟩ gs s') :
    (∀ p ∈ privatePredicates r, ∀ f ∈ s'.completion.contents ++ gs, ¬ f.mentions p) ∧
      s'.completion.definitions.map (·.predicate) =
        (c.definitions.map (·.predicate)).filter (isOutput r) ∧
      ∀ (I : Interpretation.{u}) (σ : Valuation I),
        (s'.completion.Satisfied gs s'.registry I σ ↔
          ∃ P, c.SatisfiedWith fs s'.registry I σ (privatePredicates r) P) ∧
        ∀ P Q, c.SatisfiedWith fs s'.registry I σ (privatePredicates r) P →
          c.SatisfiedWith fs s'.registry I σ (privatePredicates r) Q → P = Q := by
  have hrecorded := (recorded_of_complete he.scoped.1 he.scoped.2 hc).congr hr.predicates
  have hs := (separated_of_complete he.scoped.1 he.scoped.2 hc).grows hr.toGrows
  have hnodup := Registry.nodup_privatePredicates hrecorded.nodup
  have hrun' : Returns (hideEach (privatePredicates r) fs) ⟨r, c⟩ gs s' := by
    obtain ⟨_, _, hget, hbranch⟩ := Returns.bind_iff.mp hrun
    obtain ⟨rfl, rfl⟩ := Returns.get_iff.mp hget
    simp only [houtput, if_true] at hbranch
    exact hbranch
  have hprivate : ∀ p ∈ privatePredicates r, r.isPrivate p = true ∧ p.isBuiltInPredicate = false :=
    fun p hp => ⟨(Registry.isPrivate_iff hrecorded.nodup (Registry.mem_symbols_of_private hp)).mpr hp,
      Registry.not_isBuiltIn_of_private hp⟩
  have hcycles := hideEach_noCycle hrecorded.hidable hnodup hprivate hrun'
  have hapart : ∀ f ∈ fs, Apart ⟨r, c⟩ f := by
    intro f hf v hv
    refine ⟨(hfs f hf v hv).1, fun d hd hmem => ?_⟩
    refine (hfs f hf v hv).2 d.formula (mem_append_left _ (mem_map_of_mem hd)) (.inr ?_)
    rw [(hs.definitions d hd).form.binders_eq]
    exact mem_append_left _ hmem
  have helim := (hideEach_eliminates.{u} hs hrecorded.hidable hnodup
    (fun p hp => hrecorded.removable hp (hcycles p hp)) hapart hrun').1
  refine ⟨helim.absent, helim.definitions.trans (filter_congr fun p hp => ?_),
    helim.meaning s'.registry (.refl _)⟩
  rw [Bool.eq_iff_iff, decide_eq_true_eq]
  exact hrecorded.not_private_iff hp

/-- The registry of the isolation with one more variable. -/
def isolatedExtended : Registry := isolatedRegistry.addGenerated (some .program) 1

/-- Isolated nodes are loose. -/
def isolatedSpecification : Formula :=
  let x : Term := .variable isolatedRegistry.variableTable.size
  .quantified .universal [isolatedRegistry.variableTable.size]
    (.implies (.atom "isolated" [x]) (.atom "loose" [x]))

theorem restrictToOutput_conservative_isolation :
    ∃ gs s', Returns (restrictToOutput [isolatedSpecification])
        ⟨isolatedExtended, completionIn isolated.encoding isolated.registry⟩ gs s' ∧
      (∀ p ∈ privatePredicates isolatedExtended,
        ∀ f ∈ s'.completion.contents ++ gs, ¬ f.mentions p) ∧
      s'.completion.definitions.map (·.predicate) =
        ((completionIn isolated.encoding isolated.registry).definitions.map (·.predicate)).filter
          (isOutput isolatedExtended) ∧
      ∀ (I : Interpretation.{0}) (σ : Valuation I),
        (s'.completion.Satisfied gs s'.registry I σ ↔
          ∃ P, (completionIn isolated.encoding isolated.registry).SatisfiedWith
            [isolatedSpecification] s'.registry I σ (privatePredicates isolatedExtended) P) ∧
        ∀ P Q, (completionIn isolated.encoding isolated.registry).SatisfiedWith
            [isolatedSpecification] s'.registry I σ (privatePredicates isolatedExtended) P →
          (completionIn isolated.encoding isolated.registry).SatisfiedWith
            [isolatedSpecification] s'.registry I σ (privatePredicates isolatedExtended) Q → P = Q := by
  have hcomplete : Returns (complete isolated.encoding) isolated.registry
      (completionIn isolated.encoding isolated.registry) isolatedRegistry := complete_returns _ _
  have hattempted := isolated_attempted
  have hadds : isolatedRegistry.AddsVariables isolatedExtended :=
    isolatedRegistry.addsVariables_addVariables _
  have hrecorded := recorded_of_complete hattempted.scoped.1 hattempted.scoped.2 hcomplete
  have hseparated := separated_of_complete hattempted.scoped.1 hattempted.scoped.2 hcomplete
  have hcycles : ∀ p ∈ privatePredicates isolatedExtended,
      isolatedExtended.hasPrivateCycle p = false := by
    intro p hp
    rw [Registry.hasPrivateCycle_congr hadds.predicates]
    exact (privateFault?_eq_none (isolated_faultless p hp)).1
  obtain ⟨gs, s', hrun⟩ := (hrecorded.congr hadds.predicates).restrictToOutput_returns
    (fun _ => hcycles) [isolatedSpecification]
  refine ⟨gs, s', hrun, restrictToOutput_conservative.{0} hattempted hcomplete hadds
    isolated_interface.1 (fun f hf v hv => ?_) hrun⟩
  have hnew : v = isolatedRegistry.variableTable.size := by
    rw [mem_singleton.mp hf] at hv
    simpa [isolatedSpecification, Formula.Occurs, Formula.binders, Term.vars] using hv
  refine ⟨?_, fun g hg hoccurs => ?_⟩
  · rw [hnew, isolatedExtended, Registry.size_addGenerated]
    exact Nat.lt_succ_self _
  · have hclosed := hseparated.closed hg
    rcases hoccurs with hfree | hbound
    · exact hclosed.free v hfree
    · exact absurd (hclosed.below v hbound) (by rw [hnew]; exact Nat.lt_irrefl _)

end Completion

end LogicProgram
