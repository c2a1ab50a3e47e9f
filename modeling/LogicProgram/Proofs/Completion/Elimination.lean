import LogicProgram.Proofs.Completion.Hiding

/-!
# Hiding predicates one after the other

Predicates are hidden in the order of their names, so a definition that takes the place
of atoms may hold copies of others by then.
-/

namespace LogicProgram

open List
open Returns (exists_pure exists_bind pure_iff bind_iff)

namespace Registry

variable {r r' : Registry} {follow : Symbol × Polarity → Bool} {p q x : Symbol}

/-- A predicate depends on another, directly or through private predicates. -/
inductive LeadsTo (r : Registry) (p : Symbol) : Symbol → Prop
  | direct {q : Symbol} : q ∈ r.dependencySymbols p → LeadsTo r p q
  /-- A dependency of a private predicate. -/
  | through {x q : Symbol} : LeadsTo r p x → r.isPrivate x = true → q ∈ r.dependencySymbols x →
    LeadsTo r p q

theorem LeadsTo.trans (h : r.LeadsTo p x) (hx : r.isPrivate x = true) (h' : r.LeadsTo x q) :
    r.LeadsTo p q := by
  induction h' with
  | direct hq => exact .through h hx hq
  | through _ hy hq ih => exact .through ih hy hq

/-- Private predicates that a predicate leads to can be reached from it. -/
theorem LeadsTo.reaches (h : r.LeadsTo p q) (hq : r.isPrivate q = true) :
    r.Reaches r.isPrivateEdge p q := by
  induction h with
  | direct hdep => exact .single (mem_successors.mpr ⟨hdep, hq⟩)
  | through _ hx hdep ih => exact (ih hx).tail (mem_successors.mpr ⟨hdep, hq⟩)

/-- Variables have no part in cycles. -/
theorem hasPrivateCycle_congr (h : r'.predicates = r.predicates) :
    r'.hasPrivateCycle p = r.hasPrivateCycle p := by
  have hpredicate : r'.predicate? = r.predicate? := by
    funext q
    rw [predicate?, predicate?, h]
  have hprivate : r'.isPrivateEdge = r.isPrivateEdge := by
    funext edge
    rw [isPrivateEdge, isPrivateEdge, isPrivate, isPrivate, hpredicate]
  have hsuccessors : ∀ q, r'.successors r.isPrivateEdge q = r.successors r.isPrivateEdge q := by
    intro q
    rw [successors, successors, dependenciesOf, dependenciesOf, hpredicate]
  rw [Bool.eq_iff_iff, hasPrivateCycle, hasPrivateCycle, reachesItself_iff, reachesItself_iff,
    hprivate, Reaches, Reaches]
  simp only [hsuccessors]

end Registry

namespace Completion

variable {p q : Symbol} {params : List Variable} {body definition f g : Formula}
  {fs gs : List Formula} {new : List Term → Registering Formula} {r r' : Registry}

/-- Replacement succeeds if the new formulas can be made. -/
theorem replaceAtoms_succeeds (hnew : ∀ args r, ∃ g r', Returns (new args) r g r') (f : Formula)
    (r : Registry) : ∃ g r', Returns (f.replaceAtoms p new) r g r' := by
  induction f generalizing r with
  | boolean b | compare op left right => exact exists_pure _ r
  | atom name args =>
    simp only [Formula.replaceAtoms]
    split
    · exact hnew args r
    · exact exists_pure _ r
  | not f ih =>
    obtain ⟨g, r₁, hg⟩ := ih r
    exact exists_bind hg (exists_pure _ r₁)
  | implies a c iha ihc =>
    obtain ⟨a', r₁, ha⟩ := iha r
    obtain ⟨c', r₂, hc⟩ := ihc r₁
    exact exists_bind ha (exists_bind hc (exists_pure _ r₂))
  | join connective fs ih =>
    have hall : ∃ gs r', Returns (Formula.replaceAtomsInAll p new fs) r gs r' := by
      induction fs generalizing r with
      | nil => exact exists_pure _ r
      | cons f fs ihs =>
        obtain ⟨g, r₁, hg⟩ := ih f mem_cons_self r
        obtain ⟨gs, r₂, hgs⟩ := ihs (fun f hf => ih f (mem_cons_of_mem _ hf)) r₁
        exact exists_bind hg (exists_bind hgs (exists_pure _ r₂))
    obtain ⟨gs, r₁, hgs⟩ := hall
    exact exists_bind hgs (exists_pure _ r₁)
  | quantified q vs f ih =>
    obtain ⟨g, r₁, hg⟩ := ih r
    exact exists_bind hg (exists_pure _ r₁)

theorem bodyCopy_succeeds (params : List Variable) (body : Formula) (args : List Term)
    (r : Registry) : ∃ g r', Returns (bodyCopy params body args) r g r' :=
  exists_bind (Returns.modifyGet_iff.mpr rfl) (exists_pure _ _)

/-- A definition is put in place if its body does not mention its predicate. -/
theorem hidePredicate_succeeds (hdefinition : IsDefinition p params body definition)
    (harity : params.length = p.arity) (hbody : ¬ body.mentions p) (f : Formula) (r : Registry) :
    ∃ g r', Returns (hidePredicate definition f) r g r' := by
  have hnot : ¬ (body.mentions p && f.mentions p) = true :=
    fun hboth => hbody (Bool.and_eq_true_iff.mp hboth).1
  rw [hidePredicate_eq hdefinition harity, if_neg hnot]
  exact replaceAtoms_succeeds (bodyCopy_succeeds params body) f r

theorem hideInAll_succeeds (hdefinition : IsDefinition p params body definition)
    (harity : params.length = p.arity) (hbody : ¬ body.mentions p) (fs : List Formula)
    (r : Registry) : ∃ gs r', Returns (hideInAll definition fs) r gs r' := by
  induction fs generalizing r with
  | nil => exact exists_pure _ r
  | cons f fs ih =>
    obtain ⟨g, r₁, hg⟩ := hidePredicate_succeeds hdefinition harity hbody f r
    obtain ⟨gs, r₂, hgs⟩ := ih r₁
    exact exists_bind hg (exists_bind hgs (exists_pure _ r₂))

/-- Hiding adds variables, and the body brings its predicates along. -/
theorem hideInAll_mentions (hdefinition : IsDefinition p params body definition)
    (harity : params.length = p.arity) (h : Returns (hideInAll definition fs) r gs r') :
    r.AddsVariables r' ∧ Forall₂ (fun f g => ∀ q, g.mentions q →
      f.mentions q ∧ q ≠ p ∨ f.mentions p ∧ body.mentions q) fs gs :=
  replacedAtoms_mentions (bodyCopy_mentions harity) (hideInAll_replaces hdefinition harity h)

/-- Hiding in definitions is hiding in their formulas. -/
theorem hideInDefinitions_iff {ds ds' : List CompletedDefinition} :
    Returns (hideInDefinitions definition ds) r ds' r' ↔
      ds'.map (·.predicate) = ds.map (·.predicate) ∧
        Returns (hideInAll definition (ds.map (·.formula))) r (ds'.map (·.formula)) r' := by
  induction ds generalizing r r' ds' with
  | nil =>
    simp only [hideInDefinitions, hideInAll, map_nil, pure_iff, map_eq_nil_iff]
    constructor
    · intro h
      exact ⟨h.1.symm, by rw [← h.1]; rfl, h.2⟩
    · intro h
      exact ⟨h.1.symm, h.2.2⟩
  | cons d ds ih =>
    simp only [hideInDefinitions, hideInAll, map_cons, bind_iff, pure_iff, ih]
    constructor
    · intro h
      obtain ⟨g, r₁, hg, gs, r₂, ⟨hpredicates, hgs⟩, rfl, rfl⟩ := h
      exact ⟨congrArg (d.predicate :: ·) hpredicates, g, r₁, hg, _, _, hgs, rfl, rfl⟩
    · intro h
      obtain ⟨hpredicates, g, r₁, hg, gs, r₂, hgs, hds', rfl⟩ := h
      cases ds' with
      | nil => cases hds'
      | cons d' ds' =>
        rw [map_cons, List.cons.injEq] at hpredicates hds'
        obtain ⟨rfl, rfl⟩ := hds'
        refine ⟨_, r₁, hg, ds', r₂, ⟨hpredicates.2, hgs⟩, ?_, rfl⟩
        rw [← hpredicates.1]

/-- A step on the registry leaves the completion alone. -/
theorem register_iff {α : Type} {step : Registering α} {a : α} {s s' : State} :
    Returns (register step) s a s' ↔ ∃ r, Returns step s.registry a r ∧ s' = ⟨r, s.completion⟩ := by
  rw [@Returns.within_iff _ _ _ _ s s' _ _ step _ s.registry (⟨·, s.completion⟩) (fun a _ => a)]
  · simp [eq_comm]
  all_goals
    intro _ r hrun
    simp only [register, outcome_bind, outcome_get, hrun]
    rfl

/-- The definitions without that of one predicate. -/
def without (c : Completion) (p : Symbol) : List CompletedDefinition :=
  c.definitions.eraseP (·.predicate == p)

/-- Hiding puts the definition in place in all other formulas. -/
theorem hide_iff {s s' : State} : Returns (hide p fs) s gs s' ↔
    s.registry.hasPrivateCycle p = false ∧ ∃ d r₁ r₂, s.completion.definition? p = some d ∧
      Returns (hideInDefinitions d.formula (s.completion.without p)) s.registry
        s'.completion.definitions r₁ ∧
      Returns (hideInAll d.formula s.completion.constraints) r₁ s'.completion.constraints r₂ ∧
      Returns (hideInAll d.formula fs) r₂ gs s'.registry := by
  simp only [hide, bind_iff, Returns.get_iff]
  constructor
  · intro h
    obtain ⟨_, _, ⟨rfl, rfl⟩, h⟩ := h
    split at h
    · simp at h
    · next hcycle =>
      refine ⟨Bool.eq_false_of_not_eq_true hcycle, ?_⟩
      split at h
      · simp at h
      · next d hd =>
        simp only [bind_iff, Returns.modify_iff, register_iff] at h
        obtain ⟨_, _, rfl, ds, _, ⟨r₁, hds, rfl⟩, _, _, rfl, cs, _, ⟨r₂, hcs, rfl⟩, _, _, rfl, r₃, hgs,
          rfl⟩ := h
        exact ⟨d, r₁, r₂, hd, hds, hcs, hgs⟩
  · intro h
    obtain ⟨hcycle, d, r₁, r₂, hd, hds, hcs, hgs⟩ := h
    refine ⟨s, s, ⟨rfl, rfl⟩, ?_⟩
    rw [hcycle, hd]
    simp only [Bool.false_eq_true, if_false, bind_iff, Returns.modify_iff, register_iff]
    exact ⟨⟨⟩, _, rfl, _, _, ⟨r₁, hds, rfl⟩, ⟨⟩, _, rfl, _, _, ⟨r₂, hcs, rfl⟩, ⟨⟩, _, rfl, _, hgs, rfl⟩

end Completion

end LogicProgram
