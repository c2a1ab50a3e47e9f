import LogicProgram.Proofs.Completion.Clark
import LogicProgram.Proofs.Completion.Dependency
import LogicProgram.Proofs.Completion.Expansion

/-!
# Hiding one predicate

What hiding a predicate does to the other definitions, to the constraints and to further
formulas: each is expanded by the definition of the predicate, and definitions stay
definitions.
-/

namespace LogicProgram.Completion

open Returns (pure_iff bind_iff)

universe u

variable {p : Symbol} {params : List Variable} {body definition f g : Formula} {fs gs : List Formula}
  {r r' : Registry}

theorem variableArguments_map (vs : List Variable) : variableArguments (vs.map .variable) = .ok vs := by
  induction vs with
  | nil => rfl
  | cons v vs ih => rw [List.map_cons, variableArguments, ih, Except.map]

/-- Hiding fails if an atom would come back, and otherwise copies the body. -/
theorem hidePredicate_eq (hdefinition : IsDefinition p params body definition)
    (harity : params.length = p.arity) (f : Formula) : hidePredicate definition f =
      if body.mentions p && f.mentions p then throw (Fault.cannotHide p : Error)
      else f.replaceAtoms p (bodyCopy params body) := by
  have hp : (⟨p.name, (params.map Term.variable).length⟩ : Symbol) = p := by
    rw [List.length_map, harity]
  rw [hidePredicate, hdefinition.split_eq]
  simp only [hp, variableArguments_map]
  split <;> rfl

/-- Hiding by a definition replaces atoms by its body. -/
theorem hidePredicate_returns (hdefinition : IsDefinition p params body definition)
    (harity : params.length = p.arity) (h : Returns (hidePredicate definition f) r g r') :
    Returns (f.replaceAtoms p (bodyCopy params body)) r g r' := by
  rw [hidePredicate_eq hdefinition harity] at h
  split at h
  · exact (Returns.throw_iff.mp h).elim
  · exact h

theorem hidePredicate_replaces (hdefinition : IsDefinition p params body definition)
    (harity : params.length = p.arity) (h : Returns (hidePredicate definition f) r g r') :
    Formula.ReplacedAtoms p (bodyCopy params body) r [f] [g] r' :=
  Formula.replacedAtoms_of_returns (hidePredicate_returns hdefinition harity h)

theorem hideInAll_replaces (hdefinition : IsDefinition p params body definition)
    (harity : params.length = p.arity) (h : Returns (hideInAll definition fs) r gs r') :
    Formula.ReplacedAtoms p (bodyCopy params body) r fs gs r' := by
  induction fs generalizing r gs with
  | nil =>
    obtain ⟨rfl, rfl⟩ := pure_iff.mp h
    exact .nil r
  | cons f fs ih =>
    simp only [hideInAll, bind_iff, pure_iff] at h
    obtain ⟨g, r₁, hg, gs, _, hgs, rfl, rfl⟩ := h
    exact .cons (hidePredicate_replaces hdefinition harity hg) (ih hgs)

/-- Replacement in several formulas expands each. -/
theorem hideInAll_expansion (hdefinition : IsDefinition p params body definition)
    (hbody : Inlinable r p params body) (hfs : ∀ f ∈ fs, Avoids r params f)
    (h : Returns (hideInAll definition fs) r gs r') : r.AddsVariables r' ∧
      List.Forall₂ (fun f g => Expansion.{u} p params body r f g r') fs gs := by
  induction fs generalizing r gs with
  | nil =>
    obtain ⟨rfl, rfl⟩ := pure_iff.mp h
    exact ⟨.refl r, .nil⟩
  | cons f fs ih =>
    simp only [hideInAll, bind_iff, pure_iff] at h
    obtain ⟨g, r₁, hg, gs, _, hgs, rfl, rfl⟩ := h
    have hf := replacedAtoms_expansion.{u} (hidePredicate_replaces hdefinition hbody.arity hg) hbody
      (hfs f List.mem_cons_self)
    have hr := hf.adds
    obtain ⟨hadds, hrest⟩ := ih (hbody.grows hr.toGrows)
      (fun f hf => (hfs f (List.mem_cons_of_mem _ hf)).grows hr.toGrows) hgs
    refine ⟨hr.trans hadds, .cons (hf.mono (.refl r) hadds) ?_⟩
    exact hrest.imp fun f g hfg => hfg.mono hr (.refl _)

section Definitions

variable {new : List Term → Registering Formula} {q : Symbol} {qs : List Variable}

theorem replaceAtoms_close {quantifier : Quantifier} {vs : List Variable}
    (h : Returns ((f.close quantifier vs).replaceAtoms p new) r g r') :
    ∃ g', g = g'.close quantifier vs ∧ Returns (f.replaceAtoms p new) r g' r' := by
  cases vs with
  | nil => exact ⟨g, rfl, h⟩
  | cons v vs =>
    obtain ⟨g', _, hg', hg⟩ := bind_iff.mp h
    obtain ⟨rfl, rfl⟩ := pure_iff.mp hg
    exact ⟨g', rfl, hg'⟩

theorem replaceAtoms_atomOf (hq : q ≠ p) (hqs : qs.length = q.arity) :
    (Formula.atomOf q qs).replaceAtoms p new = pure (Formula.atomOf q qs) := by
  have hne : (⟨q.name, (qs.map Term.variable).length⟩ : Symbol) ≠ p := by
    rw [List.length_map, hqs]
    exact hq
  exact if_neg hne

/-- Replacing atoms in a definition replaces them in its body. -/
theorem replaceAtoms_isDefinition (hf : IsDefinition q qs body f) (hq : q ≠ p)
    (hqs : qs.length = q.arity) (h : Returns (f.replaceAtoms p new) r g r') :
    ∃ body', IsDefinition q qs body' g ∧ Returns (body.replaceAtoms p new) r body' r' := by
  have hatom := @replaceAtoms_atomOf p new q qs hq hqs
  cases hf with
  | equivalence body =>
    obtain ⟨g, rfl, hg⟩ := replaceAtoms_close h
    simp only [Formula.replaceAtoms, Formula.replaceAtomsInAll, hatom, bind_iff,
      pure_iff] at hg
    obtain ⟨_, _, ⟨_, _, ⟨rfl, rfl⟩, _, _, ⟨body', _, hbody, _, _, ⟨rfl, rfl⟩, rfl, rfl⟩, rfl, rfl⟩,
      rfl, rfl⟩ := hg
    exact ⟨body', .equivalence body', hbody⟩
  | negation =>
    obtain ⟨g, rfl, hg⟩ := replaceAtoms_close h
    simp only [Formula.replaceAtoms, hatom, bind_iff, pure_iff] at hg
    obtain ⟨_, _, ⟨rfl, rfl⟩, rfl, rfl⟩ := hg
    exact ⟨.boolean false, .negation, pure_iff.mpr ⟨rfl, rfl⟩⟩

end Definitions

end LogicProgram.Completion
