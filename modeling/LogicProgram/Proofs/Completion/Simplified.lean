import LogicProgram.Completion.Simplified
import LogicProgram.Proofs.Completion.Separation
import LogicProgram.Proofs.Simplification

/-!
# Simplified completions

Simplification goes through the formulas of a completion. It leaves them closed and
sorted.
-/

namespace LogicProgram.Completion

open List
open Returns (pure_iff bind_iff get_iff set_iff)

variable {f g : Formula} {fs gs : List Formula} {r : Registry} {s s' : State}

/-- The formulas after simplification, if it succeeds. -/
theorem simplifyFormulas_forall₂ {failure : Option Error}
    (h : simplifyFormulas r fs = (gs, failure)) (hfailure : failure = none) :
    Forall₂ (fun f g => f.simplify r = .ok g) fs gs := by
  induction fs generalizing gs failure with
  | nil =>
    obtain ⟨rfl, -⟩ := Prod.mk.inj h
    exact .nil
  | cons f fs ih =>
    rw [simplifyFormulas] at h
    split at h
    · obtain ⟨-, rfl⟩ := Prod.mk.inj h
      cases hfailure
    · next g hg =>
      obtain ⟨rfl, rfl⟩ := Prod.mk.inj h
      exact .cons hg (ih rfl hfailure)

/-- Simplifying definitions simplifies their formulas. -/
theorem simplifyDefinitions_eq (ds : List CompletedDefinition) (r : Registry) :
    ((simplifyDefinitions r ds).1.map (·.formula), (simplifyDefinitions r ds).2) =
      simplifyFormulas r (ds.map (·.formula)) := by
  induction ds with
  | nil => rfl
  | cons d ds ih =>
    rw [simplifyDefinitions, map_cons, simplifyFormulas]
    cases hd : d.formula.simplify r with
    | error e => rfl
    | ok g =>
      rw [← ih]
      rfl

/-- Simplification goes through the formulas and leaves declarations alone. -/
theorem simplify_contents {u : Unit} (h : Returns simplify s u s') : s'.registry = s.registry ∧
    Forall₂ (fun f g => f.simplify s.registry = .ok g) s.completion.contents
      s'.completion.contents := by
  obtain ⟨_, _, hget, h⟩ := bind_iff.mp h
  obtain ⟨rfl, rfl⟩ := get_iff.mp hget
  have hds := simplifyDefinitions_eq s.completion.definitions s.registry
  rcases hdefinitions : simplifyDefinitions s.registry s.completion.definitions with ⟨ds, failure⟩
  rcases hconstraints : simplifyFormulas s.registry s.completion.constraints with ⟨cs, failure'⟩
  rw [hdefinitions] at h hds
  obtain ⟨_, _, hset, h⟩ := bind_iff.mp h
  obtain rfl := set_iff.mp hset
  cases failure with
  | some e => simp at h
  | none =>
    rw [hconstraints] at h
    simp only [bind_iff, set_iff] at h
    obtain ⟨_, _, rfl, h⟩ := h
    cases failure' with
    | some e => simp at h
    | none =>
      obtain ⟨-, rfl⟩ := pure_iff.mp h
      exact ⟨rfl, rel_append (simplifyFormulas_forall₂ hds.symm rfl)
        (simplifyFormulas_forall₂ hconstraints rfl)⟩

/-- A simplified completion is closed, sorted and binds no variable twice. -/
theorem Separated.simplify {u : Unit} (hs : Separated s) (h : Returns simplify s u s') :
    ∀ g ∈ s'.completion.contents,
      (∀ v, v ∉ g.freeVariables) ∧ g.binders.Nodup ∧ g.Sorted s'.registry := by
  obtain ⟨hregistry, hcontents⟩ := simplify_contents h
  intro g hg
  obtain ⟨f, hf, hfg⟩ := forall₂_exists_left hcontents hg
  have hclosed := hs.closed hf
  have hsimplifies := Formula.simplifyWithin_simplifies.{0} hfg
  rw [hregistry]
  exact ⟨fun v hv => hclosed.free v (hsimplifies.narrows.free v hv),
    hclosed.nodup.sublist hsimplifies.narrows.binders, hsimplifies.sorted (hclosed.sorted _ (.refl _))⟩

end LogicProgram.Completion
