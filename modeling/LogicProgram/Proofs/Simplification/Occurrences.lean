import LogicProgram.Proofs.Simplification

/-!
# What simplification keeps

Simplification takes away equations, variables of quantifiers and connectives, and
nothing else. The predicates of the atoms stay the same, one by one and in order.
-/

namespace LogicProgram

open List

namespace Polarity

/-- A polarity is the other one, or the other is both and it is one of the two. -/
def Within (s t : Polarity) : Prop := s = t ∨ t = .both ∧ (s = .onlyPositive ∨ s = .onlyNegative)

variable {s t : Polarity}

theorem Within.refl (s : Polarity) : s.Within s := .inl rfl

theorem Within.trans {u : Polarity} (hst : s.Within t) (htu : t.Within u) : s.Within u := by
  rcases htu with rfl | ⟨rfl, ht⟩
  · exact hst
  · rcases hst with rfl | ⟨rfl, hs⟩
    · exact .inr ⟨rfl, ht⟩
    · exact .inr ⟨rfl, hs⟩

theorem Within.flip (h : s.Within t) : s.flip.Within t.flip := by
  rcases h with rfl | ⟨rfl, rfl | rfl⟩
  · exact .refl _
  · exact .inr ⟨rfl, .inr rfl⟩
  · exact .inr ⟨rfl, .inl rfl⟩

/-- An occurrence is under some polarity. -/
theorem within_both (h : s ≠ .none) : s.Within .both := by
  obtain ⟨positive, negative⟩ := s
  cases positive <;> cases negative
  · exact absurd rfl h
  · exact .inr ⟨rfl, .inr rfl⟩
  · exact .inr ⟨rfl, .inl rfl⟩
  · exact .refl _

theorem flip_ne_none (h : s ≠ .none) : s.flip ≠ .none :=
  fun hflip => h (congrArg Polarity.flip hflip)

theorem Within.under (h : s.Within t) (connective : Connective) :
    (connective.under s).Within (connective.under t) := by
  cases connective with
  | iff => exact .refl _
  | _ => exact h

theorem under_ne_none (h : s ≠ .none) (connective : Connective) : connective.under s ≠ .none := by
  cases connective with
  | iff => exact show Polarity.both ≠ .none by decide
  | _ => exact h

end Polarity

namespace Formula

/-- The predicate of an atom is the same, and its polarity is within the other. -/
def Kept (a b : Symbol × Polarity) : Prop := a.1 = b.1 ∧ a.2.Within b.2

theorem forall₂_kept_trans {as bs cs : List (Symbol × Polarity)} (hab : Forall₂ Kept as bs)
    (hbc : Forall₂ Kept bs cs) : Forall₂ Kept as cs := by
  induction hab generalizing cs with
  | nil => exact hbc
  | cons head _ ih =>
    cases hbc with
    | cons head' tail' =>
      exact .cons ⟨head.1.trans head'.1, head.2.trans head'.2⟩ (ih tail')

/-- Under another polarity, atoms have polarities within the others. -/
theorem atomsUnder_within {s t : Polarity} (h : s.Within t) (f : Formula) :
    Forall₂ Kept (f.atomsUnder s) (f.atomsUnder t) := by
  induction f generalizing s t with
  | boolean b | compare op left right => exact .nil
  | atom name args => exact .cons ⟨rfl, h⟩ .nil
  | not arg ih => exact ih h.flip
  | implies a c iha ihc => exact rel_append (iha h.flip) (ihc h)
  | join connective args ih =>
    rw [atomsUnder_join, atomsUnder_join]
    have hunder := h.under connective
    induction args with
    | nil => exact .nil
    | cons f fs ihfs =>
      obtain ⟨hf, hfs⟩ := forall_mem_cons.mp ih
      exact rel_append (hf hunder) (ihfs hfs)
  | quantified q params body ih => exact ih h

/-- Under every polarity under which a formula can occur, another one has the same atoms in
its place, up to arguments and to polarities within the old ones. -/
def KeepsAtoms (g f : Formula) : Prop :=
  ∀ s : Polarity, s ≠ .none → Forall₂ Kept (g.atomsUnder s) (f.atomsUnder s)

/-- Eliminated variables take equations with them, which have no atoms. -/
theorem Eliminates.atoms {r : Registry} {params kept : List Variable} {fs remaining : List Formula}
    {changed : Bool} (h : Eliminates r params fs kept remaining changed) (s : Polarity) :
    remaining.flatMap (·.atomsUnder s) = fs.flatMap (·.atomsUnder s) := by
  induction h with
  | nil => rfl
  | gone hassignment _ ih =>
    obtain ⟨before, f, after, rfl, rfl, hf⟩ := takeAssignment_eq_some hassignment
    have hnone : f.atomsUnder s = [] := by
      rcases (assignedTerm_eq_some hf).1 with rfl | rfl <;> rfl
    rw [ih]
    simp only [replaceInAll_eq_map, flatMap_map, atomsUnder_replace, flatMap_append,
      flatMap_cons, hnone, nil_append]
  | stays _ _ ih => exact ih

/-- Every rule keeps atoms. -/
theorem keepsAtoms_rewriting {r : Registry} : Rewriting r fun _ => KeepsAtoms where
  refl f s _ := atomsUnder_within (.refl s) f
  trans hgf hhg s hs := forall₂_kept_trans (hhg s hs) (hgf s hs)
  not h s hs := h s.flip (Polarity.flip_ne_none hs)
  implies hf hg s hs := rel_append (hf s.flip (Polarity.flip_ne_none hs)) (hg s hs)
  join {c connective fs gs} h s hs := by
    rw [atomsUnder_join, atomsUnder_join]
    induction h with
    | nil => exact .nil
    | cons head _ ih => exact rel_append (head _ (Polarity.under_ne_none hs connective)) ih
  quantified h s hs := h s hs
  equated {c params kept fs remaining} h s _ := by
    have hatoms : (Formula.and remaining).atomsUnder s = (Formula.and fs).atomsUnder s := by
      rw [atomsUnder_join, atomsUnder_join, h.atoms]
    show Forall₂ Kept ((Formula.and remaining).atomsUnder s) ((Formula.and fs).atomsUnder s)
    rw [hatoms]
    exact atomsUnder_within (.refl s) _
  empty q f s _ := atomsUnder_within (.refl s) f
  noMember connective s _ := by cases connective <;> exact .nil
  oneMember connective f s hs := by
    -- A chain of a single formula is the one rule that changes polarities.
    have hunder : s.Within (connective.under s) := by
      cases connective with
      | iff => exact Polarity.within_both hs
      | _ => exact .refl s
    rw [atomsUnder_join, flatMap_singleton]
    exact atomsUnder_within hunder f

/-- Simplification keeps the predicates of a formula one by one and in order. Each occurs
under the polarity that it had, or under one of the two if it had both. If the quantifiers of
the formula bind distinct variables that are not free in it, then no variable becomes free
and the quantifiers of the result bind distinct variables that are not free in it. -/
theorem simplify_occurrences {r : Registry} {f g : Formula} (h : f.simplify r = .ok g) :
    g.atoms.map (·.1) = f.atoms.map (·.1) ∧
      Forall₂ Polarity.Within (g.atoms.map (·.2)) (f.atoms.map (·.2)) ∧
      (f.binders.Nodup → (∀ v ∈ f.binders, v ∉ f.freeVariables) →
        (∀ v ∈ g.freeVariables, v ∈ f.freeVariables) ∧ g.binders.Nodup ∧
          ∀ v ∈ g.binders, v ∉ g.freeVariables) := by
  obtain ⟨_, hkeeps⟩ := keepsAtoms_rewriting.simplifyWithin h
  have hatoms : Forall₂ Kept g.atoms f.atoms := hkeeps .onlyPositive (by decide)
  have hnarrows := (simplifyWithin_simplifies.{0} h).narrows
  refine ⟨?_, ?_, fun hdistinct hapart => ?_⟩
  · rw [← forall₂_eq_eq_eq, forall₂_map_left_iff, forall₂_map_right_iff]
    exact hatoms.imp fun _ _ hab => hab.1
  · rw [forall₂_map_left_iff, forall₂_map_right_iff]
    exact hatoms.imp fun _ _ hab => hab.2
  · have hscoped : WellScoped g := WellScoped.narrow ⟨hdistinct, hapart⟩ hnarrows
    exact ⟨hnarrows.free, hscoped.distinct, hscoped.apart⟩

/-- Some `X` with `X = M` is such that not `p(X)`, in a chain of equivalences of its own. -/
def loneEquivalence : Formula :=
  .existential [0] (.and [
    .equals (.variable 0) (.variable 2),
    .iff [.not (.atom "p" [.variable 0])]])

/-- The atom had both polarities in the chain and keeps the negative one. -/
theorem simplify_occurrences_loneEquivalence :
    loneEquivalence.simplify mixedVariables =
        .ok (.not (.atom "p" [.variable 2])) ∧
      loneEquivalence.atoms = [(⟨"p", 1⟩, .both)] ∧
      (Formula.not (.atom "p" [.variable 2])).atoms =
        [(⟨"p", 1⟩, .onlyNegative)] ∧
      Polarity.onlyNegative.Within .both ∧
      ∀ v ∈ (Formula.not (.atom "p" [.variable 2])).freeVariables,
        v ∈ loneEquivalence.freeVariables := by
  have h : loneEquivalence.simplify mixedVariables =
      .ok (.not (.atom "p" [.variable 2])) := by rfl
  obtain ⟨_, hpolarities, hvariables⟩ := simplify_occurrences h
  refine ⟨h, rfl, rfl, ?_, (hvariables (by decide) (by decide)).1⟩
  exact (forall₂_cons.mp hpolarities).1

end Formula

end LogicProgram
