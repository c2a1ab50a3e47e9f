import LogicProgram.Proofs.Completion.Separation

/-!
# Definitions in the place of atoms

Hiding one predicate in one formula, for any definition that has no variable in common
with the formula.
-/

namespace LogicProgram

open List

universe u

namespace Completion

variable {r : Registry} {p : Symbol} {f : Formula} {params : List Variable} {body definition : Formula}

/-- The body of a well-scoped definition is well-scoped. -/
theorem IsDefinition.wellScoped_body (h : IsDefinition p params body definition)
    (hscoped : definition.WellScoped) : body.WellScoped := by
  have hnodup := hscoped.distinct
  rw [h.binders_eq] at hnodup
  obtain ⟨-, hbody, hapart⟩ := nodup_append.mp hnodup
  refine ⟨hbody, fun v hv hfree => ?_⟩
  have hbound : v ∈ definition.binders := h.binders_eq ▸ mem_append_right _ hv
  exact hscoped.apart v hbound (h.mem_freeVariables hfree fun hparam => hapart v hparam v hv rfl)

/-- What occurs in the body of a definition occurs in the definition. -/
theorem IsDefinition.occurs_of_body (h : IsDefinition p params body definition) {v : Variable}
    (hv : body.Occurs v) : definition.Occurs v := by
  by_cases hparam : v ∈ params
  · exact .inr (h.binders_eq ▸ mem_append_left _ hparam)
  · rcases hv with hfree | hbound
    · exact .inl (h.mem_freeVariables hfree hparam)
    · exact .inr (h.binders_eq ▸ mem_append_right _ hbound)

/-- Hiding a predicate by its definition fails exactly if both the body and the formula
have an atom of it. Otherwise no atom of the predicate is left, and wherever the
definition holds the formula says what it said. A closed definition that binds each
variable once is well scoped; an open one must not bind what is also free in it, since
copies would rename the free occurrences too. -/
theorem hidePredicate_inlines (hdefinition : IsDefinition p params body definition)
    (harity : params.length = p.arity)
    (hdomain : ∀ v ∈ params, r.variableDomain v = some .program)
    (hscoped : definition.WellScoped)
    (hdeclared : ∀ v : Nat, definition.Occurs v ∨ f.Occurs v → v < r.variableTable.size)
    (hapart : ∀ v, definition.Occurs v → ¬ f.Occurs v) :
    (body.mentions p ∧ f.mentions p → Fails (hidePredicate definition f) r (Fault.cannotHide p) r) ∧
    (¬ (body.mentions p ∧ f.mentions p) →
      ∃ g r', Returns (hidePredicate definition f) r g r' ∧ ¬ g.mentions p ∧
        ∀ R, r'.Grows R → ∀ (I : Interpretation.{u}) (σ : Valuation I), definition.Holds R I σ →
          (f.Holds R I σ ↔ g.Holds R I σ)) := by
  rw [hidePredicate_eq hdefinition harity, ← Bool.and_eq_true]
  refine ⟨fun hboth => ?_, fun hnot => ?_⟩
  · rw [if_pos hboth]
    rfl
  · rw [if_neg hnot]
    obtain ⟨g, r', hg⟩ := replaceAtoms_succeeds (p := p) (bodyCopy_succeeds params body) f r
    have hreplaced := Formula.replacedAtoms_of_returns hg
    refine ⟨g, r', hg, fun hp => hnot ?_, fun R hR I σ hσ => ?_⟩
    · have hmentions := (replacedAtoms_mentions (bodyCopy_mentions harity) hreplaced).2
      rcases (forall₂_cons.mp hmentions).1 p hp with ⟨-, hne⟩ | ⟨hf, hbody⟩
      · exact absurd rfl hne
      · exact Bool.and_eq_true_iff.mpr ⟨hbody, hf⟩
    · have hparam : ∀ v ∈ params, definition.Occurs v := fun v hv =>
        .inr (hdefinition.binders_eq ▸ mem_append_left _ hv)
      have hnodup := (nodup_append.mp (hdefinition.binders_eq ▸ hscoped.distinct)).1
      have hnew : Replaces (fun v : Nat => v < r.variableTable.size ∧ ¬ definition.Occurs v)
          (fun σ : Valuation I => definition.Holds R I σ) R r p (bodyCopy params body) := by
        refine bodyCopy_replaces harity hnodup (hdefinition.wellScoped_body hscoped)
          (fun v hv => hdeclared v (.inl (hdefinition.occurs_of_body hv)))
          (fun v hv => ⟨hv.1, fun hmem => hv.2 (hparam v hmem)⟩) fun hR σ hσ ds hds => ?_
        refine (hdefinition.holds_iff hnodup fun v hv => ?_).mp hσ ds (hds.trans harity.symm)
        rw [hR.domain (hdeclared v (.inl (hparam v hv)))]
        exact hdomain v hv
      have hall := (replacedAtoms_equivalent hreplaced (fun v hv σ a hσ => ?_) hnew
        (forall_mem_singleton.mpr fun v hv => ?_) (.refl r)).2 hR
      · exact (forall₂_cons.mp hall).1 σ hσ
      · exact (Formula.holds_update (fun hfree => hv.2 (.inl hfree)) a).mpr hσ
      · exact ⟨hdeclared v (.inr hv), fun hoccurs => hapart v hoccurs hv⟩

/-- The body of a definition of linked nodes: `exists Y (edge(X, Y) and shown(Z))`. -/
def linkedBody : Formula :=
  .quantified .existential [1]
    (.and [.atom "edge" [.variable 0, .variable 1], .atom "shown" [.variable 2]])

/-- The definition `forall X (linked(X) <-> exists Y (edge(X, Y) and shown(Z)))`. -/
def linkedDefinition : Formula :=
  .quantified .universal [0] (.iff [.atomOf ⟨"linked", 1⟩ [0], linkedBody])

/-- The formula `forall U (linked(U + 1) -> exists W linked(W))`. -/
def linkedOnward : Formula :=
  .quantified .universal [3] (.implies
    (.atom "linked" [.binary .add (.variable 3) (.integer 1)])
    (.quantified .existential [4] (.atom "linked" [.variable 4])))

theorem hidePredicate_inlines_linked :
    ∃ g r', Returns (hidePredicate linkedDefinition linkedOnward)
        (Registry.empty.addGenerated (some .program) 5) g r' ∧ ¬ g.mentions ⟨"linked", 1⟩ ∧
      ∀ R, r'.Grows R → ∀ (I : Interpretation.{0}) (σ : Valuation I),
        linkedDefinition.Holds R I σ → (linkedOnward.Holds R I σ ↔ g.Holds R I σ) := by
  have hdefinition : IsDefinition ⟨"linked", 1⟩ [0] linkedBody linkedDefinition :=
    .equivalence linkedBody
  have hvars : ∀ v : Nat, v ∈ linkedDefinition.freeVariables ++ linkedDefinition.binders →
      v < 3 := by decide
  have hvars' : ∀ v : Nat, v ∈ linkedOnward.freeVariables ++ linkedOnward.binders →
      3 ≤ v ∧ v < 5 := by decide
  refine (hidePredicate_inlines hdefinition rfl (by decide) ⟨by decide, by decide⟩ ?_ ?_).2
    (by decide)
  · rintro v (hv | hv)
    · exact Nat.lt_of_lt_of_le (hvars v (mem_append.mpr hv)) (by decide)
    · exact (hvars' v (mem_append.mpr hv)).2
  · intro v hv hv'
    have hlt := hvars v (mem_append.mpr hv)
    have hle := (hvars' v (mem_append.mpr hv')).1
    exact absurd hlt (Nat.not_lt.mpr hle)

/-- The body `exists Y q(Y) and s(Y)`, in which a variable is bound and also free. -/
def reusedBody : Formula :=
  .and [.quantified .existential [1] (.atom "q" [.variable 1]), .atom "s" [.variable 1]]

/-- The definition `forall X (p(X) <-> exists Y q(Y) and s(Y))`. -/
def reusedDefinition : Formula :=
  .quantified .universal [0] (.iff [.atomOf ⟨"p", 1⟩ [0], reusedBody])

/-- A definition that binds each variable once does not keep its meaning if one of them is also
free in it: the copy of its body has a new variable in both places. -/
theorem hidePredicate_reused :
    IsDefinition ⟨"p", 1⟩ [0] reusedBody reusedDefinition ∧ reusedDefinition.binders.Nodup ∧
    ¬ reusedDefinition.Occurs 2 ∧ ∃ g r', Returns (hidePredicate reusedDefinition (.atom "p" [.variable 2]))
        (Registry.empty.addGenerated (some .program) 3) g r' ∧ g.freeVariables = [3] ∧
      ∃ (I : Interpretation.{0}) (σ : Valuation I), reusedDefinition.Holds r' I σ ∧
        ¬ ((Formula.atom "p" [.variable 2]).Holds r' I σ ↔ g.Holds r' I σ) := by
  refine ⟨.equivalence reusedBody, by decide, by rintro (h | h) <;> revert h <;> decide, .and [.quantified .existential [3]
    (.atom "q" [.variable 3]), .atom "s" [.variable 3]], _, rfl, by decide, ?_⟩
  -- Of `p` and `q` everything is true, and of `s` the value of `Y` but not that of the new variable.
  let I := Interpretation.integers fun name args => name = "s" → args = [0]
  let σ : Variable → Int := fun v => if v = 1 then 0 else 1
  have hp : ∀ args : List Int, I.predicate "p" args := fun _ h => absurd h (by decide)
  have hq : ∀ args : List Int, I.predicate "q" args := fun _ h => absurd h (by decide)
  refine ⟨I, σ, fun a _ => Formula.holds_iff.mpr (iff_of_true (Formula.holds_atomOf.mpr (hp _)) ?_),
    fun h => ?_⟩
  · refine Formula.holds_and.mpr (forall_mem_cons.mpr ⟨⟨(0 : Int), fun _ => ⟨0, rfl⟩, ?_⟩,
      forall_mem_singleton.mpr ?_⟩)
    · exact Formula.holds_atom.mpr (hq _)
    · exact Formula.holds_atom.mpr fun _ => rfl
  · have hall := Formula.holds_and.mp (h.mp (Formula.holds_atom.mpr (hp _)))
    have hs := Formula.holds_atom.mp (hall (.atom "s" [.variable 3]) (by simp))
    have hone : [(1 : Int)] = [0] := hs rfl
    exact absurd hone (by decide)

end Completion

end LogicProgram
