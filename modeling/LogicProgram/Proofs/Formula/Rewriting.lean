import LogicProgram.Proofs.Formula.Atoms
import LogicProgram.Proofs.Registry

/-!
# Formulas rewritten from left to right

Copying a formula and replacing its atoms both go through the formula from left to
right, pass a state on from part to part, and keep its connectives. One relation
covers both: what they do differs at formulas without parts and at quantifiers.
-/

namespace LogicProgram

open List
open Returns (pure_iff bind_iff)

universe u

theorem forall₂_exists_left {α β : Type} {R : α → β → Prop} {as : List α} {bs : List β}
    (h : Forall₂ R as bs) {b : β} (hb : b ∈ bs) : ∃ a ∈ as, R a b := by
  induction h with
  | nil => cases hb
  | cons hab _ ih =>
    rcases mem_cons.mp hb with rfl | hb
    · exact ⟨_, mem_cons_self, hab⟩
    · obtain ⟨a, ha, hr⟩ := ih hb
      exact ⟨a, mem_cons_of_mem _ ha, hr⟩

namespace Formula

/-- A formula is made of others without binding a variable. -/
structure ComposedOf (f : Formula) (fs : List Formula) : Prop where
  binders : f.binders = (Formula.and fs).binders
  free : ∀ v, v ∈ f.freeVariables ↔ v ∈ (Formula.and fs).freeVariables
  mentions : ∀ p, f.mentions p ↔ (Formula.and fs).mentions p

theorem composedOf_self (f : Formula) : ComposedOf f [f] :=
  ⟨by simp, fun v => by simp, fun p => by simp⟩

/-- Two formulas are made of others with the same connective. -/
inductive Alike : Formula → List Formula → Formula → List Formula → Prop
  | not (f g : Formula) : Alike (.not f) [f] (.not g) [g]
  | implies (a c a' c' : Formula) : Alike (.implies a c) [a, c] (.implies a' c') [a', c']
  | join (connective : Connective) (fs gs : List Formula) :
    Alike (.join connective fs) fs (.join connective gs) gs

namespace Alike

variable {f g : Formula} {fs gs : List Formula}

theorem symm (h : Alike f fs g gs) : Alike g gs f fs := by
  cases h <;> constructor

theorem composedOf (h : Alike f fs g gs) : f.ComposedOf fs := by
  cases h with
  | not f g => exact ⟨(append_nil _).symm, fun v => by simp, fun p => by simp⟩
  | implies a c a' c' =>
    exact ⟨congrArg (a.binders ++ ·) (append_nil _).symm, fun v => by simp, fun p => by simp⟩
  | join connective fs gs => exact ⟨by simp, fun v => by simp, fun p => by simp⟩

theorem mentions_iff (h : Alike f fs g gs) (p : Symbol) : f.mentions p ↔ ∃ x ∈ fs, x.mentions p :=
  (h.composedOf.mentions p).trans mentions_join

theorem occurs_iff (h : Alike f fs g gs) (v : Variable) : f.Occurs v ↔ ∃ x ∈ fs, x.Occurs v := by
  rw [Occurs, h.composedOf.free, h.composedOf.binders]
  exact occurs_join

/-- The truth of a connective depends on that of its members. -/
theorem holds_iff {R R' : Registry} {I : Interpretation.{u}} {σ τ : Valuation I} (h : Alike f fs g gs)
    (hall : Forall₂ (fun f g => f.Holds R I σ ↔ g.Holds R' I τ) fs gs) :
    f.Holds R I σ ↔ g.Holds R' I τ := by
  cases h with
  | not f g => exact not_congr (forall₂_cons.mp hall).1
  | implies a c a' c' =>
    obtain ⟨ha, hrest⟩ := forall₂_cons.mp hall
    exact imp_congr ha (forall₂_cons.mp hrest).1
  | join connective fs gs => exact holds_join_congr hall

end Alike

/-- Formulas became others one after the other, by what happens to formulas without parts
and to the variables of quantifiers. -/
inductive Rewritten {S : Type} (leaf : S → Formula → Formula → S → Prop)
    (bind : S → List Variable → List Variable → S → Prop) :
    S → List Formula → List Formula → S → Prop
  | nil (s : S) : Rewritten leaf bind s [] [] s
  | cons {s s₁ s' : S} {f g : Formula} {fs gs : List Formula} :
    Rewritten leaf bind s [f] [g] s₁ → Rewritten leaf bind s₁ fs gs s' →
    Rewritten leaf bind s (f :: fs) (g :: gs) s'
  | leaf {s s' : S} {f g : Formula} : leaf s f g s' → Rewritten leaf bind s [f] [g] s'
  | composed {s s' : S} {f g : Formula} {fs gs : List Formula} : Alike f fs g gs →
    Rewritten leaf bind s fs gs s' → Rewritten leaf bind s [f] [g] s'
  | quantified {s s₁ s' : S} {f g : Formula} {vs ws : List Variable} (q : Quantifier) :
    bind s vs ws s₁ → Rewritten leaf bind s₁ [f] [g] s' →
    Rewritten leaf bind s [.quantified q vs f] [.quantified q ws g] s'

/-- What predicates become, if it is known of formulas without parts. -/
theorem Rewritten.mentions {S : Type} {leaf : S → Formula → Formula → S → Prop}
    {bind : S → List Variable → List Variable → S → Prop} {T : S → S → Prop}
    {M : (Symbol → Prop) → Symbol → Prop} {s s' : S} {fs gs : List Formula}
    (h : Rewritten leaf bind s fs gs s') (hrefl : ∀ s, T s s)
    (htrans : ∀ {s s₁ s'}, T s s₁ → T s₁ s' → T s s')
    (hM : ∀ {P Q : Symbol → Prop}, (∀ q, P q → Q q) → ∀ q, M P q → M Q q)
    (hleaf : ∀ {s f g s'}, leaf s f g s' → T s s' ∧ ∀ q, g.mentions q → M (f.mentions ·) q)
    (hbind : ∀ s vs ws s', bind s vs ws s' → T s s') :
    T s s' ∧ Forall₂ (fun f g => ∀ q, g.mentions q → M (f.mentions ·) q) fs gs := by
  induction h with
  | nil s => exact ⟨hrefl s, .nil⟩
  | cons _ _ ihf ihfs => exact ⟨htrans ihf.1 ihfs.1, .cons (forall₂_cons.mp ihf.2).1 ihfs.2⟩
  | leaf h => exact ⟨(hleaf h).1, .cons (hleaf h).2 .nil⟩
  | composed hfg _ ih =>
    refine ⟨ih.1, .cons (fun q hq => ?_) .nil⟩
    obtain ⟨y, hy, hq⟩ := (hfg.symm.mentions_iff q).mp hq
    obtain ⟨x, hx, hxy⟩ := forall₂_exists_left ih.2 hy
    exact hM (fun p hp => (hfg.mentions_iff p).mpr ⟨x, hx, hp⟩) q (hxy q hq)
  | quantified q hvs _ ih =>
    exact ⟨htrans (hbind _ _ _ _ hvs) ih.1, .cons (forall₂_cons.mp ih.2).1 .nil⟩

section Replacement

variable {p : Symbol} {new : List Term → Registering Formula} {f g : Formula} {r r' : Registry}

/-- What becomes of a formula without parts where atoms of a predicate are replaced. -/
inductive ReplacedAtom (p : Symbol) (new : List Term → Registering Formula) :
    Registry → Formula → Formula → Registry → Prop
  | same {f : Formula} (r : Registry) : ¬ f.mentions p → ReplacedAtom p new r f f r
  | new {r r' : Registry} {args : List Term} {g : Formula} : args.length = p.arity →
    Returns (new args) r g r' → ReplacedAtom p new r (.atom p.name args) g r'

/-- Formulas in which atoms of a predicate are replaced. -/
abbrev ReplacedAtoms (p : Symbol) (new : List Term → Registering Formula) :
    Registry → List Formula → List Formula → Registry → Prop :=
  Rewritten (ReplacedAtom p new) fun r vs ws r' => ws = vs ∧ r' = r

theorem replacedAtoms_of_returns (h : Returns (f.replaceAtoms p new) r g r') :
    ReplacedAtoms p new r [f] [g] r' := by
  induction f generalizing r g r' with
  | boolean b | compare op left right =>
    obtain ⟨rfl, rfl⟩ := pure_iff.mp h
    exact .leaf (.same r (by simp))
  | atom name args =>
    simp only [Formula.replaceAtoms] at h
    split at h
    · next hp =>
      subst hp
      exact .leaf (.new rfl h)
    · next hp =>
      obtain ⟨rfl, rfl⟩ := pure_iff.mp h
      exact .leaf (.same r (by simpa using hp))
  | not f ih =>
    simp only [Formula.replaceAtoms, bind_iff, pure_iff] at h
    obtain ⟨g, _, hg, rfl, rfl⟩ := h
    exact .composed (.not f g) (ih hg)
  | implies a c iha ihc =>
    simp only [Formula.replaceAtoms, bind_iff, pure_iff] at h
    obtain ⟨a', r₁, ha, c', _, hc, rfl, rfl⟩ := h
    exact .composed (.implies a c a' c') (.cons (iha ha) (ihc hc))
  | join connective fs ih =>
    simp only [Formula.replaceAtoms, bind_iff, pure_iff] at h
    obtain ⟨gs, _, hgs, rfl, rfl⟩ := h
    refine .composed (.join connective fs gs) ?_
    induction fs generalizing r gs with
    | nil =>
      obtain ⟨rfl, rfl⟩ := pure_iff.mp hgs
      exact .nil r
    | cons f fs ihs =>
      simp only [Formula.replaceAtomsInAll, bind_iff, pure_iff] at hgs
      obtain ⟨g, r₁, hg, gs, _, hgs, rfl, rfl⟩ := hgs
      exact .cons (ih f mem_cons_self hg)
        (ihs (fun f hf => ih f (mem_cons_of_mem _ hf)) gs hgs)
  | quantified q vs f ih =>
    simp only [Formula.replaceAtoms, bind_iff, pure_iff] at h
    obtain ⟨g, _, hg, rfl, rfl⟩ := h
    exact .quantified q ⟨rfl, rfl⟩ (ih hg)

end Replacement

end Formula

end LogicProgram
