import LogicProgram.Proofs.Formula.Atoms

/-!
# Polarities and truth

A formula in which a predicate occurs positively alone stays true when tuples are added
to the predicate, and one in which it occurs negatively alone stays true when tuples are
taken away. Negations and antecedents exchange the two.
-/

namespace LogicProgram

open List

universe u

namespace Formula

/-- All atoms of a predicate occur under one polarity. -/
def OccursOnly (p : Symbol) (s : Polarity) (f : Formula) : Prop := ∀ a ∈ f.atoms, a.1 = p → a.2 = s

instance (p : Symbol) (s : Polarity) (f : Formula) : Decidable (f.OccursOnly p s) :=
  inferInstanceAs (Decidable (∀ a ∈ f.atoms, a.1 = p → a.2 = s))

/-- Under the opposite polarity atoms have opposite polarities. -/
theorem atomsUnder_flip (s : Polarity) (f : Formula) :
    f.atomsUnder s.flip = (f.atomsUnder s).map (Prod.map id Polarity.flip) := by
  induction f generalizing s with
  | boolean b => rfl
  | compare op left right => rfl
  | atom name args => rfl
  | not arg ih => exact ih s.flip
  | implies a c iha ihc =>
    simp only [atomsUnder, map_append]
    rw [iha s.flip, ihc s]
  | join connective args ih =>
    have hunder : connective.under s.flip = (connective.under s).flip := by cases connective <;> rfl
    rw [atomsUnder_join, atomsUnder_join, hunder, map_flatMap]
    exact flatMap_congr fun f hf => ih f hf _
  | quantified q params body ih => exact ih s

/-- Below an equivalence every atom has both polarities. -/
theorem snd_eq_both_of_mem {f : Formula} : ∀ a ∈ f.atomsUnder .both, a.2 = .both := by
  induction f with
  | boolean b | compare op left right => exact nofun
  | atom name args => exact fun _ ha => by rw [mem_singleton.mp ha]
  | not arg ih => exact ih
  | implies a c iha ihc => exact forall_mem_append.mpr ⟨iha, ihc⟩
  | join connective args ih =>
    have hunder : connective.under .both = .both := by cases connective <;> rfl
    intro a ha
    rw [atomsUnder_join, hunder, mem_flatMap] at ha
    obtain ⟨f, hf, ha⟩ := ha
    exact ih f hf a ha
  | quantified q params body ih => exact ih

variable {p : Symbol} {s : Polarity}

theorem occursOnly_flip {f : Formula} :
    (∀ a ∈ f.atomsUnder Polarity.onlyPositive.flip, a.1 = p → a.2 = s) ↔ f.OccursOnly p s.flip := by
  rw [atomsUnder_flip, forall_mem_map]
  refine forall₂_congr fun a _ => imp_congr_right fun _ => ?_
  constructor
  · intro h
    exact congrArg Polarity.flip h
  · intro h
    exact congrArg Polarity.flip h

theorem occursOnly_not {f : Formula} : (Formula.not f).OccursOnly p s ↔ f.OccursOnly p s.flip :=
  occursOnly_flip

theorem occursOnly_implies {a c : Formula} :
    (implies a c).OccursOnly p s ↔ a.OccursOnly p s.flip ∧ c.OccursOnly p s := by
  rw [← occursOnly_flip]
  exact forall_mem_append

theorem occursOnly_ofAll {fs : List Formula} :
    (∀ a ∈ atomsOfAllUnder .onlyPositive fs, a.1 = p → a.2 = s) ↔ ∀ f ∈ fs, f.OccursOnly p s := by
  simp only [atomsOfAllUnder_eq_flatMap, mem_flatMap, forall_exists_index, and_imp]
  exact ⟨fun h f hf a ha => h a f hf ha, fun h a f hf ha => h f hf a ha⟩

/-- In an equivalence nothing occurs under one polarity alone. -/
theorem OccursOnly.not_mentions {fs : List Formula} (h : (Formula.iff fs).OccursOnly p s)
    (hs : s ≠ .both) : ¬ (Formula.iff fs).mentions p := by
  rw [mentions_iff .onlyPositive, mem_map]
  rintro ⟨a, ha, hp⟩
  exact hs ((h a ha hp).symm.trans (snd_eq_both_of_mem (f := .and fs) a ha))

end Formula

namespace Interpretation

variable {I : Interpretation.{u}}

/-- The second extents agree with the first but for one predicate, of which they have all
tuples of the first and maybe more. -/
structure Enlarges (p : Symbol) (P Q : Text → List I.Object → Prop) : Prop where
  /-- The other predicates are the same. -/
  others : AgreeOutside [p] P Q
  /-- Tuples are only added. -/
  grows : ∀ ds, ds.length = p.arity → P p.name ds → Q p.name ds

/-- A formula that is true with the extents `P` is true with the extents `Q`. -/
def CarriesOver (R : Registry) (P Q : Text → List I.Object → Prop) (f : Formula) : Prop :=
  ∀ σ : Valuation I, f.Holds R (I.withPredicate P) σ → f.Holds R (I.withPredicate Q) σ

namespace CarriesOver

variable {R : Registry} {P Q : Text → List I.Object → Prop} {f g : Formula} {fs : List Formula}
  {p : Symbol}

theorem of_not_mentions (h : AgreeOutside [p] P Q) (hf : ¬ f.mentions p) : CarriesOver R P Q f :=
  fun σ => (holds_withPredicate h (by simpa using hf) σ).mp

/-- A negation carries over against the direction of its argument. -/
theorem not (hf : CarriesOver R Q P f) : CarriesOver R P Q (.not f) :=
  fun σ h hholds => h (hf σ hholds)

theorem implies (hf : CarriesOver R Q P f) (hg : CarriesOver R P Q g) :
    CarriesOver R P Q (.implies f g) :=
  fun σ h hholds => hg σ (h (hf σ hholds))

theorem and (hfs : ∀ f ∈ fs, CarriesOver R P Q f) : CarriesOver R P Q (.and fs) := by
  intro σ h
  rw [Formula.holds_and] at h ⊢
  exact fun f hf => hfs f hf σ (h f hf)

theorem or (hfs : ∀ f ∈ fs, CarriesOver R P Q f) : CarriesOver R P Q (.or fs) := by
  intro σ h
  rw [Formula.holds_or] at h ⊢
  obtain ⟨f, hf, h⟩ := h
  exact ⟨f, hf, hfs f hf σ h⟩

theorem quantified {q : Quantifier} {params : List Variable} (hf : CarriesOver R P Q f) :
    CarriesOver R P Q (.quantified q params f) := by
  intro σ h
  rw [Formula.holds_quantified] at h ⊢
  induction params generalizing σ with
  | nil => exact hf σ h
  | cons v params ih =>
    cases q with
    | existential =>
      obtain ⟨a, ha, h⟩ := h
      exact ⟨a, ha, ih _ h⟩
    | universal => exact fun a ha => ih _ (h a ha)

end CarriesOver

variable {p : Symbol} {P Q : Text → List I.Object → Prop}

/-- An atom is true with more tuples if it is true with fewer. -/
theorem Enlarges.atom (h : Enlarges p P Q) (R : Registry) (name : Text) (args : List Term) :
    CarriesOver R P Q (.atom name args) := by
  intro σ hholds
  rw [Formula.holds_atom] at hholds ⊢
  simp only [value_withPredicate] at hholds ⊢
  by_cases hp : (⟨name, args.length⟩ : Symbol) = p
  · subst hp
    exact h.grows _ (length_map _) hholds
  · refine (h.others name _ ?_).mp hholds
    rwa [length_map, mem_singleton]

/-- An atom of a predicate that only occurs negatively is one of another. -/
theorem Enlarges.atom_of_negative (h : Enlarges p P Q) (R : Registry) {name : Text}
    {args : List Term} (hoccurs : (Formula.atom name args).OccursOnly p .onlyNegative) :
    CarriesOver R Q P (.atom name args) := by
  refine .of_not_mentions h.others.symm fun hmentions => ?_
  have hsign : Polarity.onlyPositive = .onlyNegative :=
    hoccurs _ mem_cons_self (Formula.mentions_atom.mp hmentions)
  exact absurd hsign (by decide)

/-- Let one of two interpretations have all tuples that the other has of a predicate, and agree
with it in everything else. A formula that has only positive atoms of the predicate is true in
the larger one wherever it is true in the smaller one, and a formula that has only negative
atoms of it is true in the smaller one wherever it is true in the larger one. -/
theorem holds_of_enlarges (h : Enlarges p P Q) (R : Registry) (f : Formula) :
    (f.OccursOnly p .onlyPositive → ∀ σ : Valuation I,
        f.Holds R (I.withPredicate P) σ → f.Holds R (I.withPredicate Q) σ) ∧
      (f.OccursOnly p .onlyNegative → ∀ σ : Valuation I,
        f.Holds R (I.withPredicate Q) σ → f.Holds R (I.withPredicate P) σ) := by
  have hswap := h.others.symm
  show (f.OccursOnly p .onlyPositive → CarriesOver R P Q f) ∧
    (f.OccursOnly p .onlyNegative → CarriesOver R Q P f)
  induction f with
  | boolean b =>
    exact ⟨fun _ => .of_not_mentions h.others (by simp), fun _ => .of_not_mentions hswap (by simp)⟩
  | compare op left right =>
    exact ⟨fun _ => .of_not_mentions h.others (by simp), fun _ => .of_not_mentions hswap (by simp)⟩
  | atom name args => exact ⟨fun _ => h.atom R name args, h.atom_of_negative R⟩
  | not f ih =>
    exact ⟨fun hf => .not (ih.2 (Formula.occursOnly_not.mp hf)),
      fun hf => .not (ih.1 (Formula.occursOnly_not.mp hf))⟩
  | implies a c iha ihc =>
    constructor
    · intro hf
      obtain ⟨ha, hc⟩ := Formula.occursOnly_implies.mp hf
      exact .implies (iha.2 ha) (ihc.1 hc)
    · intro hf
      obtain ⟨ha, hc⟩ := Formula.occursOnly_implies.mp hf
      exact .implies (iha.1 ha) (ihc.2 hc)
  | join connective fs ih =>
    cases connective with
    | and =>
      exact ⟨fun hf => .and fun f hmem => (ih f hmem).1 (Formula.occursOnly_ofAll.mp hf f hmem),
        fun hf => .and fun f hmem => (ih f hmem).2 (Formula.occursOnly_ofAll.mp hf f hmem)⟩
    | or =>
      exact ⟨fun hf => .or fun f hmem => (ih f hmem).1 (Formula.occursOnly_ofAll.mp hf f hmem),
        fun hf => .or fun f hmem => (ih f hmem).2 (Formula.occursOnly_ofAll.mp hf f hmem)⟩
    | iff =>
      exact ⟨fun hf => .of_not_mentions h.others (hf.not_mentions (by decide)),
        fun hf => .of_not_mentions hswap (hf.not_mentions (by decide))⟩
  | quantified q params f ih =>
    exact ⟨fun hf => .quantified (ih.1 hf), fun hf => .quantified (ih.2 hf)⟩

/-- Whatever is not in `p` is in `q` if and only if it is in `r`. -/
def guarded : Formula :=
  .universal [0] (.implies (.not (.atom "p" [.variable 0]))
    (.iff [.atom "q" [.variable 0], .atom "r" [.variable 0]]))

/-- The only tuple of any predicate is that `p` has the number one. -/
def oneInP (name : Text) (ds : List Int) : Prop := name = "p" ∧ ds = [1]

/-- Below the negation in the antecedent `p` is positive again, so `guarded` stays true when
`p` gets a tuple, and its negation does not become true. -/
theorem holds_of_enlarges_guarded :
    guarded.OccursOnly ⟨"p", 1⟩ .onlyPositive ∧
      (Formula.not guarded).OccursOnly ⟨"p", 1⟩ .onlyNegative ∧
      guarded.Holds .empty (.integers oneInP) (fun _ => (0 : Int)) ∧
      ((Formula.not guarded).Holds .empty (.integers oneInP) (fun _ => (0 : Int)) →
        (Formula.not guarded).Holds .empty (.integers fun _ _ => False) (fun _ => (0 : Int))) := by
  have hp : guarded.OccursOnly ⟨"p", 1⟩ .onlyPositive := by decide
  have hn : (Formula.not guarded).OccursOnly ⟨"p", 1⟩ .onlyNegative := by decide
  have henlarges : Enlarges (I := .integers fun _ _ => False) ⟨"p", 1⟩
      (fun _ _ => False) oneInP := by
    refine ⟨fun name ds hother => ⟨False.elim, ?_⟩, fun _ _ => False.elim⟩
    rintro ⟨rfl, rfl⟩
    exact hother mem_cons_self
  have hnone : guarded.Holds .empty (.integers fun _ _ => False) (fun _ => (0 : Int)) := by
    intro a _ _
    exact Formula.holds_iff.mpr Iff.rfl
  exact ⟨hp, hn, (holds_of_enlarges henlarges .empty guarded).1 hp _ hnone,
    (holds_of_enlarges henlarges .empty (.not guarded)).2 hn _⟩

end Interpretation

end LogicProgram
