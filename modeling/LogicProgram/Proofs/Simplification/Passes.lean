import LogicProgram.Proofs.Computation
import LogicProgram.Proofs.Semantics
import LogicProgram.Simplification

/-!
# Passes of simplification

Each round of simplification is a pass over the whole formula that applies one rule
wherever it can and reports whether it has. A relation between formulas and what
becomes of them that each rule gives where it applies, and that goes from the parts of
a formula to the formula and from one round to the next, is given by every pass and by
any number of rounds. The relation may depend on the report.
-/

namespace LogicProgram.Formula

variable {changed : Bool} {f g : Formula}

section Inversion

variable {r : Registry} {f g : Formula} {fs gs : List Formula} {params : List Variable}
  {changed : Bool}

theorem eliminateEquated_not : eliminateEquated r (.not f) = .ok (g, changed) ↔
    ∃ f', eliminateEquated r f = .ok (f', changed) ∧ .not f' = g := by
  simp [eliminateEquated, except_bind_eq_ok, pure, Except.pure]

theorem eliminateEquated_implies {a c : Formula} :
    eliminateEquated r (.implies a c) = .ok (g, changed) ↔
      ∃ a' first c' second, eliminateEquated r a = .ok (a', first) ∧
        eliminateEquated r c = .ok (c', second) ∧ .implies a' c' = g ∧
          (first || second) = changed := by
  simp [eliminateEquated, except_bind_eq_ok, pure, Except.pure]

theorem eliminateEquated_join {connective : Connective} :
    eliminateEquated r (.join connective fs) = .ok (g, changed) ↔
      ∃ fs', eliminateEquatedInAll r fs = .ok (fs', changed) ∧ .join connective fs' = g := by
  simp [eliminateEquated, except_bind_eq_ok, pure, Except.pure]

theorem eliminateEquated_universal : eliminateEquated r (.universal params f) = .ok (g, changed) ↔
      ∃ f', eliminateEquated r f = .ok (f', changed) ∧ .universal params f' = g := by
  simp [eliminateEquated, except_bind_eq_ok, pure, Except.pure]

theorem eliminateEquated_existential :
    eliminateEquated r (.existential params f) = .ok (g, changed) ↔
      ∃ f' before, eliminateEquated r f = .ok (f', before) ∧
        eliminateAt r params f' before = .ok (g, changed) := by
  simp [eliminateEquated, except_bind_eq_ok]

theorem eliminateEquatedInAll_cons : eliminateEquatedInAll r (f :: fs) = .ok (gs, changed) ↔
      ∃ f' first fs' others, eliminateEquated r f = .ok (f', first) ∧
        eliminateEquatedInAll r fs = .ok (fs', others) ∧ f' :: fs' = gs ∧
          (first || others) = changed := by
  simp [eliminateEquatedInAll, except_bind_eq_ok, pure, Except.pure]

end Inversion

/-- What happens at an existential quantifier over a conjunction, variable by variable: the
variables and conjuncts before, those after, and whether any variable has gone. -/
inductive Eliminates (r : Registry) :
    List Variable → List Formula → List Variable → List Formula → Bool → Prop
  | nil {fs : List Formula} : Eliminates r [] fs [] fs false
  /-- A conjunct gives a term, which takes the place of the variable in the others. -/
  | gone {v : Variable} {params kept : List Variable} {fs others remaining : List Formula}
      {t : Term} {later : Bool} (assignment : takeAssignment r v fs = .ok (some (t, others)))
      (rest : Eliminates r params (replaceInAll v t others) kept remaining later) :
      Eliminates r (v :: params) fs kept remaining true
  | stays {v : Variable} {params kept : List Variable} {fs remaining : List Formula} {later : Bool}
      (unassigned : takeAssignment r v fs = .ok none)
      (rest : Eliminates r params fs kept remaining later) :
      Eliminates r (v :: params) fs (v :: kept) remaining later

theorem eliminates_of_eq_ok {r : Registry} {params kept : List Variable}
    {fs remaining : List Formula}
    (h : eliminateParams r params fs = .ok (kept, remaining, changed)) :
    Eliminates r params fs kept remaining changed := by
  induction params generalizing fs kept changed with
  | nil =>
    obtain ⟨rfl, rfl, rfl⟩ : [] = kept ∧ fs = remaining ∧ false = changed := by
      simpa [eliminateParams] using h
    exact .nil
  | cons v params ih =>
    rw [eliminateParams] at h
    split at h
    next => simp at h
    next t others hassignment =>
      split at h
      next => simp at h
      next kept' remaining' later hrest =>
        obtain ⟨rfl, rfl, rfl⟩ : kept' = kept ∧ remaining' = remaining ∧ true = changed := by
          simpa using h
        exact .gone hassignment (ih hrest)
    next hnone =>
      split at h
      next => simp at h
      next kept' remaining' later hrest =>
        obtain ⟨rfl, rfl, rfl⟩ : v :: kept' = kept ∧ remaining' = remaining ∧ later = changed := by
          simpa using h
        exact .stays hnone (ih hrest)

/-- A relation between formulas one by one. Something has changed if any of them has. -/
inductive Memberwise (P : Bool → Formula → Formula → Prop) :
    Bool → List Formula → List Formula → Prop
  | nil : Memberwise P false [] []
  | cons {c d : Bool} {f g : Formula} {fs gs : List Formula} (head : P c g f)
      (tail : Memberwise P d gs fs) : Memberwise P (c || d) (g :: gs) (f :: fs)

/-- A relation that does not look at the report holds of all members. -/
theorem Memberwise.forall₂ {R : Formula → Formula → Prop} {gs fs : List Formula}
    (h : Memberwise (fun _ => R) changed gs fs) : List.Forall₂ R gs fs := by
  induction h with
  | nil => exact .nil
  | cons hgf _ ih => exact .cons hgf ih

/-- `P changed g f` says something of what a formula `f` has become and of whether that
was reported as a change. Each rule gives it where it applies, and it goes from parts to
the whole and from one change to the next. -/
structure Rewriting (r : Registry) (P : Bool → Formula → Formula → Prop) : Prop where
  refl : ∀ f, P false f f
  /-- One change after the other. -/
  trans : ∀ {c d f g h}, P c g f → P d h g → P (c || d) h f
  not : ∀ {c f g}, P c g f → P c (.not g) (.not f)
  implies : ∀ {c d f g f' g'}, P c f' f → P d g' g → P (c || d) (.implies f' g') (.implies f g)
  join : ∀ {c connective fs gs}, Memberwise P c gs fs →
    P c (.join connective gs) (.join connective fs)
  quantified : ∀ {c q params f g}, P c g f → P c (.quantified q params g) (.quantified q params f)
  /-- The variables of an existential quantifier that conjuncts give terms for go. -/
  equated : ∀ {c params kept fs remaining}, Eliminates r params fs kept remaining c →
    P c (.existential kept (.and remaining)) (.existential params (.and fs))
  /-- A quantifier of no variables goes. -/
  empty : ∀ q f, P true f (.quantified q [] f)
  /-- A connective of no formulas becomes a truth value. -/
  noMember : ∀ connective, P true (.boolean (unit connective)) (.join connective [])
  /-- A connective of one formula goes. -/
  oneMember : ∀ connective f, P true f (.join connective [f])

namespace Rewriting

variable {r : Registry} {P : Bool → Formula → Formula → Prop}

theorem eliminateAt (hP : Rewriting r P) {params : List Variable} {body : Formula}
    {before after : Bool} (hbody : P before (.existential params body) f)
    (h : eliminateAt r params body before = .ok (g, after)) : P after g f := by
  unfold Formula.eliminateAt at h
  split at h
  next fs =>
    split at h
    next => simp at h
    next kept remaining here hrest =>
      obtain ⟨rfl, rfl⟩ : Formula.existential kept (.and remaining) = g ∧ (before || here) = after := by
        simpa using h
      exact hP.trans hbody (hP.equated (eliminates_of_eq_ok hrest))
  next =>
    obtain ⟨rfl, rfl⟩ : Formula.existential params body = g ∧ before = after := by simpa using h
    exact hbody

theorem eliminateEquatedInAll {fs gs : List Formula}
    (hP : ∀ f ∈ fs, ∀ g c, eliminateEquated r f = .ok (g, c) → P c g f)
    (h : eliminateEquatedInAll r fs = .ok (gs, changed)) : Memberwise P changed gs fs := by
  induction fs generalizing gs changed with
  | nil =>
    obtain ⟨rfl, rfl⟩ : [] = gs ∧ false = changed := by simpa [Formula.eliminateEquatedInAll] using h
    exact .nil
  | cons f fs ih =>
    obtain ⟨g, c, gs', d, hg, hgs, rfl, rfl⟩ := eliminateEquatedInAll_cons.mp h
    obtain ⟨hf, hrest⟩ := List.forall_mem_cons.mp hP
    exact .cons (hf g c hg) (ih hrest hgs)

/-- The elimination of equated variables, from the inside out. -/
theorem eliminateEquated (hP : Rewriting r P)
    (h : eliminateEquated r f = .ok (g, changed)) : P changed g f := by
  induction f generalizing g changed with
  | not arg ih =>
    obtain ⟨arg', harg, rfl⟩ := eliminateEquated_not.mp h
    exact hP.not (ih harg)
  | implies a c iha ihc =>
    obtain ⟨a', first, c', second, ha, hc, rfl, rfl⟩ := eliminateEquated_implies.mp h
    exact hP.implies (iha ha) (ihc hc)
  | join connective args ih =>
    obtain ⟨args', hargs, rfl⟩ := eliminateEquated_join.mp h
    exact hP.join (eliminateEquatedInAll (fun f hf _ _ hg => ih f hf hg) hargs)
  | quantified q params body ih =>
    cases q with
    | universal =>
      obtain ⟨body', hbody, rfl⟩ := eliminateEquated_universal.mp h
      exact hP.quantified (ih hbody)
    | existential =>
      obtain ⟨body', before, hbody, hat⟩ := eliminateEquated_existential.mp h
      exact hP.eliminateAt (hP.quantified (ih hbody)) hat
  | _ =>
    obtain ⟨rfl, rfl⟩ : _ = g ∧ false = changed := by simpa [Formula.eliminateEquated] using h
    exact hP.refl _

theorem dropEmptyQuantifiers (hP : Rewriting r P) (f : Formula) :
    P f.hasEmptyQuantifier f.dropEmptyQuantifiers f := by
  induction f with
  | not arg ih => exact hP.not ih
  | implies a c iha ihc => exact hP.implies iha ihc
  | join connective args ih =>
    refine hP.join ?_
    clear hP
    induction args with
    | nil => exact .nil
    | cons f fs ihfs =>
      obtain ⟨hf, hfs⟩ := List.forall_mem_cons.mp ih
      exact .cons hf (ihfs hfs)
  | quantified q params body ih =>
    have hbody : P body.hasEmptyQuantifier (.quantified q params body.dropEmptyQuantifiers)
        (.quantified q params body) := hP.quantified ih
    cases params with
    | nil =>
      have hempty := hP.trans hbody (hP.empty q _)
      rwa [Bool.or_true] at hempty
    | cons v vs => exact hbody
  | _ => exact hP.refl _

theorem dropTrivialConnectives (hP : Rewriting r P) (f : Formula) :
    P f.hasTrivialConnective f.dropTrivialConnectives f := by
  induction f with
  | not arg ih => exact hP.not ih
  | implies a c iha ihc => exact hP.implies iha ihc
  | join connective args ih =>
    have hmembers : Memberwise P (anyHasTrivialConnective args) (dropTrivialConnectivesInAll args)
        args := by
      clear hP
      induction args with
      | nil => exact .nil
      | cons f fs ihfs =>
        obtain ⟨hf, hfs⟩ := List.forall_mem_cons.mp ih
        exact .cons hf (ihfs hfs)
    have hjoin : P (anyHasTrivialConnective args)
        (.join connective (dropTrivialConnectivesInAll args)) (.join connective args) :=
      hP.join hmembers
    cases args with
    | nil => exact hP.noMember connective
    | cons f fs =>
      cases fs with
      | nil =>
        have hone := hP.trans hjoin (hP.oneMember connective _)
        rwa [Bool.or_true] at hone
      | cons g rest => exact hjoin
  | quantified q params body ih => exact hP.quantified ih
  | _ => exact hP.refl _

/-- A round that gives another formula has changed something. -/
theorem simplifyOnce (hP : Rewriting r P) (h : simplifyOnce r f = .ok (some g)) : P true g f := by
  unfold Formula.simplifyOnce at h
  split at h
  next => simp at h
  next g' hg =>
    obtain rfl : g' = g := by simpa using h
    exact hP.eliminateEquated hg
  next =>
    split at h
    next hempty =>
      obtain rfl : f.dropEmptyQuantifiers = g := by simpa using h
      have hdrop := hP.dropEmptyQuantifiers f
      rwa [hempty] at hdrop
    next =>
      split at h
      next htrivial =>
        obtain rfl : f.dropTrivialConnectives = g := by simpa using h
        have hdrop := hP.dropTrivialConnectives f
        rwa [htrivial] at hdrop
      next => simp at h

/-- Any number of rounds. -/
theorem simplifyWithin (hP : Rewriting r P) {rounds : Nat}
    (h : simplifyWithin r rounds f = .ok g) : ∃ changed, P changed g f := by
  induction rounds generalizing f with
  | zero =>
    obtain rfl : f = g := by simpa [Formula.simplifyWithin] using h
    exact ⟨false, hP.refl f⟩
  | succ rounds ih =>
    rw [Formula.simplifyWithin] at h
    split at h
    next => simp at h
    next =>
      obtain rfl : f = g := by simpa using h
      exact ⟨false, hP.refl f⟩
    next g' hg =>
      obtain ⟨changed, hrest⟩ := ih h
      exact ⟨_, hP.trans (hP.simplifyOnce hg) hrest⟩

end Rewriting

end LogicProgram.Formula
