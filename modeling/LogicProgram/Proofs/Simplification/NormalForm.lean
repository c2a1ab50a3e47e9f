import LogicProgram.Proofs.Simplification

/-!
# Simplification ends in a normal form

A pass that reports a change has made the formula lighter, and one that reports none has
left it as it was. So the rounds come to an end, at the latest after as many as the
formula weighs, and they end at a formula on which no pass reports anything.
-/

namespace LogicProgram.Formula

open List

variable {changed : Bool} {f g : Formula} {fs : List Formula} {params : List Variable}

variable {r : Registry}

theorem weightOfAll_append (fs gs : List Formula) :
    weightOfAll (fs ++ gs) = weightOfAll fs + weightOfAll gs := by
  induction fs with
  | nil => exact (Nat.zero_add _).symm
  | cons f fs ih => rw [cons_append, weightOfAll, weightOfAll, ih, Nat.add_assoc]

/-- Terms have no weight, so replacing a variable does not change any. -/
theorem weight_replace (v : Variable) (t : Term) (f : Formula) :
    (f.replace v t).weight = f.weight := by
  induction f with
  | not arg ih => exact ih
  | implies a c iha ihc => exact congrArg₂ (· + ·) iha ihc
  | join connective args ih =>
    refine congrArg (· + 1) ?_
    show weightOfAll (replaceInAll v t args) = weightOfAll args
    induction args with
    | nil => rfl
    | cons f fs ihfs =>
      obtain ⟨hf, hfs⟩ := forall_mem_cons.mp ih
      exact congrArg₂ (· + ·) hf (ihfs hfs)
  | quantified q params body ih =>
    simp only [replace]
    split
    · rfl
    · exact congrArg (params.length + · + 1) ih
  | _ => rfl

/-- A reported change makes a formula lighter; without one it is the same. -/
def Reported : Bool → Formula → Formula → Prop
  | true, g, f => g.weight < f.weight
  | false, g, f => g = f

theorem Reported.weight_le (h : Reported changed g f) : g.weight ≤ f.weight := by
  cases changed with
  | true => exact Nat.le_of_lt h
  | false => exact Nat.le_of_eq (congrArg weight h)

/-- The same of several formulas together. -/
theorem Reported.members {gs : List Formula} (h : Memberwise Reported changed gs fs) :
    weightOfAll gs ≤ weightOfAll fs ∧ (changed = true → weightOfAll gs < weightOfAll fs) ∧
      (changed = false → gs = fs) := by
  induction h with
  | nil => exact ⟨Nat.le_refl _, nofun, fun _ => rfl⟩
  | @cons c d f g fs gs head tail ih =>
    obtain ⟨hle, hlt, heq⟩ := ih
    have hhead := head.weight_le
    simp only [weightOfAll]
    refine ⟨Nat.add_le_add hhead hle, fun hchanged => ?_, fun hsame => ?_⟩
    · cases c with
      | true => exact Nat.add_lt_add_of_lt_of_le head hle
      | false => exact Nat.add_lt_add_of_le_of_lt hhead (hlt hchanged)
    · obtain ⟨rfl, rfl⟩ := Bool.or_eq_false_iff.mp hsame
      rw [show g = f from head, heq rfl]

/-- Each variable that goes takes a conjunct with it. -/
theorem Eliminates.reported {kept : List Variable} {remaining : List Formula}
    (h : Eliminates r params fs kept remaining changed) :
    Reported changed (.existential kept (.and remaining)) (.existential params (.and fs)) := by
  induction h with
  | nil => rfl
  | @gone v params kept fs others remaining t later hassignment _ ih =>
    have hothers : weightOfAll (replaceInAll v t others) ≤ weightOfAll fs := by
      have hreplace := weight_replace v t (.and others)
      obtain ⟨before, f, after, rfl, rfl, _⟩ := takeAssignment_eq_some hassignment
      simp only [replace, weight, weightOfAll_append, weightOfAll] at hreplace ⊢
      omega
    have hweight := ih.weight_le
    simp only [weight] at hweight
    simp only [Reported, weight, length_cons]
    omega
  | @stays v params kept fs remaining later _ _ ih =>
    cases later with
    | true =>
      simp only [Reported, weight, length_cons] at ih ⊢
      omega
    | false =>
      obtain ⟨rfl, rfl⟩ : kept = params ∧ remaining = fs := by simpa [Reported] using ih
      rfl

/-- All reports are truthful. -/
theorem reported_rewriting : Rewriting r Reported where
  refl _ := rfl
  trans {c d f g h} hgf hhg := by
    cases c with
    | true => exact Nat.lt_of_le_of_lt hhg.weight_le hgf
    | false =>
      obtain rfl : g = f := hgf
      rwa [Bool.false_or]
  not {c f g} h := by
    cases c with
    | true => exact h
    | false => exact congrArg Formula.not h
  implies {c d f g f' g'} hf hg := by
    have hmembers := Reported.members (.cons hf (.cons hg .nil))
    simp only [weightOfAll, Nat.add_zero, Bool.or_false] at hmembers
    cases hchanged : c || d with
    | true => exact hmembers.2.1 hchanged
    | false =>
      obtain ⟨rfl, rfl⟩ : f' = f ∧ g' = g := by simpa using hmembers.2.2 hchanged
      rfl
  join {c connective fs gs} h := by
    obtain ⟨_, hlt, heq⟩ := Reported.members h
    cases c with
    | true => exact Nat.succ_lt_succ (hlt rfl)
    | false => exact congrArg (Formula.join connective) (heq rfl)
  quantified {c q params f g} h := by
    cases c with
    | true =>
      simp only [Reported, weight] at h ⊢
      omega
    | false => exact congrArg (Formula.quantified q params) h
  equated := Eliminates.reported
  empty q f := by
    simp only [Reported, weight]
    omega
  noMember connective := by
    simp only [Reported, weight]
    omega
  oneMember connective f := by
    simp only [Reported, weight, weightOfAll]
    omega

/-- What the rounds that start at a formula come to, however many they are: a formula on
which no rule has anything to do, or the error of the last round. -/
inductive Rounds (r : Registry) : Formula → Except Error Formula → Prop
  | done {f : Formula} (h : simplifyOnce r f = .ok none) : Rounds r f (.ok f)
  | failed {f : Formula} {e : Error} (h : simplifyOnce r f = .error e) : Rounds r f (.error e)
  | next {f g : Formula} {result : Except Error Formula} (h : simplifyOnce r f = .ok (some g))
      (rest : Rounds r g result) : Rounds r f result

/-- Every round makes the formula lighter, so rounds end. -/
theorem rounds_simplifyWithin {rounds : Nat} (h : f.weight < rounds) :
    Rounds r f (simplifyWithin r rounds f) := by
  induction rounds generalizing f with
  | zero => exact absurd h (Nat.not_lt_zero _)
  | succ rounds ih =>
    rw [simplifyWithin]
    split
    next e he => exact .failed he
    next hnone => exact .done hnone
    next g hg =>
      have hlighter : g.weight < f.weight := reported_rewriting.simplifyOnce hg
      exact .next hg (ih (Nat.lt_of_lt_of_le hlighter (Nat.lt_succ_iff.mp h)))

theorem Rounds.last (h : Rounds r f (.ok g)) : simplifyOnce r g = .ok none := by
  generalize hresult : Except.ok g = result at h
  induction h with
  | done hnone =>
    obtain rfl := Except.ok.inj hresult
    exact hnone
  | failed _ => cases hresult
  | next _ _ ih => exact ih hresult

/-- No rule of simplification has anything to do in a formula. -/
structure NormalForm (r : Registry) (g : Formula) : Prop where
  /-- Every quantifier lists variables. -/
  quantifiers : ∀ q params body, .quantified q params body ∈ g.subformulas → params ≠ []
  /-- Every connective joins at least two formulas. -/
  connectives : ∀ connective fs, .join connective fs ∈ g.subformulas → 2 ≤ fs.length
  /-- No conjunct below an existential quantifier equates a variable of the quantifier with
  a term without it, unless the variable is an integer and the term is not arithmetic. -/
  equations : ∀ params fs, .existential params (.and fs) ∈ g.subformulas →
    ∀ v ∈ params, ∀ t, (.equals (.variable v) t ∈ fs ∨ .equals t (.variable v) ∈ fs) →
      v ∉ t.vars → ¬ (r.variableDomain v = some .program ∨ r.isArithmetic t = .ok true)

/-- No term is given if the variable is an integer and the term is none. -/
theorem assignedTerm_eq_none {v : Variable} {t : Term}
    (hequation : f = .equals (.variable v) t ∨ f = .equals t (.variable v)) (hv : v ∉ t.vars)
    (h : assignedTerm r v f = .ok none) :
    r.variableDomain v = some .integer ∧ r.isArithmetic t = .ok false := by
  have hother : isVariable v t = false := by
    unfold isVariable
    split
    next w =>
      have hne : v ≠ w := by simpa [Term.vars] using hv
      exact beq_eq_false_iff_ne.mpr hne.symm
    next => rfl
  have hequated : equatedTerm? v f = some t := by
    have hself : isVariable v (.variable v) = true := beq_self_eq_true v
    rcases hequation with rfl | rfl
    · simp [equatedTerm?, hself]
    · simp [equatedTerm?, hself, hother]
  have hmentions : t.mentions v = false := by simpa [Term.mentions] using hv
  simp only [assignedTerm, hequated, hmentions, Bool.false_eq_true, if_false] at h
  split at h
  next => simp at h
  next => simp at h
  next hdomain =>
    split at h
    next => simp at h
    next arithmetic harithmetic =>
      cases arithmetic with
      | true => simp at h
      | false => exact ⟨hdomain, harithmetic⟩

theorem takeAssignment_eq_none {v : Variable}
    (h : takeAssignment r v fs = .ok none) : ∀ f ∈ fs, assignedTerm r v f = .ok none := by
  induction fs with
  | nil => exact nofun
  | cons f fs ih =>
    rw [takeAssignment] at h
    split at h
    next => simp at h
    next => simp at h
    next hnone =>
      split at h
      next => simp at h
      next hrest => exact forall_mem_cons.mpr ⟨hnone, ih hrest⟩
      next => simp at h

theorem Eliminates.unchanged {kept : List Variable} {remaining : List Formula}
    (h : Eliminates r params fs kept remaining false) :
    ∀ v ∈ params, takeAssignment r v fs = .ok none := by
  generalize hchanged : false = changed at h
  induction h with
  | nil => exact nofun
  | gone => cases hchanged
  | stays hnone _ ih => exact forall_mem_cons.mpr ⟨hnone, ih hchanged⟩

/-- The elimination of equated variables has nothing to do. -/
def Settled (r : Registry) (f : Formula) : Prop := ∃ g, eliminateEquated r f = .ok (g, false)

theorem settled_of_inAll {gs : List Formula}
    (h : eliminateEquatedInAll r fs = .ok (gs, false)) : ∀ f ∈ fs, f.Settled r := by
  induction fs generalizing gs with
  | nil => exact nofun
  | cons f fs ih =>
    obtain ⟨g, first, gs', others, hg, hgs, _, hchanged⟩ := eliminateEquatedInAll_cons.mp h
    obtain ⟨rfl, rfl⟩ := Bool.or_eq_false_iff.mp hchanged
    exact forall_mem_cons.mpr ⟨⟨g, hg⟩, ih hgs⟩

theorem eliminateAt_unchanged {body : Formula} {before : Bool}
    (h : eliminateAt r params body before = .ok (g, false)) : before = false ∧
      ∀ fs, body = .and fs → ∀ v ∈ params, takeAssignment r v fs = .ok none := by
  unfold eliminateAt at h
  split at h
  next conjuncts =>
    split at h
    next => simp at h
    next kept remaining here hrest =>
      obtain ⟨_, rfl, rfl⟩ :
          Formula.existential kept (.and remaining) = g ∧ before = false ∧ here = false := by
        simpa using h
      refine ⟨rfl, fun fs hfs => ?_⟩
      obtain rfl : conjuncts = fs := by simpa using hfs
      exact (eliminates_of_eq_ok hrest).unchanged
  next hother =>
    obtain ⟨_, rfl⟩ : Formula.existential params body = g ∧ before = false := by simpa using h
    exact ⟨rfl, fun fs hfs => absurd hfs (hother fs)⟩

/-- An existential quantifier has nothing to eliminate, nor has its body. -/
theorem Settled.existential {body : Formula}
    (h : (Formula.existential params body).Settled r) : body.Settled r ∧
      ∀ fs, body = .and fs → ∀ v ∈ params, takeAssignment r v fs = .ok none := by
  obtain ⟨g, h⟩ := h
  obtain ⟨body', before, hbody, hat⟩ := eliminateEquated_existential.mp h
  obtain ⟨rfl, hnone⟩ := eliminateAt_unchanged hat
  -- The body is looked at after its own pass, which has not changed it.
  obtain rfl : body' = body := reported_rewriting.eliminateEquated hbody
  exact ⟨⟨body', hbody⟩, hnone⟩

theorem Settled.subformula (h : f.Settled r) : ∀ g ∈ f.subformulas, g.Settled r := by
  refine forall_subformulas_of_hereditary ?_ ?_ ?_ ?_ h
  · rintro arg ⟨g, h⟩
    obtain ⟨arg', harg, _⟩ := eliminateEquated_not.mp h
    exact ⟨arg', harg⟩
  · rintro a c ⟨g, h⟩
    obtain ⟨a', first, c', second, ha, hc, _, hchanged⟩ := eliminateEquated_implies.mp h
    obtain ⟨rfl, rfl⟩ := Bool.or_eq_false_iff.mp hchanged
    exact ⟨⟨a', ha⟩, ⟨c', hc⟩⟩
  · rintro connective fs ⟨g, h⟩
    obtain ⟨fs', hfs, _⟩ := eliminateEquated_join.mp h
    exact settled_of_inAll hfs
  · rintro q params body h
    cases q with
    | existential => exact h.existential.1
    | universal =>
      obtain ⟨g, h⟩ := h
      obtain ⟨body', hbody, _⟩ := eliminateEquated_universal.mp h
      exact ⟨body', hbody⟩

theorem anyHasEmptyQuantifier_eq_any (fs : List Formula) :
    anyHasEmptyQuantifier fs = fs.any (·.hasEmptyQuantifier) := by
  induction fs with
  | nil => rfl
  | cons f fs ih => exact congrArg (f.hasEmptyQuantifier || ·) ih

theorem anyHasTrivialConnective_eq_any (fs : List Formula) :
    anyHasTrivialConnective fs = fs.any (·.hasTrivialConnective) := by
  induction fs with
  | nil => rfl
  | cons f fs ih => exact congrArg (f.hasTrivialConnective || ·) ih

theorem hasEmptyQuantifier_subformula (h : f.hasEmptyQuantifier = false) :
    ∀ g ∈ f.subformulas, g.hasEmptyQuantifier = false := by
  refine forall_subformulas_of_hereditary id Bool.or_eq_false_iff.mp ?_ ?_ h
  · intro connective fs hfs
    rw [hasEmptyQuantifier, anyHasEmptyQuantifier_eq_any] at hfs
    simpa using hfs
  · intro q params body hbody
    exact (Bool.or_eq_false_iff.mp hbody).2

theorem hasTrivialConnective_subformula (h : f.hasTrivialConnective = false) :
    ∀ g ∈ f.subformulas, g.hasTrivialConnective = false := by
  refine forall_subformulas_of_hereditary id Bool.or_eq_false_iff.mp ?_ id h
  intro connective fs hfs
  have hmembers := (Bool.or_eq_false_iff.mp hfs).2
  rw [anyHasTrivialConnective_eq_any] at hmembers
  simpa using hmembers

/-- A formula that no round changes is in normal form. -/
theorem normalForm_of_simplifyOnce (h : simplifyOnce r g = .ok none) : NormalForm r g := by
  obtain ⟨hsettled, hquantifier, hconnective⟩ : g.Settled r ∧ g.hasEmptyQuantifier = false ∧
      g.hasTrivialConnective = false := by
    unfold simplifyOnce at h
    split at h
    next => simp at h
    next => simp at h
    next g' hg =>
      split at h
      next => simp at h
      next hquantifier =>
        split at h
        next => simp at h
        next hconnective => exact ⟨⟨g', hg⟩, by simpa using hquantifier, by simpa using hconnective⟩
  refine ⟨fun q params body hmem => ?_, fun connective fs hmem => ?_, ?_⟩
  · have hpart := hasEmptyQuantifier_subformula hquantifier _ hmem
    simpa using (Bool.or_eq_false_iff.mp hpart).1
  · have hpart := hasTrivialConnective_subformula hconnective _ hmem
    exact Nat.not_lt.mp (of_decide_eq_false (Bool.or_eq_false_iff.mp hpart).1)
  · rintro params fs hmem v hv t hequation hvars hassignable
    have hnone := takeAssignment_eq_none ((hsettled.subformula _ hmem).existential.2 fs rfl v hv)
    have hinteger : r.variableDomain v = some .integer ∧ r.isArithmetic t = .ok false := by
      rcases hequation with hf | hf
      · exact assignedTerm_eq_none (.inl rfl) hvars (hnone _ hf)
      · exact assignedTerm_eq_none (.inr rfl) hvars (hnone _ hf)
    rcases hassignable with hprogram | harithmetic
    · simp [hinteger.1] at hprogram
    · simp [hinteger.2] at harithmetic

/-- Simplification of any formula comes to an end, and what it returns is in normal form
and is not simplified any further. -/
theorem simplify_normalForm (r : Registry) (f : Formula) :
    Rounds r f (f.simplify r) ∧
      ∀ g, f.simplify r = .ok g → NormalForm r g ∧ g.simplify r = .ok g := by
  have hrounds : Rounds r f (f.simplify r) := rounds_simplifyWithin (Nat.lt_succ_self _)
  refine ⟨hrounds, fun g hg => ?_⟩
  rw [hg] at hrounds
  refine ⟨normalForm_of_simplifyOnce hrounds.last, ?_⟩
  rw [simplify, simplifyWithin, hrounds.last]

/-- Some `X` and `N` with `X = N` are such that `N = 1`, as a conjunction of its own, and
`p(X)`. -/
def exposed : Formula :=
  .existential [0, 1] (.and [
    .equals (.variable 0) (.variable 1),
    .and [.equals (.variable 1) (.integer 1)],
    .atom "p" [.variable 0]])

/-- The second equation can be used only after the inner conjunction has gone. -/
theorem simplify_normalForm_exposed :
    exposed.simplify mixedVariables = .ok (.atom "p" [.integer 1]) ∧
      NormalForm mixedVariables (.atom "p" [.integer 1]) ∧
      ¬ NormalForm mixedVariables exposed := by
  have h : exposed.simplify mixedVariables = .ok (.atom "p" [.integer 1]) := by rfl
  refine ⟨h, ((simplify_normalForm mixedVariables exposed).2 _ h).1, fun hexposed => ?_⟩
  have htwo := hexposed.connectives .and [.equals (.variable 1) (.integer 1)]
    (by simp [exposed, subformulas, subformulasOfAll])
  exact absurd htwo (by decide)

end LogicProgram.Formula
