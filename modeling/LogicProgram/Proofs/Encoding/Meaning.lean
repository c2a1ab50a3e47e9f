import LogicProgram.Proofs.Encoding.Allocation

/-!
# The meaning of what a rule is encoded as

The formula that chooses a value of a term holds of exactly the values of the term, and
the formula of a body element holds exactly when the element does. The objects of the
rule's variables are those that an assignment gives their names.
-/

namespace LogicProgram.Encoding

open List
open Formula (holds_quantified holds_and holds_compare holds_atomOf)
open Returns (pure_iff bind_iff)
open Interpretation (exists_integer admits_of_program)

universe u

variable {f : Formula} {i j z : Variable} {left right : Rule.Term} {op : Rule.Operator}

variable {I : Interpretation.{u}} {R : Registry} {c c' c'' : RuleContext} {σ : Valuation I}
  {ρ : Text → I.Object}

/-- Variables stand for the objects that an assignment gives their names. -/
def Agrees (R : Registry) (scope : List Variable) (σ : Valuation I) (ρ : Text → I.Object) : Prop :=
  ∀ v ∈ scope, σ v = ρ (R.nameOf v)

theorem Agrees.mono {scope scope' : List Variable} (h : Agrees R scope σ ρ)
    (hsub : scope' ⊆ scope) : Agrees R scope' σ ρ := fun v hv => h v (hsub hv)

/-- Values for new variables leave older ones and the rule's alone. -/
theorem Allocates.assign {names : List Text} {vs rest : List Variable}
    (h : Allocates names c (vs ++ rest) c') (hc : c.WellFormed) (ds : List I.Object)
    (hlen : ds.length = vs.length) (hρ : Agrees R c'.scope σ ρ) :
    vs.map (LogicProgram.assign σ vs ds) = ds ∧
      (∀ w : Nat, w < c.registry.variableTable.size → LogicProgram.assign σ vs ds w = σ w) ∧
      Agrees R c'.scope (LogicProgram.assign σ vs ds) ρ := by
  obtain ⟨new, -, hnodup, hrange, -⟩ := h.fresh
  refine ⟨map_assign ?_ hlen, fun w hw => assign_of_not_mem fun hmem => ?_, fun w hw => ?_⟩
  · exact (nodup_append.mp (nodup_append.mp hnodup).1).1
  · have hle := (hrange w (by simp [hmem])).1
    omega
  · rw [assign_of_not_mem fun hmem => h.not_mem_scope hc (mem_append_left rest hmem) hw]
    exact hρ w hw

/-- The arithmetic of formulas is that of rules. -/
theorem arithmetic_value (hI : I.Standard) {operator : Term.Operator}
    (h : arithmetic? op = some operator) : ∃ f, op.onIntegers? = some f ∧
      ∀ m n, I.binary operator (I.ofInt m) (I.ofInt n) = I.ofInt (f m n) := by
  cases op <;> cases h
  · exact ⟨_, rfl, hI.add⟩
  · exact ⟨_, rfl, hI.subtract⟩
  · exact ⟨_, rfl, hI.multiply⟩

theorem hasValue_arithmetic {f : Int → Int → Int} (h : op.onIntegers? = some f) {d : I.Object} :
    (Rule.Term.binary op left right).HasValue I ρ d ↔ ∃ m n : Int,
      left.HasValue I ρ (I.ofInt m) ∧ right.HasValue I ρ (I.ofInt n) ∧ d = I.ofInt (f m n) := by
  cases op <;> cases h <;> simp [Rule.Term.HasValue, Rule.Operator.onIntegers?]

/-- A formula that chooses a value of a term holds of its values. -/
def ChoosesValues (I : Interpretation.{u}) (R : Registry) (ρ : Text → I.Object) (t : Rule.Term) :
    Prop :=
  ∀ {z : Variable} {c c' : RuleContext} {f : Formula} {σ : Valuation I}, c.WellFormed →
    z < c.registry.variableTable.size → Returns (chooseValue t z) c f c' → c'.registry.Grows R →
    Agrees R c'.scope σ ρ → (f.Holds R I σ ↔ t.HasValue I ρ (σ z))

/-- Two values are chosen below a quantifier over new variables for `ds`. -/
theorem ChosenPair.meaning {d : Domain} {vs : List Variable} {a b : Rule.Term} {l r : Formula}
    (h : ChosenPair d vs a b i j c l r c') (ha : ChoosesValues I R ρ a) (hb : ChoosesValues I R ρ b)
    (hc : c.WellFormed) (hR : c'.registry.Grows R) (hρ : Agrees R c'.scope σ ρ) :
    (∀ v ∈ vs, R.variableDomain v = some d) ∧ ∀ ds : List I.Object, ds.length = vs.length →
      vs.map (assign σ vs ds) = ds ∧
      (∀ w : Nat, w < c.registry.variableTable.size → assign σ vs ds w = σ w) ∧
      (l.Holds R I (assign σ vs ds) ↔ a.HasValue I ρ (assign σ vs ds i)) ∧
      (r.Holds R I (assign σ vs ds) ↔ b.HasValue I ρ (assign σ vs ds j)) := by
  obtain ⟨c₁, c₂, hvars, hc₁, hl, hyl, hc₂, hr, hyr⟩ := h.contexts hc
  have hall := (hvars.allocates (a.names ++ b.names)).trans
    ((hyl.mono (subset_append_left _ _)).trans (hyr.mono (subset_append_right _ _)))
  have hbelow := (hvars.allocates []).below
  refine ⟨hvars.domain (hyl.grows.trans (hyr.grows.trans hR)), fun ds hlen => ?_⟩
  obtain ⟨hvals, hold, hρ'⟩ := hall.assign hc ds hlen hρ
  refine ⟨hvals, hold, ?_, ?_⟩
  · exact ha hc₁ (hbelow i h.mem.1) hl (hyr.grows.trans hR) (hρ'.mono hyr.scope_subset)
  · exact hb hc₂ (Nat.lt_of_lt_of_le (hbelow j h.mem.2) hyl.grows.size) hr hR hρ'

section Operations

variable (hI : I.Standard) (hc : c.WellFormed) (hz : z < c.registry.variableTable.size)
  (hR : c'.registry.Grows R) (hρ : Agrees R c'.scope σ ρ)

include hI hc hz hR hρ

/-- Arithmetic on two chosen integers. -/
theorem arithmetic_meaning {operator : Term.Operator} (hleft : ChoosesValues I R ρ left)
    (hright : ChoosesValues I R ρ right) {l r : Formula} (hop : arithmetic? op = some operator)
    (h : ChosenPair .integer [i, j] left right i j c l r c') : (Formula.existential [i, j] (.and [
      .equals (.variable z) (.binary operator (.variable i) (.variable j)), l, r])).Holds R I σ ↔
      (Rule.Term.binary op left right).HasValue I ρ (σ z) := by
  obtain ⟨hdomains, hpair⟩ := h.meaning hleft hright hc hR hρ
  obtain ⟨g, hg, hvalue⟩ := arithmetic_value hI hop
  rw [hasValue_arithmetic hg, holds_quantified, exists_integer (hdomains i (by simp))]
  simp only [exists_integer (hdomains j (by simp))]
  refine exists_congr fun m => exists_congr fun n => ?_
  obtain ⟨hvals, hold, hml, hmr⟩ := hpair [I.ofInt m, I.ofInt n] rfl
  show (Formula.and _).Holds R I (assign σ [i, j] [I.ofInt m, I.ofInt n]) ↔ _
  simp only [map_cons, map_nil, List.cons.injEq, and_true] at hvals
  rw [holds_and, forall_mem_cons, forall_mem_cons, forall_mem_singleton,
    hml, hmr, hvals.1, hvals.2, and_comm, and_assoc]
  simp only [holds_compare, Term.value, Interpretation.Compares, hvals, hold z hz, hvalue]

/-- Quotient or remainder of two integers chosen from the left operand. -/
theorem quotient_meaning (hleft : ChoosesValues I R ρ left) {q r : Variable}
    {chooseI chooseJ : Formula} (hop : op = .divide ∨ op = .modulo)
    (h : ChosenPair .integer [i, j, q, r] left left i j c chooseI chooseJ c') :
    (quotient i j q r chooseI chooseJ (if op = .divide then isValue z q else isValue z r)).Holds
        R I σ ↔ (Rule.Term.binary op left right).HasValue I ρ (σ z) := by
  obtain ⟨hdomains, hpair⟩ := h.meaning hleft hleft hc hR hρ
  have hvalue : (Rule.Term.binary op left right).HasValue I ρ (σ z) ↔ ∃ a b k e : Int,
      left.HasValue I ρ (I.ofInt a) ∧ left.HasValue I ρ (I.ofInt b) ∧ a = b * k + e ∧ b ≠ 0 ∧
        0 ≤ e ∧ e < k ∧ σ z = I.ofInt (if op = .divide then k else e) := by
    rcases hop with rfl | rfl <;> rfl
  rw [hvalue, quotient, holds_quantified, exists_integer (hdomains i (by simp))]
  simp only [exists_integer (hdomains j (by simp)), exists_integer (hdomains q (by simp)),
    exists_integer (hdomains r (by simp))]
  refine exists_congr fun a => exists_congr fun b => exists_congr fun k => exists_congr fun e => ?_
  obtain ⟨hvals, hold, hmI, hmJ⟩ := hpair [I.ofInt a, I.ofInt b, I.ofInt k, I.ofInt e] rfl
  show (Formula.and _).Holds R I
    (assign σ [i, j, q, r] [I.ofInt a, I.ofInt b, I.ofInt k, I.ofInt e]) ↔ _
  simp only [map_cons, map_nil, List.cons.injEq, and_true] at hvals
  obtain ⟨hai, hbj, hkq, her⟩ := hvals
  have hresult : (if op = .divide then isValue z q else isValue z r).Holds R I
      (assign σ [i, j, q, r] [I.ofInt a, I.ofInt b, I.ofInt k, I.ofInt e]) ↔
      σ z = I.ofInt (if op = .divide then k else e) := by
    split
    · simp only [holds_compare, Term.value, Interpretation.Compares, hold z hz, hkq]
    · simp only [holds_compare, Term.value, Interpretation.Compares, hold z hz, her]
  simp only [holds_and, forall_mem_cons, not_mem_nil, false_implies,
    implies_true, and_true, hmI, hmJ,
    hresult, hai, hbj, holds_compare, Term.value, Interpretation.Compares, hkq, her, hI.multiply,
    hI.add, hI.lessOrEqual, hI.injective.eq_iff, ne_eq]
  constructor
  · rintro ⟨heq, hva, hvb, hne, hnonneg, ⟨hle, hlt⟩, hz⟩
    exact ⟨hva, hvb, heq, hne, hnonneg, by omega, hz⟩
  · rintro ⟨hva, hvb, heq, hne, hnonneg, hlt, hz⟩
    exact ⟨heq, hva, hvb, hne, hnonneg, ⟨by omega, by omega⟩, hz⟩

/-- The integers between two chosen ones. -/
theorem between_meaning {lower upper : Rule.Term} (hlower : ChoosesValues I R ρ lower)
    (hupper : ChoosesValues I R ρ upper) {k : Variable} {chooseI chooseJ : Formula}
    (h : ChosenPair .integer [i, j, k] lower upper i j c chooseI chooseJ c') :
    (between z i j k chooseI chooseJ).Holds R I σ ↔
      (Rule.Term.interval lower upper).HasValue I ρ (σ z) := by
  obtain ⟨hdomains, hpair⟩ := h.meaning hlower hupper hc hR hρ
  rw [between, holds_quantified, Rule.Term.HasValue, exists_integer (hdomains i (by simp))]
  simp only [exists_integer (hdomains j (by simp)), exists_integer (hdomains k (by simp))]
  refine exists_congr fun a => exists_congr fun b => exists_congr fun n => ?_
  obtain ⟨hvals, hold, hmI, hmJ⟩ := hpair [I.ofInt a, I.ofInt b, I.ofInt n] rfl
  show (Formula.and _).Holds R I (assign σ [i, j, k] [I.ofInt a, I.ofInt b, I.ofInt n]) ↔ _
  simp only [map_cons, map_nil, List.cons.injEq, and_true] at hvals
  simp only [holds_and, forall_mem_cons, not_mem_nil, false_implies,
    implies_true, and_true, hmI, hmJ,
    hvals, holds_compare, Term.value, Interpretation.Compares, hI.lessOrEqual, hold z hz]

/-- The negative of a chosen integer. -/
theorem minus_meaning {arg : Rule.Term} (harg : ChoosesValues I R ρ arg) {n : Variable}
    {choose : Formula} {c₁ : RuleContext} (hn : Makes .integer c [n] c₁)
    (hchoose : Returns (chooseValue arg n) c₁ choose c') : (Formula.existential [n] (.and [
      .equals (.variable z) (.unary .negative (.variable n)), choose])).Holds R I σ ↔
      (Rule.Term.unary .minus arg).HasValue I ρ (σ z) := by
  have hvars := hn.allocates arg.names
  have hc₁ := hvars.wellFormed hc
  have hy := (chooseValue_yields hc₁ hchoose).allocates
  rw [holds_quantified, Rule.Term.HasValue,
    exists_integer (hn.domain (hy.grows.trans hR) n (by simp))]
  refine exists_congr fun m => ?_
  obtain ⟨hvals, hold, hρ'⟩ := (hvars.trans hy).assign hc [I.ofInt m] rfl hρ
  have hm := harg hc₁ (hvars.below n (by simp)) hchoose hR hρ'
  show (Formula.and _).Holds R I (assign σ [n] [I.ofInt m]) ↔ _
  simp only [map_cons, map_nil, List.cons.injEq, and_true] at hvals
  rw [holds_and, forall_mem_cons, forall_mem_singleton, hm, hvals, and_comm]
  simp only [holds_compare, Term.value, Interpretation.Compares, hvals, hold z hz, hI.negative]

end Operations

/-- The formula that chooses a value of a term holds of its values. -/
theorem chooseValue_meaning (hI : I.Standard) (t : Rule.Term) : ChoosesValues I R ρ t := by
  intro z c c' f σ hc hz h hR hρ
  induction t generalizing z c f c' σ with
  | number n | string s | infimum | supremum =>
    obtain ⟨rfl, rfl⟩ := pure_iff.mp h
    exact Iff.rfl
  | var name =>
    obtain ⟨v, hv, rfl, hname, halloc⟩ := chooseValue_variable hc h
    have hbelow := (halloc.wellFormed hc).below v hv
    show σ z = σ v ↔ σ z = ρ name
    rw [hρ v hv, hR.nameOf hbelow, hname]
  | function external name args =>
    obtain ⟨rfl, rfl, rfl, rfl⟩ := chooseValue_function h
    show σ z = I.function name [] ↔ false = false ∧ [] = [] ∧ σ z = I.function name []
    simp
  | binary op left right ihl ihr =>
    rcases chooseValue_binary h with ⟨operator, i, j, l, r, hop, hpair, rfl⟩ | ⟨i, j, q, k, l, r,
      hop, hpair, rfl⟩
    · exact arithmetic_meaning hI hc hz hR hρ ihl ihr hop hpair
    · exact quotient_meaning hI hc hz hR hρ ihl hop hpair
  | unary op arg ih =>
    obtain ⟨rfl, n, c₁, choose, hn, hchoose, rfl⟩ := chooseValue_unary h
    exact minus_meaning hI hc hz hR hρ ih hn hchoose
  | interval lower upper ihl ihu =>
    obtain ⟨i, j, k, l, r, hpair, rfl⟩ := chooseValue_interval h
    exact between_meaning hI hc hz hR hρ ihl ihu hpair
  | pool args => exact (Step.unsupported_iff.mp h).elim

/-- The formulas that choose values hold of the tuples of values. -/
theorem chooseValues_meaning (hI : I.Standard) {args : List Rule.Term} {params : List Variable}
    {fs : List Formula} (hc : c.WellFormed) (hlen : args.length = params.length)
    (hbelow : ∀ v : Nat, v ∈ params → v < c.registry.variableTable.size)
    (h : Returns (chooseValues args params) c fs c') (hR : c'.registry.Grows R)
    (hρ : Agrees R c'.scope σ ρ) :
    (∀ f ∈ fs, f.Holds R I σ) ↔ Forall₂ (Rule.Term.HasValue I ρ) args (params.map σ) := by
  induction args generalizing params c fs with
  | nil =>
    obtain ⟨rfl, rfl⟩ := pure_iff.mp h
    rw [length_eq_zero_iff.mp hlen.symm]
    simp
  | cons t args ih =>
    cases params with
    | nil => cases hlen
    | cons z params =>
      simp only [chooseValues, bind_iff, pure_iff] at h
      obtain ⟨f, c₁, hf, fs, _, hfs, rfl, rfl⟩ := h
      have hy := (chooseValue_yields hc hf).allocates
      have hys := (chooseValues_yields (hy.wellFormed hc) hfs).allocates
      have hfirst := chooseValue_meaning hI t hc (hbelow z (by simp)) hf (hys.grows.trans hR)
        (hρ.mono hys.scope_subset)
      have hrest := ih (hy.wellFormed hc) (Nat.succ.inj hlen)
        (fun v hv => Nat.lt_of_lt_of_le (hbelow v (by simp [hv])) hy.grows.size) hfs
      rw [forall_mem_cons, map_cons, forall₂_cons, hfirst, hrest]

theorem signedAtom_holds {sign : Rule.Sign} {p : Symbol} {params : List Variable} :
    (signedAtom sign p params).Holds R I σ ↔ sign.Holds (I.predicate p.name (params.map σ)) := by
  cases sign with
  | plain => exact holds_atomOf
  | negated => exact not_congr holds_atomOf
  | doublyNegated => exact holds_atomOf

section Elements

variable (hI : I.Standard) (hc : c.WellFormed) (hR : c'.registry.Grows R)
  (hρ : Agrees R c'.scope σ ρ)

include hI hc hR hρ

/-- An atom holds if some values of its arguments make it hold. -/
theorem bodyAtom_meaning {sign : Rule.Sign} {name : Text} {args : List Rule.Term}
    (h : Returns (bodyAtom sign name args) c f c') : f.Holds R I σ ↔
      ∃ ds, Forall₂ (Rule.Term.HasValue I ρ) args ds ∧ sign.Holds (I.predicate name ds) := by
  obtain ⟨params, fs, c₁, hlen, hvars, hdomains, -, hfs, rfl⟩ := bodyAtom_returns h
  have hc₁ := (hvars []).wellFormed hc
  have hys := (chooseValues_yields hc₁ hfs).allocates
  have hall := (hvars _).trans hys
  have hprogram := hdomains R (hys.grows.trans hR)
  -- without arguments there is no quantifier, and one over no variables says the same
  have hquantified : (if args.isEmpty then signedAtom sign ⟨name, args.length⟩ params
      else .existential params (.and (fs ++ [signedAtom sign ⟨name, args.length⟩ params]))).Holds
        R I σ ↔ Quantifier.existential.Holds (I.Admits R) params
          ((Formula.and (fs ++ [signedAtom sign ⟨name, args.length⟩ params])).Holds R I) σ := by
    cases args with
    | nil =>
      obtain ⟨rfl, -⟩ := pure_iff.mp hfs
      rw [length_eq_zero_iff.mp hlen]
      simp [Quantifier.Holds]
    | cons t args => exact Iff.rfl
  rw [hquantified, Quantifier.existential_holds_iff]
  refine exists_congr fun ds => ?_
  rw [forall₂_iff_length_eq fun v hv => admits_of_program (hprogram v hv)]
  constructor
  · rintro ⟨hds, hholds⟩
    obtain ⟨hvals, -, hρ'⟩ := hall.assign hc ds hds hρ
    rw [holds_and, forall_mem_append, forall_mem_singleton, signedAtom_holds, hvals,
      chooseValues_meaning hI hc₁ hlen.symm (hvars []).below hfs hR hρ', hvals] at hholds
    exact hholds
  · rintro ⟨hvalues, hsign⟩
    have hds : ds.length = params.length := by rw [← hvalues.length_eq, hlen]
    obtain ⟨hvals, -, hρ'⟩ := hall.assign hc ds hds hρ
    rw [holds_and, forall_mem_append, forall_mem_singleton, signedAtom_holds, hvals,
      chooseValues_meaning hI hc₁ hlen.symm (hvars []).below hfs hR hρ', hvals]
    exact ⟨hds, hvalues, hsign⟩

/-- A comparison holds if some pair of values is in the relation. -/
theorem bodyComparison_meaning {op : Comparison} (h : Returns (bodyComparison op left right) c f c') :
    f.Holds R I σ ↔ ∃ a b, left.HasValue I ρ a ∧ right.HasValue I ρ b ∧ I.Compares op a b := by
  obtain ⟨x, y, l, r, hxy, rfl⟩ := bodyComparison_returns h
  obtain ⟨hprogram, hpair⟩ := hxy.meaning (chooseValue_meaning hI left)
    (chooseValue_meaning hI right) hc hR hρ
  rw [holds_quantified]
  simp only [Quantifier.Holds, admits_of_program (hprogram x (by simp)),
    admits_of_program (hprogram y (by simp)), true_and]
  refine exists_congr fun a => exists_congr fun b => ?_
  obtain ⟨hvals, -, hml, hmr⟩ := hpair [a, b] rfl
  show (Formula.and _).Holds R I (assign σ [x, y] [a, b]) ↔ _
  simp only [map_cons, map_nil, List.cons.injEq, and_true] at hvals
  simp only [holds_and, forall_mem_cons, not_mem_nil, false_implies,
    implies_true, and_true, hml, hmr, holds_compare, Term.value, hvals]

/-- The formula of a body literal holds if the literal does. -/
theorem bodyLiteral_meaning {l : Rule.Literal} (hl : l.HasUnsignedComparison)
    (h : Returns (bodyLiteral l) c f c') : f.Holds R I σ ↔ l.Holds I ρ := by
  rcases bodyLiteral_cases h with ⟨value, rfl, rfl, rfl⟩ | ⟨sign, name, args, rfl, h⟩ |
    ⟨sign, op, left, right, rfl, h⟩
  · exact Iff.rfl
  · exact bodyAtom_meaning hI hc hR hρ h
  · have hsign : sign = .plain := hl op left right rfl
    subst hsign
    exact bodyComparison_meaning hI hc hR hρ h

end Elements

/-- The formulas of a body hold if the body does. -/
theorem body_meaning (hI : I.Standard) {bs : List Rule.BodyLiteral} {fs : List Formula}
    (hbs : ∀ b ∈ bs, ∀ l, b.element = .literal l → l.HasUnsignedComparison) (hc : c.WellFormed)
    (h : Returns (body bs) c fs c') (hR : c'.registry.Grows R) (hρ : Agrees R c'.scope σ ρ) :
    (∀ f ∈ fs, f.Holds R I σ) ↔ ∀ b ∈ bs, b.Holds I ρ := by
  induction bs generalizing c fs with
  | nil =>
    obtain ⟨rfl, rfl⟩ := pure_iff.mp h
    simp
  | cons b bs ih =>
    simp only [body, bind_iff, pure_iff] at h
    obtain ⟨f, c₁, hf, fs, _, hfs, rfl, rfl⟩ := h
    obtain ⟨l, rfl, hl⟩ := bodyElement_cases hf
    have hy := (bodyLiteral_yields hc hl).allocates
    have hys := (body_yields (hy.wellFormed hc) hfs).allocates
    have hfirst := bodyLiteral_meaning hI hc (hys.grows.trans hR) (hρ.mono hys.scope_subset)
      (hbs _ mem_cons_self l rfl) hl
    have hrest := ih (fun b hb => hbs b (by simp [hb])) (hy.wellFormed hc) hfs
    rw [forall_mem_cons, forall_mem_cons, hfirst, hrest]
    exact Iff.rfl

end LogicProgram.Encoding
