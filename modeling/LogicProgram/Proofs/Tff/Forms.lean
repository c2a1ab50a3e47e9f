import LogicProgram.Proofs.Tff.Typing

/-!
# Typed forms

What the typed form of a formula is, as a relation: it is the form that the writer
makes, once it has given names to variables. The forms of formulas with sorts are well
sorted, and they follow the grammar.
-/

namespace LogicProgram

open List

variable {u : Term} {α β : Type} {d : Domain} {xs : List α} {us : List Term} {op : Comparison}
  {gs : List Formula}
  {t : LogicProgram.Term} {f : LogicProgram.Formula} {ts : List LogicProgram.Term}

namespace Term

end Term

namespace Formula

end Formula

namespace Tff

variable {r : Registry} {S : Signature}

/-- Terms in the places of objects. -/
def asObjects (r : Registry) : List LogicProgram.Term → List Term → List Term :=
  zipWith fun t u => embedIf (r.sortOf t == .integer) u

/-- The typed form of a term, with names for its variables. -/
inductive TermForm (r : Registry) (S : Signature) (N : Namer) : LogicProgram.Term → Term → Prop
  | integer (n : Int) : TermForm r S N (.integer n) (integer n)
  | infimum : TermForm r S N .infimum Background.infimum
  | supremum : TermForm r S N .supremum Background.supremum
  | var {v : Variable} {name : Text} (h : N.names.lookup v = some name) :
    TermForm r S N (.variable v) (.variable name)
  | function {name : Text} {args : List LogicProgram.Term} {us : List Term}
    (hname : S.Declares name (.function args.length (r.functionSort ⟨name, args.length⟩)))
    (hargs : Forall₂ (TermForm r S N) args us) :
    TermForm r S N (.function name args) (.apply name (asObjects r args us))
  | negative {arg : LogicProgram.Term} {u : Term} (hsort : r.sortOf arg = .integer)
    (h : TermForm r S N arg u) : TermForm r S N (.unary .negative arg) (negative u)
  | binary {op : LogicProgram.Term.Operator} {name : Text} {left right : LogicProgram.Term} {l s : Term}
    (hname : operatorName? op = some name) (hleft : r.sortOf left = .integer)
    (hright : r.sortOf right = .integer) (hl : TermForm r S N left l) (hs : TermForm r S N right s) :
    TermForm r S N (.binary op left right) (.apply name [l, s])

/-- Two terms in a relation. What has no predicate is an equation or its negation. -/
def relate (predicate? : Option Text) (op : Comparison) (l s : Term) : Formula :=
  match predicate? with
  | some predicate => .atom predicate [l, s]
  | none => .equation (op == .equal) l s

/-- The comparison of two terms, each an integer or an object. -/
def comparison (op : Comparison) (leftInteger rightInteger : Bool) (l s : Term) : Formula :=
  relate (if leftInteger && rightInteger then integerRelation? op else objectRelation? op) op
    (embedIf (leftInteger && !rightInteger) l) (embedIf (rightInteger && !leftInteger) s)

/-- The typed form of a variable that is bound. -/
def ParameterForm (r : Registry) (N : Namer) (v : Variable) (p : Text × Domain) : Prop :=
  N.names.lookup v = some p.1 ∧ r.variableDomain v = some p.2

/-- The typed form of a formula, with names for its variables. -/
inductive FormulaForm (r : Registry) (S : Signature) (N : Namer) : LogicProgram.Formula → Formula → Prop
  | boolean (b : Bool) : FormulaForm r S N (.boolean b) (.truth b)
  | atom {name : Text} {args : List LogicProgram.Term} {us : List Term}
    (hname : S.Declares name (.predicate args.length))
    (hargs : Forall₂ (TermForm r S N) args us) :
    FormulaForm r S N (.atom name args) (.atom name (asObjects r args us))
  | compare {op : Comparison} {left right : LogicProgram.Term} {l s : Term}
    (hl : TermForm r S N left l) (hs : TermForm r S N right s) :
    FormulaForm r S N (.compare op left right)
      (comparison op (r.sortOf left == .integer) (r.sortOf right == .integer) l s)
  | not {f : LogicProgram.Formula} {g : Formula} (h : FormulaForm r S N f g) :
    FormulaForm r S N (.not f) (.not (if isEquation f then .group g else g))
  | implies {a c : LogicProgram.Formula} {g g' : Formula} (ha : FormulaForm r S N a g)
    (hc : FormulaForm r S N c g') : FormulaForm r S N (.implies a c) (.chain .implies [g, g'])
  | and {fs : List LogicProgram.Formula} {gs : List Formula} (hlength : 2 ≤ fs.length)
    (h : Forall₂ (FormulaForm r S N) fs gs) : FormulaForm r S N (.join .and fs) (.chain .and gs)
  | or {fs : List LogicProgram.Formula} {gs : List Formula} (hlength : 2 ≤ fs.length)
    (h : Forall₂ (FormulaForm r S N) fs gs) : FormulaForm r S N (.join .or fs) (.chain .or gs)
  /-- A chain of equivalences. -/
  | iff {fs : List LogicProgram.Formula} {gs : List Formula} (hlength : 2 ≤ fs.length)
    (h : Forall₂ (FormulaForm r S N) fs gs) : FormulaForm r S N (.join .iff fs) (equivalences gs)
  | quantified {q : Quantifier} {params : List Variable} {typed : List (Text × Domain)}
    {body : LogicProgram.Formula} {g : Formula} (hne : params ≠ [])
    (hparams : Forall₂ (ParameterForm r N) params typed) (h : FormulaForm r S N body g) :
    FormulaForm r S N (.quantified q params body) (.quantified q typed g)

end Tff

/-- If a step that gives names succeeds, the names stay, and its result is as `P` says,
whatever names are given later. -/
def Naming.Makes {α : Type} (r : Registry) (x : Naming α) (n : Namer) (P : α → Namer → Prop) : Prop :=
  ∀ a n', Returns x n a n' → n'.WellFormed r ∧ n.Extends n' ∧ ∀ N, n'.Extends N → P a N

namespace Naming.Makes

variable {α β : Type} {r : Registry} {x : Naming α} {f : α → Naming β} {n : Namer}
  {P : α → Namer → Prop} {Q : β → Namer → Prop}

theorem pure {a : α} (hn : n.WellFormed r) (h : ∀ N, P a N) : Makes r (Pure.pure a) n P := by
  intro b n' hreturns
  obtain ⟨rfl, rfl⟩ := Returns.pure_iff.mp hreturns
  exact ⟨hn, .refl n, fun N _ => h N⟩

theorem throw (e : Error) : Makes r (MonadExcept.throw e) n P :=
  fun _ _ hreturns => (Returns.throw_iff.mp hreturns).elim

theorem bind (hx : Makes r x n P)
    (hf : ∀ a n', n'.WellFormed r → Makes r (f a) n' fun b N => P a N → Q b N) :
    Makes r (x >>= f) n Q := by
  intro b n'' hreturns
  obtain ⟨a, n', ha, hb⟩ := Returns.bind_iff.mp hreturns
  obtain ⟨hn', hext, hP⟩ := hx a n' ha
  obtain ⟨hn'', hext', hQ⟩ := hf a n' hn' b n'' hb
  exact ⟨hn'', hext.trans hext', fun N hN => hQ N hN (hP N (hext'.trans hN))⟩

/-- The last step only puts the result together. -/
theorem map {g : α → β} (hx : Makes r x n P) (h : ∀ a N, P a N → Q (g a) N) :
    Makes r (x >>= fun a => Pure.pure (g a)) n Q :=
  hx.bind fun a _ hn' => pure hn' fun N => h a N

theorem ofExcept {x : Except Error α} (hn : n.WellFormed r) (h : ∀ a, x = .ok a → ∀ N, P a N) :
    Makes r (Naming.ofExcept x) n P := by
  cases x with
  | error e => exact throw e
  | ok a => exact pure hn (h a rfl)

theorem domainOf (hn : n.WellFormed r) (v : Variable) :
    Makes r (Naming.domainOf r v) n fun domain _ => r.variableDomain v = some domain := by
  rw [Naming.domainOf]
  split
  · next domain hdomain => exact pure hn fun _ => hdomain
  · exact throw _

theorem nameOf (hn : n.WellFormed r) (v : Variable) :
    Makes r (Naming.nameOf r v) n fun name N => N.names.lookup v = some name := by
  intro name n' hreturns
  have hdomain : (r.variableDomain v).isSome := by
    by_contra hnone
    simp only [Naming.nameOf, Returns.bind_iff, Returns.get_iff] at hreturns
    obtain ⟨_, _, ⟨rfl, rfl⟩, hreturns⟩ := hreturns
    split at hreturns
    · next name' hlookup =>
      obtain ⟨domain, -, hdomain, -⟩ := hn.given v name' hlookup
      exact hnone (by rw [hdomain]; rfl)
    · obtain ⟨domain, n₁, hdomain, -⟩ := Returns.bind_iff.mp hreturns
      obtain ⟨-, -, hdomain⟩ := domainOf hn v domain n₁ hdomain
      exact hnone (by rw [hdomain n₁ (.refl n₁)]; rfl)
  obtain ⟨name', n₁, hname, hn₁, hext, hlookup⟩ := Naming.exists_nameOf hn hdomain
  obtain ⟨rfl, rfl⟩ := hreturns.unique hname
  exact ⟨hn₁, hext, fun N hN => hN v name hlookup⟩

end Naming.Makes

namespace Tff

open Naming (Makes)

variable {r : Registry} {S : Signature} {n : Namer}

namespace Signature.Proper

variable {name : Text} {T : SymbolType}

theorem isWord (hS : S.Proper) (h : S.Declares name T) : IsWord .identifier name := (hS.word _ h.1).1

theorem declares_embed (hS : S.Proper) : S.Declares "f__integer__" ⟨[.integer], some .program⟩ :=
  hS.builtIn (_, _) (by decide)

theorem declares_infimum (hS : S.Proper) : S.Declares "c__infimum__" ⟨[], some .program⟩ :=
  hS.builtIn (_, _) (by decide)

theorem declares_supremum (hS : S.Proper) : S.Declares "c__supremum__" ⟨[], some .program⟩ :=
  hS.builtIn (_, _) (by decide)

theorem declares_negative (hS : S.Proper) : S.Declares "$uminus" ⟨[.integer], some .integer⟩ :=
  hS.builtIn (_, _) (by decide)

theorem declares_operator (hS : S.Proper) {op : LogicProgram.Term.Operator}
    (h : operatorName? op = some name) : S.Declares name ⟨[.integer, .integer], some .integer⟩ := by
  refine hS.builtIn (_, _) ?_
  cases op <;> cases h <;> decide

end Signature.Proper

section

variable {N : Namer} {Γ : Context}

/-- What holds of each term in the place of an object holds of all of them. -/
theorem forall_mem_asObjects {P : Term → Prop} (h : Forall₂ (TermForm r S N) ts us)
    (hP : ∀ t ∈ ts, ∀ u, TermForm r S N t u → P (embedIf (r.sortOf t == .integer) u)) :
    ∀ w ∈ asObjects r ts us, P w := by
  induction h with
  | nil => exact nofun
  | cons htu _ ih =>
    rw [forall_mem_cons] at hP
    exact forall_mem_cons.mpr ⟨hP.1 _ htu, ih hP.2⟩

theorem length_asObjects
    (h : Forall₂ (TermForm r S N) ts us) : (asObjects r ts us).length = ts.length := by
  rw [asObjects, length_zipWith, ← h.length_eq, Nat.min_self]

/-- A comparison that is no equation is an atom. -/
theorem comparison_isEquation (h : (op == .equal || op == .notEqual) = false)
    (leftInteger rightInteger : Bool) (l s : Term) :
    (comparison op leftInteger rightInteger l s).isEquation = false := by
  cases op <;> cases leftInteger <;> cases rightInteger <;> first | rfl | cases h

/-- Two equivalences stand in one chain, and more in a conjunction of chains. -/
theorem equivalences_cases (h : 2 ≤ gs.length) :
    (∃ f g, gs = [f, g] ∧ equivalences gs = .chain .iff [f, g]) ∨
      (equivalences gs = .chain .and (neighbours gs) ∧ 2 ≤ (neighbours gs).length) := by
  rcases gs with _ | ⟨f, _ | ⟨g, _ | ⟨g', gs⟩⟩⟩
  · cases h
  · simp at h
  · exact .inl ⟨f, g, rfl, rfl⟩
  · exact .inr ⟨rfl, by simp [neighbours]⟩

theorem FormulaForm.isEquation {g : Formula} (h : FormulaForm r S N f g)
    (hf : Tff.isEquation f = false) : g.isEquation = false := by
  cases h with
  | compare hl hs => exact comparison_isEquation hf _ _ _ _
  | iff hlength h =>
    rcases equivalences_cases (h.length_eq ▸ hlength) with
      ⟨f, g, -, heq⟩ | ⟨heq, -⟩ <;> rw [heq] <;> rfl
  | _ => rfl

/-- The variables of a list are in scope with the sorts that they have. -/
def Context.Knows (Γ : Context) (r : Registry) (N : Namer) (vs : List Variable) : Prop :=
  ∀ v ∈ vs, ∀ name, N.names.lookup v = some name → Γ name = r.variableDomain v

/-- The names of the variables in scope can be written. -/
def Context.Written (Γ : Context) : Prop := ∀ name d, Γ name = some d → IsWord .variable name

theorem Context.Written.bind (h : Γ.Written) {typed : List (Text × Domain)}
    (htyped : ∀ p ∈ typed, IsWord .variable p.1) : (Γ.bind typed).Written := by
  induction typed generalizing Γ with
  | nil => exact h
  | cons p typed ih =>
    rw [forall_mem_cons] at htyped
    refine @ih (Function.update Γ p.1 (some p.2)) (fun name d hname => ?_) htyped.2
    by_cases heq : name = p.1
    · exact heq ▸ htyped.1
    · exact h name d (by rwa [Function.update_of_ne heq] at hname)

theorem Context.Knows.mono {vs us : List Variable} (h : Γ.Knows r N vs) (hus : us ⊆ vs) :
    Γ.Knows r N us := fun v hv => h v (hus hv)

/-- Variables that a quantifier binds come into scope. -/
theorem Context.Knows.bind (hN : N.WellFormed r) {params : List Variable} {typed : List (Text × Domain)}
    (hparams : Forall₂ (ParameterForm r N) params typed) {vs : List Variable} (h : Γ.Knows r N vs) :
    (Γ.bind typed).Knows r N (params ++ vs) := by
  induction hparams generalizing Γ vs with
  | nil => exact h
  | @cons v p params typed hp _ ih =>
    have hnext : Context.Knows (Function.update Γ p.1 (some p.2)) r N (v :: vs) := by
      intro w hw name hname
      by_cases heq : name = p.1
      · obtain rfl := hN.distinct w v name hname (heq ▸ hp.1)
        rw [heq, Function.update_self, hp.2]
      · rw [Function.update_of_ne heq]
        rcases mem_cons.mp hw with rfl | hw
        · exact absurd (Option.some.inj (hname.symm.trans hp.1)) heq
        · exact h w hw name hname
    refine (ih hnext).mono fun w hw => ?_
    simp only [mem_cons, mem_append] at hw ⊢
    tauto

theorem forall₂_replicate {R : α → β → Prop} {b : β} (h : ∀ x ∈ xs, R x b) :
    Forall₂ R xs (List.replicate xs.length b) := by
  induction xs with
  | nil => exact .nil
  | cons x xs ih =>
    rw [forall_mem_cons] at h
    exact .cons h.1 (ih h.2)

theorem hasSort_embedIf (hS : S.Proper) (hu : u.HasSort S Γ d) :
    (embedIf (d == .integer) u).HasSort S Γ .program := by
  cases d with
  | program => exact hu
  | integer => exact .apply hS.declares_embed (.cons hu .nil)

theorem hasSort_asObjects (hS : S.Proper) (h : Forall₂ (TermForm r S N) ts us)
    (hsort : ∀ t ∈ ts, ∀ u, TermForm r S N t u → u.HasSort S Γ (r.sortOf t)) :
    Forall₂ (Term.HasSort S Γ) (asObjects r ts us) (List.replicate ts.length .program) := by
  rw [← length_asObjects h]
  exact forall₂_replicate (forall_mem_asObjects h fun t ht u hu => hasSort_embedIf hS (hsort t ht u hu))

/-- The typed form of a term has its sort. -/
theorem TermForm.hasSort (hS : S.Proper) (h : TermForm r S N t u)
    (hN : N.WellFormed r) (hΓ : Γ.Knows r N t.vars) : u.HasSort S Γ (r.sortOf t) := by
  induction t generalizing u with
  | integer k =>
    cases h
    rw [Tff.integer]
    split
    · exact .apply hS.declares_negative (.cons (.numeral _) .nil)
    · exact .numeral _
  | infimum => cases h; exact .apply hS.declares_infimum .nil
  | supremum => cases h; exact .apply hS.declares_supremum .nil
  | var v =>
    cases h with
    | @var _ name hname =>
      obtain ⟨domain, -, hdomain, -⟩ := hN.given v name hname
      refine .var ?_
      rw [hΓ v mem_cons_self name hname, Registry.sortOf, hdomain]
      rfl
  | function name args ih =>
    cases h with
    | function hname hargs =>
      refine .apply hname (hasSort_asObjects hS hargs fun t ht u hu => ih t ht hu (hΓ.mono ?_))
      rw [LogicProgram.Term.vars_function]
      exact fun v hv => mem_flatMap.mpr ⟨t, ht, hv⟩
  | unary op arg ih =>
    cases h with
    | negative hsort harg => exact .apply hS.declares_negative (.cons (hsort ▸ ih harg hΓ) .nil)
  | binary op left right ihl ihr =>
    cases h with
    | binary hname hleft hright hl hs =>
      refine .apply (hS.declares_operator hname) (.cons ?_ (.cons ?_ .nil))
      · exact hleft ▸ ihl hl (hΓ.mono (subset_append_left _ _))
      · exact hright ▸ ihr hs (hΓ.mono (subset_append_right _ _))
  | _ => cases h

end

end Tff

end LogicProgram
