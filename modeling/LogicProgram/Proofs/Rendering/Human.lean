import LogicProgram.Proofs.Formula.Sorts
import LogicProgram.Proofs.Phrase.Basic
import LogicProgram.Proofs.Rendering.Naming

/-!
# Printed formulas are phrases

A formula whose names are words and whose strings are plain is printed, and the
text is split into the words of a phrase: that of the formula, with parentheses as
its levels need them.
-/

namespace LogicProgram

open List
open Token (mark joined Spells)

namespace Term

variable {P : Term → Prop}

theorem subtermsOfAll_eq_flatMap (ts : List Term) : subtermsOfAll ts = ts.flatMap (·.subterms) :=
  eq_flatMap_of_append rfl (fun _ _ => rfl) ts

theorem forall_subterms_function {name : Text} {args : List Term} :
    (∀ u ∈ (function name args).subterms, P u) ↔
      P (function name args) ∧ ∀ t ∈ args, ∀ u ∈ t.subterms, P u := by
  rw [subterms, forall_mem_cons, subtermsOfAll_eq_flatMap]
  simp only [mem_flatMap, forall_exists_index, and_imp]
  exact and_congr_right' ⟨fun h t ht u hu => h u t ht hu, fun h u t ht hu => h t ht u hu⟩

theorem forall_subterms_binary {op : Operator} {left right : Term} :
    (∀ u ∈ (binary op left right).subterms, P u) ↔
      P (binary op left right) ∧ (∀ u ∈ left.subterms, P u) ∧ ∀ u ∈ right.subterms, P u := by
  rw [subterms, forall_mem_cons, forall_mem_append]

theorem forall_subterms_unary {op : UnaryOperator} {arg : Term} :
    (∀ u ∈ (unary op arg).subterms, P u) ↔ P (unary op arg) ∧ ∀ u ∈ arg.subterms, P u := by
  rw [subterms, forall_mem_cons]

/-- A part of a term has no other variables. -/
theorem vars_subset_of_mem_subterms {t u : Term} (h : u ∈ t.subterms) : u.vars ⊆ t.vars := by
  have hall : ∀ u ∈ t.subterms, u.vars ⊆ t.vars := by
    clear h
    induction t with
    | function name args ih =>
      refine forall_subterms_function.mpr ⟨List.Subset.refl _, fun t ht u hu v hv => ?_⟩
      rw [vars_function]
      exact mem_flatMap.mpr ⟨t, ht, ih t ht u hu hv⟩
    | binary op left right ihl ihr =>
      exact forall_subterms_binary.mpr ⟨List.Subset.refl _,
        fun u hu v hv => mem_append_left _ (ihl u hu hv),
        fun u hu v hv => mem_append_right _ (ihr u hu hv)⟩
    | unary op arg ih => exact forall_subterms_unary.mpr ⟨List.Subset.refl _, ih⟩
    | interval lower upper ihl ihu =>
      rw [subterms, forall_mem_cons, forall_mem_append]
      exact ⟨List.Subset.refl _, fun u hu v hv => mem_append_left _ (ihl u hu hv),
        fun u hu v hv => mem_append_right _ (ihu u hu hv)⟩
    | _ => exact fun u hu => by rw [mem_singleton.mp hu]; exact List.Subset.refl _
  exact hall u h

/-- Words that have a meaning of their own in formulas. -/
def keywords : List Text :=
  ["not", "and", "or", "forall",
    "exists", "true", "false"]

/-- What a term needs besides its parts to be read as it is printed. -/
def Legible (r : Registry) : Term → Prop
  | .integer n => -2147483648 ≤ n ∧ n < 2147483648
  | .string s => ∀ b ∈ s, Token.isPlain b = true
  | .variable v => (r.variableDomain v).isSome
  | .function name args =>
    Token.IsIdentifier name ∧ name ∉ keywords ∧ (r.function? ⟨name, args.length⟩).isSome
  | .binary op _ _ => op ≠ .power
  | .interval _ _ => False
  | .boolean _ | .infimum | .supremum | .unary _ _ => True

end Term

namespace Formula

/-- A part of a formula has no other terms. -/
theorem terms_subset_of_mem_subformulas {f g : Formula} (h : g ∈ f.subformulas) : g.terms ⊆ f.terms := by
  have hall : ∀ g ∈ f.subformulas, g.terms ⊆ f.terms := by
    clear h
    induction f with
    | not arg ih => exact forall_subformulas_not.mpr ⟨List.Subset.refl _, ih⟩
    | implies a c iha ihc =>
      exact forall_subformulas_implies.mpr ⟨List.Subset.refl _,
        fun g hg t ht => mem_append_left _ (iha g hg ht),
        fun g hg t ht => mem_append_right _ (ihc g hg ht)⟩
    | join connective args ih =>
      refine forall_subformulas_join.mpr ⟨List.Subset.refl _, fun f hf g hg t ht => ?_⟩
      rw [terms, termsOfAll_eq_flatMap]
      exact mem_flatMap.mpr ⟨f, hf, ih f hf g hg ht⟩
    | quantified q params body ih =>
      exact forall_subformulas_quantified.mpr ⟨List.Subset.refl _, ih⟩
    | _ => exact fun g hg => by rw [mem_singleton.mp hg]; exact List.Subset.refl _
  exact hall g h

end Formula

/-- Whether the printed term starts with a truth value. -/
def Term.startsWithBoolean : Term → Bool
  | .boolean _ => true
  | .binary op left _ => !Human.leftNeedsParentheses op left && left.startsWithBoolean
  | _ => false

/-- What a formula needs besides its parts to be read as it is printed. -/
def Formula.Legible (r : Registry) : Formula → Prop
  | .compare _ left right => left.startsWithBoolean = false ∧
    (∀ u ∈ left.subterms, u.Legible r) ∧ ∀ u ∈ right.subterms, u.Legible r
  | .atom name args => Token.IsIdentifier name ∧ name ∉ Term.keywords ∧
    (r.predicate? ⟨name, args.length⟩).isSome ∧ ∀ t ∈ args, ∀ u ∈ t.subterms, u.Legible r
  | .join _ args => 2 ≤ args.length
  | .quantified _ params _ => params ≠ [] ∧ params.Nodup ∧ ∀ v ∈ params, (r.variableDomain v).isSome
  | .boolean _ | .not _ | .implies _ _ => True

/-- The word of a truth value. -/
def Token.truthValue (b : Bool) : Word := (.directive, if b then "true" else "false")

open Token (grouped listed applied)

/-- A phrase in parentheses where they are needed. -/
def TermPhrase.grouped (needed : Bool) (x : TermPhrase) : TermPhrase := if needed then .group x else x

/-- A minus sign before a phrase, which belongs to a number. -/
def TermPhrase.negated : TermPhrase → TermPhrase
  | .numeral digits => .negativeNumeral digits
  | x => .negative x

theorem TermPhrase.words_grouped (needed : Bool) (x : TermPhrase) :
    (x.grouped needed).words = Token.grouped needed x.words := by
  cases needed <;> rfl

theorem TermPhrase.words_negated (x : TermPhrase) : x.negated.words = mark "-" :: x.words := by
  cases x <;> rfl

namespace Term

mutual

/-- The phrase that is printed for a term, with names for its variables. The language has no intervals. -/
def phrase (ν : Variable → Text) : Term → TermPhrase
  | .integer n => if n < 0 then .negativeNumeral (Text.ofNat n.natAbs) else .numeral (Text.ofNat n.natAbs)
  | .boolean b => .constant (if b then "true" else "false")
  | .string s => .string s
  | .infimum => .constant "inf"
  | .supremum => .constant "sup"
  | .variable v => .variable (ν v)
  | .function name args => .function name (phraseOfAll ν args)
  | .unary .absolute arg => .absolute (arg.phrase ν)
  | .unary .negative arg => ((arg.phrase ν).grouped (0 < Human.termLevel arg)).negated
  | .binary op left right => .binary op ((left.phrase ν).grouped (Human.leftNeedsParentheses op left))
      ((right.phrase ν).grouped (Human.rightNeedsParentheses op right))
  | .interval _ _ => .constant []

/-- The phrases of several terms. -/
def phraseOfAll (ν : Variable → Text) : List Term → List TermPhrase
  | [] => []
  | t :: rest => t.phrase ν :: phraseOfAll ν rest

end

theorem phraseOfAll_eq_map (ν : Variable → Text) (ts : List Term) :
    phraseOfAll ν ts = ts.map (·.phrase ν) := eq_map_of_cons rfl (fun _ _ => rfl) ts

end Term

/-- A phrase in parentheses where they are needed. -/
def FormulaPhrase.grouped (needed : Bool) (x : FormulaPhrase) : FormulaPhrase :=
  if needed then .group x else x

theorem FormulaPhrase.words_grouped (needed : Bool) (x : FormulaPhrase) :
    (x.grouped needed).words = Token.grouped needed x.words := by
  cases needed <;> rfl

namespace Formula

mutual

/-- The phrase that is printed for a formula, with names for its variables, in which these are renamed. -/
def phrase (ν : Variable → Text) (ρ : Variable → Variable) : Formula → FormulaPhrase
  | .boolean b => .truth true b
  | .compare op left right => .chain (left.phrase ν) [(op, right.phrase ν)]
  | .atom name args => .atom name (args.map (·.phrase ν))
  | .not arg => .not ((arg.phrase ν ρ).grouped (1 < Human.formulaLevel arg))
  | .implies antecedent consequent =>
    .implies ((antecedent.phrase ν ρ).grouped (4 ≤ Human.formulaLevel antecedent))
      ((consequent.phrase ν ρ).grouped (4 ≤ Human.formulaLevel consequent))
  | .join connective args => .join connective (members ν ρ (Human.connectiveLevel connective) args)
  | .quantified q params body => .quantified q (params.map fun v => (ν v, ρ v))
      ((body.phrase ν ρ).grouped (Human.bodyNeedsParentheses body))

/-- The phrases of the formulas that a connective of a level joins. -/
def members (ν : Variable → Text) (ρ : Variable → Variable) (level : Nat) : List Formula → List FormulaPhrase
  | [] => []
  | f :: rest => (f.phrase ν ρ).grouped (level ≤ Human.formulaLevel f) :: members ν ρ level rest

end

theorem members_eq_map (ν : Variable → Text) (ρ : Variable → Variable) (level : Nat) (fs : List Formula) :
    members ν ρ level fs = fs.map fun f => (f.phrase ν ρ).grouped (level ≤ Human.formulaLevel f) :=
  eq_map_of_cons rfl (fun _ _ => rfl) fs

end Formula

/-- A step that gives names succeeds, names the variables `vs`, and its result is as `P`
says, whatever names are given later. -/
def Naming.Gives {α : Type} (r : Registry) (x : Naming α) (n : Namer) (vs : List Variable)
    (P : α → (Variable → Text) → Prop) : Prop :=
  ∃ a n', Returns x n a n' ∧ n'.WellFormed r ∧ n.Extends n' ∧
    (∀ v ∈ vs, (n'.names.lookup v).isSome) ∧ ∀ ν, n'.Agrees ν → P a ν

namespace Naming.Gives

variable {α β : Type} {r : Registry} {x : Naming α} {f : α → Naming β} {n : Namer}
  {vs us : List Variable} {P : α → (Variable → Text) → Prop} {Q : β → (Variable → Text) → Prop}

theorem pure {a : α} (hn : n.WellFormed r) (h : ∀ ν, P a ν) : Gives r (Pure.pure a) n [] P :=
  ⟨a, n, Returns.pure_iff.mpr ⟨rfl, rfl⟩, hn, .refl n, nofun,
    fun ν _ => h ν⟩

theorem bind (hx : Gives r x n vs P)
    (hf : ∀ a n', n'.WellFormed r → Gives r (f a) n' us fun b ν => P a ν → Q b ν) :
    Gives r (x >>= f) n (vs ++ us) Q := by
  obtain ⟨a, n₁, ha, hn₁, hext₁, hvs, hP⟩ := hx
  obtain ⟨b, n₂, hb, hn₂, hext₂, hus, hQ⟩ := hf a n₁ hn₁
  refine ⟨b, n₂, Returns.bind_iff.mpr ⟨a, n₁, ha, hb⟩, hn₂, hext₁.trans hext₂, ?_, ?_⟩
  · intro v hv
    rcases mem_append.mp hv with hv | hv
    · obtain ⟨name, hname⟩ := Option.isSome_iff_exists.mp (hvs v hv)
      rw [hext₂ v name hname]
      rfl
    · exact hus v hv
  · exact fun ν hν => hQ ν hν (hP ν (hν.of_extends hext₂))

theorem mono (hx : Gives r x n vs P) (h : us ⊆ vs) : Gives r x n us P := by
  obtain ⟨a, n', ha, hn', hext, hvs, hP⟩ := hx
  exact ⟨a, n', ha, hn', hext, fun v hv => hvs v (h hv), hP⟩

/-- The last step only puts the text together. -/
theorem map {g : α → β} (hx : Gives r x n vs P) (h : ∀ a ν, P a ν → Q (g a) ν) :
    Gives r (x >>= fun a => Pure.pure (g a)) n vs Q := by
  have hbind : Gives r (x >>= fun a => Pure.pure (g a)) n (vs ++ []) Q :=
    hx.bind fun a n' hn' => pure hn' fun ν => h a ν
  rwa [append_nil] at hbind

theorem nameOf {v : Variable} (hn : n.WellFormed r) (hv : (r.variableDomain v).isSome) :
    Gives r (Naming.nameOf r v) n [v] fun name ν => Spells name [(.variable, ν v)] := by
  obtain ⟨name, n', hname, hn', hext, hlookup⟩ := Naming.exists_nameOf hn hv
  refine ⟨name, n', hname, hn', hext, ?_, fun ν hν => ?_⟩
  · intro w hw
    rw [mem_singleton.mp hw, hlookup]
    rfl
  · dsimp only
    rw [hν v name hlookup]
    obtain ⟨domain, k, -, -, rfl⟩ := hn'.given v name hlookup
    exact Token.spells_variable (domain.isVariableName_name k)

end Naming.Gives

open Naming (Gives)

theorem Token.Spells.parenthesized {t : Text} {ws : List Word} (h : Spells t ws) (needed : Bool) :
    Spells (Human.parenthesized needed t) (grouped needed ws) := by
  cases needed with
  | false => exact h
  | true => exact h.group

theorem Token.spells_application {name : Text} {ts : List Text} {wss : List (List Word)}
    (hname : Token.IsIdentifier name) (h : Forall₂ Spells ts wss) :
    Spells (Human.application name ts) (applied name wss) := by
  cases h with
  | nil => exact Token.spells_identifier hname
  | cons ht hts =>
    exact (Token.spells_identifier hname).applied
      (Token.spells_join Token.separates_comma (.cons ht hts) (cons_ne_nil _ _))

namespace Human

variable {r : Registry} {n : Namer}

/-- Printing a list prints each of its members. -/
theorem gives_terms {ts : List Term} (hn : n.WellFormed r)
    (h : ∀ t ∈ ts, ∀ n : Namer, n.WellFormed r →
      Gives r (term r t) n t.vars fun text ν => Spells text (t.phrase ν).words) :
    Gives r (terms r ts) n (Term.varsOfAll ts) fun texts ν =>
      Forall₂ Spells texts (ts.map fun t => (t.phrase ν).words) := by
  induction ts generalizing n with
  | nil => exact .pure hn fun _ => .nil
  | cons t ts ih =>
    rw [forall_mem_cons] at h
    refine (h.1 n hn).bind fun text n' hn' => (ih hn' h.2).map fun texts ν htexts htext => ?_
    exact .cons htext htexts

/-- A printed term spells the words of its phrase. -/
theorem gives_term {t : Term} (ht : ∀ u ∈ t.subterms, u.Legible r) (hn : n.WellFormed r) :
    Gives r (term r t) n t.vars fun text ν => Spells text (t.phrase ν).words := by
  induction t generalizing n with
  | integer k =>
    refine .pure hn fun ν => ?_
    have hwords : ((Term.integer k).phrase ν).words = Token.numeral k := by
      rw [Term.phrase, Token.numeral, apply_ite TermPhrase.words]
      rfl
    rw [hwords]
    exact Token.spells_numeral k
  | boolean b =>
    cases b with
    | true | false => exact .pure hn fun ν => Token.spells_directive (by decide) (by decide +kernel)
  | string s => exact .pure hn fun ν => Token.spells_string (ht _ (Term.self_mem_subterms _))
  | infimum | supremum => exact .pure hn fun ν => Token.spells_directive (by decide) (by decide +kernel)
  | var v => exact Gives.nameOf hn (ht _ (Term.self_mem_subterms _))
  | function name args ih =>
    obtain ⟨hname, hargs⟩ := Term.forall_subterms_function.mp ht
    refine (gives_terms hn fun t ht' n hn => ih t ht' (hargs t ht') hn).map fun texts ν h => ?_
    rw [Term.phrase, TermPhrase.words, TermPhrase.wordsOfAll_eq_map, Term.phraseOfAll_eq_map, map_map]
    exact Token.spells_application hname.1 h
  | binary op left right ihl ihr =>
    obtain ⟨-, hl, hs⟩ := Term.forall_subterms_binary.mp ht
    refine (ihl hl hn).bind fun l n' hn' => (ihr hs hn').map fun s ν hs hl => ?_
    have hall := (hl.parenthesized (leftNeedsParentheses op left)).separated
      (Token.separates_operator op) (hs.parenthesized (rightNeedsParentheses op right))
    simpa only [Term.phrase, TermPhrase.words, TermPhrase.words_grouped, append_assoc] using hall
  | unary op arg ih =>
    obtain ⟨-, harg⟩ := Term.forall_subterms_unary.mp ht
    cases op with
    | negative =>
      refine (ih harg hn).map fun text ν h => ?_
      rw [Term.phrase, TermPhrase.words_negated, TermPhrase.words_grouped]
      exact (h.parenthesized (0 < termLevel arg)).minus
    | absolute => exact (ih harg hn).map fun text ν h => h.bars
  | interval lower upper => exact (ht _ (Term.self_mem_subterms _)).elim

theorem separates_connective (connective : Connective) :
    Token.Separates (connectiveText connective) (Token.connective connective) := by
  have hand : Token.Separates (" " ++ "and" ++ " ") (.identifier, "and") :=
    Token.separates_of_segment (by decide) fun k => rfl
  have hor : Token.Separates (" " ++ "or" ++ " ") (.identifier, "or") :=
    Token.separates_of_segment (by decide) fun k => rfl
  have hiff : Token.Separates (" " ++ "<->" ++ " ") (mark "<->") :=
    Token.separates_of_segment (by decide) fun k => rfl
  cases connective with
  | and => exact hand
  | or => exact hor
  | iff => exact hiff

/-- The variables of a quantifier are printed after anything. -/
theorem gives_parameters {vs : List Variable} (hvs : ∀ v ∈ vs, (r.variableDomain v).isSome)
    (hn : n.WellFormed r) : Gives r (parameters r vs) n vs fun text ν => ∀ t ws, Spells t ws →
      Spells (t ++ text) (ws ++ vs.map fun v => (.variable, ν v)) := by
  induction vs generalizing n with
  | nil =>
    refine .pure hn fun ν t ws h => ?_
    rwa [append_nil, map_nil, append_nil]
  | cons v vs ih =>
    rw [forall_mem_cons] at hvs
    refine (Gives.nameOf hn hvs.1).bind fun name n' hn' =>
      (ih hvs.2 hn').map fun text ν htext hname t ws h => ?_
    have hall := htext _ _ (h.blank hname)
    simpa only [append_assoc, map_cons, singleton_append] using hall

theorem gives_members {level : Nat} {fs : List Formula} (hn : n.WellFormed r)
    (h : ∀ f ∈ fs, ∀ n : Namer, n.WellFormed r →
      Gives r (formula r f) n f.binders fun text ν => Spells text (f.phrase ν id).words) :
    Gives r (members r level fs) n (Formula.bindersOfAll fs) fun texts ν =>
      Forall₂ Spells texts (FormulaPhrase.wordsOfAll (Formula.members ν id level fs)) := by
  induction fs generalizing n with
  | nil => exact .pure hn fun _ => .nil
  | cons f fs ih =>
    rw [forall_mem_cons] at h
    refine (h.1 n hn).bind fun text n' hn' => (ih hn' h.2).map fun texts ν htexts htext => ?_
    exact .cons (FormulaPhrase.words_grouped _ _ ▸ htext.parenthesized _) htexts

/-- A printed formula spells the words of its phrase. -/
theorem gives_formula {f : Formula} (hf : ∀ g ∈ f.subformulas, g.Legible r) (hn : n.WellFormed r) :
    Gives r (formula r f) n f.binders fun text ν => Spells text (f.phrase ν id).words := by
  induction f generalizing n with
  | boolean b =>
    cases b with
    | true | false => exact .pure hn fun ν => Token.spells_directive (by decide) (by decide +kernel)
  | compare op left right =>
    obtain ⟨-, hl, hs⟩ := hf _ (Formula.self_mem_subformulas _)
    have hboth : Gives r (formula r (.compare op left right)) n (left.vars ++ right.vars)
        fun text ν => Spells text ((Formula.compare op left right).phrase ν id).words := by
      refine (gives_term hl hn).bind fun l n' hn' => (gives_term hs hn').map fun s ν hs hl => ?_
      have hall := hl.separated (Token.separates_comparison op) hs
      simpa [Formula.phrase, FormulaPhrase.words, FormulaPhrase.linkWords] using hall
    exact hboth.mono (nil_subset _)
  | atom name args =>
    obtain ⟨hname, -, -, hargs⟩ := hf _ (Formula.self_mem_subformulas _)
    have hterms := gives_terms hn fun t ht n hn => gives_term (hargs t ht) hn
    refine (hterms.map fun texts ν h => ?_).mono (nil_subset _)
    rw [Formula.phrase, FormulaPhrase.words, map_map]
    exact Token.spells_application hname h
  | not arg ih =>
    obtain ⟨-, harg⟩ := Formula.forall_subformulas_not.mp hf
    refine (ih harg hn).map fun text ν h => ?_
    have hword : Spells "not" [(.identifier, "not")] :=
      Token.spells_identifier ⟨_, _, rfl, by decide, by decide +kernel⟩
    rw [Formula.phrase, FormulaPhrase.words, FormulaPhrase.words_grouped]
    exact hword.blank (h.parenthesized (1 < formulaLevel arg))
  | implies antecedent consequent iha ihc =>
    obtain ⟨-, ha, hc⟩ := Formula.forall_subformulas_implies.mp hf
    refine (iha ha hn).bind fun a n' hn' => (ihc hc hn').map fun c ν hc ha => ?_
    rw [Formula.phrase, FormulaPhrase.words, FormulaPhrase.words_grouped, FormulaPhrase.words_grouped]
    exact (ha.parenthesized _).separated Token.separates_arrow (hc.parenthesized _)
  | join connective args ih =>
    obtain ⟨hlength, hargs⟩ := Formula.forall_subformulas_join.mp hf
    have hlength : 2 ≤ args.length := hlength
    have hne : args ≠ [] := by
      rintro rfl
      cases hlength
    have hmembers : Gives r (members r (connectiveLevel connective) args) n _ _ :=
      gives_members hn fun f hmem n hn => ih f hmem (hargs f hmem) hn
    rw [formula, if_neg (by simpa using hne)]
    refine hmembers.map fun texts ν h => Token.spells_join (separates_connective connective) h ?_
    rintro rfl
    rw [FormulaPhrase.wordsOfAll_eq_map, Formula.members_eq_map, map_map] at h
    exact hne (map_eq_nil_iff.mp (forall₂_nil_left_iff.mp h))
  | quantified q params body ih =>
    obtain ⟨⟨-, -, hparams⟩, hbody⟩ := Formula.forall_subformulas_quantified.mp hf
    refine (gives_parameters hparams hn).bind fun names n' hn' =>
      (ih hbody hn').map fun text ν htext hnames => ?_
    have hword : Spells (quantifierText q) [Token.quantifier q] := by
      cases q <;> exact Token.spells_identifier ⟨_, _, rfl, by decide, by decide +kernel⟩
    rw [Formula.phrase, FormulaPhrase.words, FormulaPhrase.words_grouped, map_map]
    exact (hnames _ _ hword).blank (htext.parenthesized (bodyNeedsParentheses body))

end Human

/-- A legible formula is printed as its phrase, with names that differ. -/
theorem Formula.exists_human {r : Registry} {f : Formula} (hf : ∀ g ∈ f.subformulas, g.Legible r) :
    ∃ text ν, f.human r = .ok text ∧ Spells text (f.phrase ν id).words ∧ r.Names ν f.binders := by
  obtain ⟨text, n, hrun, hn, -, hbinders, hspells⟩ :=
    Human.gives_formula hf (Namer.wellFormed_empty r)
  have hagrees : n.Agrees fun v => (n.names.lookup v).getD [] := by
    intro v name hname
    simp only [hname, Option.getD_some]
  exact ⟨text, _, congrArg Prod.fst hrun, hspells _ hagrees, hn.names hagrees hbinders⟩

end LogicProgram
