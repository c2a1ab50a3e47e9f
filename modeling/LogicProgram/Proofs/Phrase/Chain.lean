import LogicProgram.Proofs.Phrase.Scoping
import LogicProgram.Proofs.Token.Seam

/-!
# Chains of comparisons

A chain of comparisons is the conjunction of its links. What could be something else than a
comparison is told by the first word, which is looked at in the first term of a chain only. A link
alone starts with a term from inside of the chain: where this term starts with a reserved word, the
chain is accepted and the link is not. Apart from this, and from chains that start with a negation,
a chain is accepted exactly if its links are, and means that they all hold.
-/

namespace LogicProgram

open List
open FormulaPhrase (chain)
open Token (mark listed applied joined first isWord Ends Admissible Splits)
open LogicProgram.Parser (Meets never always)

namespace FormulaParser

variable {c : FormulaContext} {ws : List Word} {n : Nat} {E : Error → Prop}
  {Q : Formula → FormulaContext → List Word → Prop}

/-- One formula, where no word comes that joins others to it. -/
theorem meets_joinAll {p : FormulaParser Formula} {connective : Connective} {t : Text} {rounds : Nat}
    (hp : Meets p c ws E Q) (hend : ∀ f c' vs, Q f c' vs → isWord (first vs) t = false) :
    Meets (joinAll connective <$> Parser.oneOrMore p (Parser.accept t) rounds) c ws E Q := by
  have hone : Meets (Parser.oneOrMore p (Parser.accept t) rounds) c ws E
      fun fs c' vs => ∃ f, fs = [f] ∧ Q f c' vs := by
    cases rounds with
    | zero => exact hp.bind fun f c' vs hf => .pure ⟨f, rfl, hf⟩
    | succ rounds => exact hp.bind fun f c' vs hf => .accept_not (hend f c' vs hf) (.pure ⟨f, rfl, hf⟩)
  refine hone.map fun fs c' vs hfs => ?_
  obtain ⟨f, rfl, hf⟩ := hfs
  exact hf

/-- The words with which it goes on after a formula. -/
def followers : List Text := ["and", "or", "->", "<-", "<->", "."]

/-- A formula without connectives is read as such where none follows. -/
theorem meets_formula_of_unary {d : Nat} (hp : Meets (unary n (formula n d) n) c ws E Q)
    (hend : ∀ f c' vs, Q f c' vs → ∀ t ∈ followers, isWord (first vs) t = false) :
    Meets (formula n (d + 1)) c ws E Q := by
  have hdisjunction : Meets (disjunction n (formula n d)) c ws E Q :=
    meets_joinAll (meets_joinAll hp fun f c' vs h => hend f c' vs h _ (by decide))
      fun f c' vs h => hend f c' vs h _ (by decide)
  have himplication : ∀ rounds, Meets (implication n (formula n d) rounds) c ws E Q := by
    intro rounds
    cases rounds with
    | zero => exact hdisjunction
    | succ rounds =>
      refine hdisjunction.bind fun f c' vs hf => .accept_not (hend f c' vs hf _ (by decide)) ?_
      have hnone : Parser.Reads acceptReverseArrow c' vs none c' vs :=
        .accept_not (hend f c' vs hf _ (by decide)) .done
      exact .of_reads (.chainLeft_end hnone n f) hf
  exact meets_joinAll (himplication n) fun f c' vs h => hend f c' vs h _ (by decide)

end FormulaParser

namespace Token

variable {w : Word}

/-- A word between a name and the rest of a comparison: a parenthesis, an operator or a relation. -/
def goesOn (w : Word) : Bool := isWord w "(" || continuesTerm w

/-- Such a word neither joins formulas nor ends them, and is no variable. -/
theorem goesOn_cases (h : goesOn w = true) : (∀ t ∈ FormulaParser.followers, isWord w t = false) ∧
    w.1 ≠ .endOfInput ∧ w.1 ≠ .variable := by
  have hfalse : ∀ t ∈ FormulaParser.followers, goesOn (.symbol, t) = false ∧
      goesOn (.identifier, t) = false := by
    decide
  refine ⟨fun t ht => not_isWord (fun hw => ?_) fun hw => ?_, ?_⟩
  · exact absurd (hw ▸ h) (by rw [(hfalse t ht).1]; decide)
  · exact absurd (hw ▸ h) (by rw [(hfalse t ht).2]; decide)
  obtain ⟨kind, value⟩ := w
  constructor
  · rintro rfl
    cases h
  · rintro rfl
    cases h

/-- The reserved words that are no negation. -/
theorem isReserved_cases (h : isReserved w = true) (hnot : isWord w "not" = false) (hkind : w.1 ≠ .symbol) :
    (∃ q, w = Token.quantifier q) ∨ ∃ directive value, w = truthWord directive value := by
  obtain ⟨kind, value⟩ := w
  have hspelled : ∀ {t : Text}, isWord (kind, value) t = true → (kind, value) = (.identifier, t) := by
    intro t ht
    simp only [isWord, Bool.and_eq_true, Bool.or_eq_true, beq_iff_eq] at ht
    rw [ht.1.resolve_left hkind, ht.2]
  simp only [isReserved, hnot, Bool.false_or, Bool.or_eq_true, Bool.and_eq_true, beq_iff_eq] at h
  rcases h with (((h | h) | h) | h) | ⟨rfl, rfl | rfl⟩
  · exact .inl ⟨.universal, hspelled h⟩
  · exact .inl ⟨.existential, hspelled h⟩
  · exact .inr ⟨false, true, hspelled h⟩
  · exact .inr ⟨false, false, hspelled h⟩
  · exact .inr ⟨true, true, rfl⟩
  · exact .inr ⟨true, false, rfl⟩

end Token

/-- After a reserved word at its start, a term goes on. -/
theorem TermPhrase.goesOn_of_isReserved {x : TermPhrase} (hx : x.Formed)
    (hreserved : Token.isReserved (first x.words) = true)
    {rest : List Word} (hrest : Token.continuesTerm (first rest) = true) :
    ∃ w us, x.words = w :: us ∧ w.1 ≠ .symbol ∧ Token.goesOn (first (us ++ rest)) = true := by
  have hgoes : Token.goesOn (first rest) = true := (Bool.or_eq_true _ _).mpr (.inr hrest)
  induction hx generalizing rest with
  | @function name args =>
    refine ⟨(.identifier, name), listed (args.map (·.words)), ?_, (by rintro ⟨⟩), ?_⟩
    · rw [words, wordsOfAll_eq_map, applied]
    · cases args with
      | nil => exact hgoes
      | cons t ts => rfl
  | @constant name => exact ⟨(.directive, name), [], rfl, (by rintro ⟨⟩), hgoes⟩
  | @binary op left right hop _ _ _ _ ihl _ =>
    rw [words, Token.first_append left.words_ne_nil] at hreserved
    have hoperator := Token.continuesTerm_operator hop
    obtain ⟨w, us, hwords, hkind, hfirst⟩ := @ihl hreserved (mark op.text :: (right.words ++ rest)) hoperator
      ((Bool.or_eq_true _ _).mpr (.inr hoperator))
    refine ⟨w, us ++ mark op.text :: right.words, by rw [words, hwords, cons_append], hkind, ?_⟩
    rwa [append_assoc]
  | _ => cases hreserved

namespace FormulaParser

variable {c : FormulaContext} {n : Nat}

/-- A comparison after a reserved word other than a negation is refused. -/
theorem meets_wholeFormula_reserved {w : Word} {vs : List Word} (hreserved : Token.isReserved w = true)
    (hnot : isWord w "not" = false) (hkind : w.1 ≠ .symbol) (hvs : Token.goesOn (first vs) = true) :
    Meets (wholeFormula (n + 1)) c (w :: vs) always fun _ _ _ => False := by
  obtain ⟨hfollowers, hend, hvariable⟩ := Token.goesOn_cases hvs
  have hunary : ∀ c, Meets (unary (n + 1) (formula (n + 1) n) (n + 1)) c (w :: vs) always
      fun _ _ us => us = vs := by
    intro c
    rcases Token.isReserved_cases hreserved hnot hkind with ⟨q, rfl⟩ | ⟨directive, value, rfl⟩
    · refine .accept_not hnot (.peek_cons fun position => ?_)
      have hquantifier : quantifier? ⟨(Token.quantifier q).1, (Token.quantifier q).2, position⟩ = some q := by
        cases q <;> rfl
      have hparameters : Meets (parameters (n + 1) []) c vs always fun scope _ _ => scope = [] := by
        refine .peek fun t ht => .ite_neg (fun hkind => hvariable ?_) (.pure rfl)
        exact (congrArg Prod.fst ht).symm.trans (beq_iff_eq.mp hkind)
      dsimp only
      rw [hquantifier]
      refine .advance (hparameters.bind fun scope c' us hscope => ?_)
      rw [hscope]
      exact .ite_pos rfl (.peek fun _ _ => Meets.bind (P := fun _ _ _ => False) (.failHere fun _ => trivial)
        fun _ _ _ h => h.elim)
    · have htruth : Consumes (primary (n + 1) (formula (n + 1) n)) c [Token.truthWord directive value] vs
          fun f c' => f = .boolean value ∧ c' = c := consumes_truth directive value
      have hprimary : Meets (primary (n + 1) (formula (n + 1) n)) c
          (Token.truthWord directive value :: vs) always
          fun _ _ us => us = vs := (htruth.mono_error fun _ h => h.elim).mono fun _ _ _ h => h.1
      refine meets_unary_of_primary ?_ ?_ ?_ hprimary _ <;> cases directive <;> cases value <;> rfl
  refine Meets.bind (P := fun _ _ us => us = vs)
    (.change { c with scopes := [], free := [] } (fun _ => rfl) ?_)
    fun f c' us hus => ?_
  · refine (meets_formula_of_unary (hunary _) fun f c' us hus => hus ▸ hfollowers).bind fun f c' us hus => ?_
    exact .get fun s hs => .ite (fun _ => .pure hus) fun _ => .throw_bind trivial
  · subst hus
    refine .accept_not (hfollowers _ (by decide)) (.atEnd (.ite_neg ?_ (.peek fun _ _ => ?_)))
    · simpa using hend
    · exact Meets.bind (P := fun _ _ _ => False) (.failHere fun _ => trivial) fun _ _ _ h => h.elim

end FormulaParser

/-- A text of a term without variables, in which no comment is open at the end. -/
structure TermText where
  text : Text
  phrase : TermPhrase
  formed : phrase.Formed
  closed : phrase.names = []
  words : Splits text phrase.words
  /-- What comes after a blank is not part of a comment. -/
  ended : Token.endsInComment text = false

namespace TermText

/-- The first word of the text. -/
def head (t : TermText) : Word := first t.phrase.words

/-- Terms with relations between them. -/
def chainText (t : TermText) : List (Comparison × TermText) → Text
  | [] => t.text
  | (op, u) :: links => t.text ++ " " ++ op.text ++ " " ++ chainText u links

/-- The comparisons of neighbours, each as a text of its own. -/
def linkTexts (t : TermText) : List (Comparison × TermText) → List Text
  | [] => []
  | (op, u) :: links => t.chainText [(op, u)] :: linkTexts u links

/-- The terms with the relations before them. -/
def phrases (links : List (Comparison × TermText)) : List (Comparison × TermPhrase) :=
  links.map fun link => (link.1, link.2.phrase)

/-- What the comparisons of neighbours mean. -/
def comparisons (t : TermText) (links : List (Comparison × TermText)) : List Formula :=
  FormulaPhrase.comparisons (t.phrase.term []) ((phrases links).map fun link => (link.1, link.2.term []))

variable {t : TermText} {links : List (Comparison × TermText)} {r r' : Registry} {f : Formula}

theorem length_comparisons : (t.comparisons links).length = links.length := by
  induction links generalizing t with
  | nil => rfl
  | cons link links ih => exact congrArg (· + 1) ih

theorem splits_relation (op : Comparison) {k : Text} {vs : List Word} (hk : Splits k vs) :
    Splits (op.text ++ (" " ++ k)) (mark op.text :: vs) := by
  have hop : ∃ b s, op.text = b :: s ∧ ∀ k, Token.segment b (s ++ (" " ++ k)) = .ok
      (.token .symbol (b :: s) s.length) := by
    cases op <;> exact ⟨_, _, rfl, fun k => rfl⟩
  obtain ⟨b, s, htext, hsegment⟩ := hop
  rw [htext]
  exact Splits.word (hsegment k) (hk.cons_blank rfl)

theorem splits_chainText (t : TermText) (links : List (Comparison × TermText)) :
    Splits (t.chainText links) (chain t.phrase (phrases links)).words := by
  induction links generalizing t with
  | nil =>
    have hwords : (chain t.phrase []).words = t.phrase.words := append_nil _
    rw [phrases, map_nil, hwords]
    exact t.words
  | cons link links ih =>
    obtain ⟨op, u⟩ := link
    have hwords : (chain t.phrase (phrases ((op, u) :: links))).words =
        t.phrase.words ++ mark op.text :: (chain u.phrase (phrases links)).words := rfl
    have htext : t.chainText ((op, u) :: links) = t.text ++ 0x20 ::
        (op.text ++ ((" " : Text) ++ u.chainText links)) := by
      rw [chainText, append_assoc, append_assoc, append_assoc]
      rfl
    rw [hwords, htext]
    exact t.words.append_cons rfl (.inr t.ended) (splits_relation op (ih u))

/-- A chain that does not start with a reserved word is accepted. -/
theorem returns_chainText (hne : links ≠ []) (hhead : Token.isReserved t.head = false) (r : Registry) :
    ∃ r', Returns (Formula.parse (t.chainText links)) r
      (FormulaParser.joinAll .and (t.comparisons links)) r' := by
  have hlinks : ∀ link ∈ phrases links, link.2.Formed ∧ link.2.names = [] := by
    intro link hlink
    obtain ⟨l, -, rfl⟩ := mem_map.mp hlink
    exact ⟨l.2.formed, l.2.closed⟩
  have hformed : (chain t.phrase (phrases links)).Formed :=
    .chain t.formed hhead (by simpa [phrases] using hne) fun link hlink => (hlinks link hlink).1
  have hclosed : (chain t.phrase (phrases links)).freeNames = [] := by
    rw [FormulaPhrase.freeNames, t.closed, nil_append, flatMap_eq_nil_iff]
    exact fun link hlink => (hlinks link hlink).2
  have hadmissible := FormulaPhrase.admissible_of_closed hformed hclosed
      fun name hname => absurd hname not_mem_nil
  have hmeets := FormulaParser.meets_wholeFormula_closed (r := r) hformed hadmissible hclosed (Nat.le_succ _)
  rcases FormulaParser.meets_onText (t.splits_chainText links) hmeets with ⟨f, c, vs, hreturns, y,
    hy, hf⟩ | ⟨e, r', -, h⟩
  · -- without quantifiers, the shape is the phrase
    cases y with
    | chain left links =>
      obtain ⟨rfl, rfl⟩ := chain.inj hy
      obtain rfl := hf.value
      exact ⟨c.registry, hreturns⟩
    | _ => cases hy
  · exact h.elim

/-- A chain after a reserved word other than a negation is refused. -/
theorem not_returns_chainText (hne : links ≠ []) (hhead : Token.isReserved t.head = true)
    (hnot : isWord t.head "not" = false) : ¬ Returns (Formula.parse (t.chainText links)) r f r' := by
  have hrest : Token.continuesTerm (first (FormulaPhrase.linkWords (phrases links))) = true := by
    cases links with
    | nil => exact absurd rfl hne
    | cons link links => exact Token.continuesTerm_comparison link.1
  obtain ⟨w, us, hwords, hkind, hgoes⟩ := TermPhrase.goesOn_of_isReserved t.formed hhead hrest
  have hfirst : t.head = w := congrArg first hwords
  have hsplits := t.splits_chainText links
  rw [FormulaPhrase.words, hwords, cons_append] at hsplits
  rw [hfirst] at hhead hnot
  intro hreturns
  rcases FormulaParser.meets_onText hsplits (FormulaParser.meets_wholeFormula_reserved
    (c := ⟨r, [], []⟩) hhead hnot
    hkind hgoes) with ⟨g, c, vs, -, h⟩ | ⟨e, r'', hfails, -⟩
  · exact h
  · exact hfails.not_returns hreturns

/-- Links without reserved words are accepted, and mean comparisons. -/
theorem forall₂_linkTexts (hhead : Token.isReserved t.head = false)
    (hmiddle : ∀ link ∈ links.dropLast, Token.isReserved link.2.head = false) (r : Registry) :
    Forall₂ (fun text f => ∃ r', Returns (Formula.parse text) r f r') (t.linkTexts links)
      (t.comparisons links) := by
  induction links generalizing t with
  | nil => exact .nil
  | cons link links ih =>
    obtain ⟨op, u⟩ := link
    refine .cons (returns_chainText (cons_ne_nil _ _) hhead r) ?_
    cases links with
    | nil => exact .nil
    | cons link links =>
      rw [dropLast_cons_cons] at hmiddle
      obtain ⟨hu, hmiddle⟩ := forall_mem_cons.mp hmiddle
      exact ih hu hmiddle

end TermText

/-- A chain of two comparisons or more is accepted exactly if its links are accepted alone, and means that
they all hold, if it does not start with a negation and no term inside of it starts with a reserved word. -/
theorem Formula.parse_chain (t : TermText) (links : List (Comparison × TermText)) (hlength : 2 ≤ links.length)
    (hnot : isWord t.head "not" = false)
    (hmiddle : ∀ link ∈ links.dropLast, Token.isReserved link.2.head = false) (r q : Registry) :
    ((∃ f r', Returns (Formula.parse (t.chainText links)) r f r') ↔
      ∀ text ∈ t.linkTexts links, ∃ f q', Returns (Formula.parse text) q f q') ∧
    ∀ f r', Returns (Formula.parse (t.chainText links)) r f r' → ∃ fs, f = .join .and fs ∧
      Forall₂ (fun text g => ∃ q', Returns (Formula.parse text) q g q') (t.linkTexts links) fs := by
  have hne : links ≠ [] := by
    rintro rfl
    cases hlength
  by_cases hhead : Token.isReserved t.head = true
  · -- The chain and its first link start with the same word.
    have hchain : ∀ f r', ¬ Returns (Formula.parse (t.chainText links)) r f r' := fun _ _ =>
      TermText.not_returns_chainText hne hhead hnot
    refine ⟨⟨fun h => ?_, fun h => ?_⟩, fun f r' h => absurd h (hchain f r')⟩
    · obtain ⟨f, r', h⟩ := h
      exact absurd h (hchain f r')
    · obtain ⟨link, links, rfl⟩ := exists_cons_of_ne_nil hne
      obtain ⟨f, q', hlink⟩ := h _ mem_cons_self
      exact absurd hlink (TermText.not_returns_chainText (cons_ne_nil _ _) hhead hnot)
  · have hhead := Bool.eq_false_iff.mpr hhead
    obtain ⟨r₁, hchain⟩ := TermText.returns_chainText hne hhead r
    have hlinks := TermText.forall₂_linkTexts hhead hmiddle q
    refine ⟨⟨fun _ => ?_, fun _ => ⟨_, r₁, hchain⟩⟩, fun f r' h => ⟨t.comparisons links, ?_, hlinks⟩⟩
    · generalize t.linkTexts links = texts at hlinks ⊢
      generalize t.comparisons links = fs at hlinks
      induction hlinks with
      | nil => exact fun text h => absurd h not_mem_nil
      | cons hlink _ ih => exact forall_mem_cons.mpr ⟨⟨_, hlink⟩, ih⟩
    · obtain ⟨rfl, -⟩ := hchain.unique h
      exact FormulaParser.joinAll_of_two (by rwa [TermText.length_comparisons])

namespace TermText

/-- A number. -/
def one : TermText where
  text := "1"
  phrase := .numeral "1"
  formed := .numeral (by decide)
  closed := rfl
  words := Splits.word (r := []) rfl Token.splits_nil
  ended := Token.endsInComment_eq_false (by decide)

/-- A function. -/
def application : TermText where
  text := "f(1)"
  phrase := .function "f" [.numeral "1"]
  formed := .function ⟨_, _, rfl, by decide, by decide +kernel⟩
    (forall_mem_singleton.mpr (.numeral (by decide)))
  closed := rfl
  words := Splits.word (r := []) rfl (Splits.word (r := []) rfl (Splits.word (r := []) rfl
    (Splits.word (r := []) rfl Token.splits_nil)))
  ended := Token.endsInComment_eq_false (by decide)

/-- A truth value. -/
def truth : TermText where
  text := "#true"
  phrase := .constant "true"
  formed := .constant (by decide)
  closed := rfl
  words := Splits.word (r := "true") rfl Token.splits_nil
  ended := Token.endsInComment_eq_false (by decide)

end TermText

/-- The last term may start with a reserved word. -/
theorem Formula.parse_chain_application :
    ((∃ f r', Returns (Formula.parse "1 < f(1) <= #true") .empty f r') ↔
      ∀ text ∈ (["1 < f(1)", "f(1) <= #true"] : List Text), ∃ f q', Returns (Formula.parse text) .empty f q') ∧
    ∀ f r', Returns (Formula.parse "1 < f(1) <= #true") .empty f r' → ∃ fs, f = .join .and fs ∧
      Forall₂ (fun text g => ∃ q', Returns (Formula.parse text) .empty g q')
        (["1 < f(1)", "f(1) <= #true"] : List Text) fs :=
  Formula.parse_chain .one [(.less, .application), (.lessOrEqual, .truth)] (by decide) rfl
    (forall_mem_singleton.mpr rfl) .empty .empty

/-- With a truth value inside of it, a chain is accepted although a link is refused. -/
theorem Formula.parse_chain_truth :
    (∃ f r', Returns (Formula.parse "1 < #true < 1") .empty f r') ∧
      ¬ ∃ f r', Returns (Formula.parse "#true < 1") .empty f r' := by
  constructor
  · obtain ⟨r', h⟩ := @TermText.returns_chainText .one [(.less, .truth), (.less, .one)] (cons_ne_nil _ _) rfl .empty
    exact ⟨_, r', h⟩
  · rintro ⟨f, r', h⟩
    exact @TermText.not_returns_chainText .truth [(.less, .one)] .empty r' f (cons_ne_nil _ _) rfl rfl h

end LogicProgram
