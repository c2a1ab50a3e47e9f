import LogicProgram.Proofs.Encoding.Scoping
import LogicProgram.Proofs.Rule.Runs

/-!
# Printing and reading rules

A rule that was read and that has a first-order reading is printed, and the printed
text is read as the same rule. Its strings have to be plain. Nor may an interval be an
operand, since intervals are the one operation that is printed without parentheses:
the sum of `1..2` and `3` is printed like the interval from `1` to `2 + 3`.
-/

namespace LogicProgram

open List
open Token (mark joined truthValue first isWord)

namespace Rule

open LogicProgram.Parser (Reads Meets always never)

namespace Grammar

variable {a : Atom} {l : Literal} {ws : List Word} {ls : List Literal}

variable {n : Nat} {rest : List Word}

/-- What comes after the terms of a literal: neither an operator nor a relation. -/
structure EndsLiteral (rest : List Word) : Prop where
  closes : Closes 4 rest
  comparison : ∀ t : Token, t.word = first rest → comparison? t = none

/-- The marks that come after literals. -/
def literalMarks : List Text := List.map Text.ofString [",", ":-", ".", "\x7d"]

/-- What can stand after a literal ends it. -/
theorem endsLiteral_mark {t : Text} (ht : t ∈ literalMarks) (rest : List Word) :
    EndsLiteral (mark t :: rest) := by
  have hclosed : ∀ t ∈ literalMarks, 4 < rank (mark t) ∧ Comparison.ofText? t = none ∧
      t ≠ "==" ∧ t ≠ "<>" := by
    decide
  obtain ⟨hrank, hnone, hequal, hdiffers⟩ := hclosed t ht
  refine ⟨hrank, fun token htoken => ?_⟩
  obtain ⟨kind, value, position⟩ := token
  obtain ⟨rfl, rfl⟩ : kind = .symbol ∧ value = t := Prod.mk.inj htoken
  simp [comparison?, hnone, hequal, hdiffers]

/-- No comparison is read where a literal ends. -/
theorem reads_no_comparison (h : EndsLiteral rest) : Reads acceptComparison () rest none () rest := by
  refine .peek fun t ht => ?_
  rw [h.comparison t ht]
  exact .done

/-- A comparison is told by its text. -/
theorem comparison?_text (op : Comparison) (position : Position) :
    comparison? ⟨.symbol, op.text, position⟩ = some op := by
  cases op <;> rfl

/-- A printed comparison is read as that comparison. -/
theorem reads_comparison (op : Comparison) (rest : List Word) :
    Reads acceptComparison () (mark op.text :: rest) (some op) () rest := by
  refine .peek_cons fun position => ?_
  rw [comparison?_text]
  exact .advance .done

/-- A comparison ends the term before it. -/
theorem closes_comparison (op : Comparison) (rest : List Word) : Closes 4 (mark op.text :: rest) := by
  refine closes_cons ?_
  cases op <;> decide

/-- A word that an atom may start with. -/
def OpensAtom (w : Word) : Prop := Opens w ∨ ∃ value, w = truthValue value

/-- No atom starts with a negation. -/
theorem OpensAtom.isWord_not {w : Word} (h : OpensAtom w) : isWord w "not" = false := by
  rcases h with h | ⟨value, rfl⟩
  · exact h.isWord_not
  · rfl

/-- No atom starts with a mark that opens no term. -/
theorem OpensAtom.isWord_eq_false {w : Word} {t : Text} (h : OpensAtom w) (ht : t ∉ openers)
    (hlower : Text.isLower (t.headD 0) = false) : isWord w t = false := by
  rcases h with h | ⟨value, rfl⟩
  · exact h.isWord_eq_false ht hlower
  · rfl

/-- No atom starts with the end. -/
theorem OpensAtom.ne_endOfInput {w : Word} (h : OpensAtom w) : w.1 ≠ .endOfInput := by
  obtain ⟨kind, value⟩ := w
  rintro rfl
  rcases h with h | ⟨b, hb⟩
  · exact h
  · cases hb

/-- No aggregate and no directive starts like an atom. -/
theorem OpensAtom.not_foreign {t : Token} (h : OpensAtom t.word) : isForeignDirective t = false := by
  obtain ⟨kind, value, position⟩ := t
  have hknown : ∀ name ∈ literalDirectives, isForeignDirective ⟨.directive, name, position⟩ = false := by
    intro name hname
    simp [isForeignDirective, hname]
  rcases h with h | ⟨b, hb⟩
  · cases kind with
    | directive =>
      refine hknown value ?_
      rcases h with rfl | rfl <;> decide
    | _ => rfl
  · obtain ⟨rfl, rfl⟩ := Prod.mk.inj hb
    refine hknown _ ?_
    cases b <;> decide

/-- The words of an atom start like one. -/
theorem opensAtom_words (ha : ∀ t ∈ a.terms, Readable t) (rest : List Word) :
    OpensAtom (first (a.words ++ rest)) := by
  cases a with
  | boolean value => exact .inr ⟨value, rfl⟩
  | symbolic t => exact .inl (opens_words (ha t mem_cons_self) rest)
  | comparison op left right =>
    rw [Atom.words, append_assoc]
    exact .inl (opens_words (ha left mem_cons_self) _)

/-- A term is no truth value. -/
theorem reads_atom_of_opens {vs : List Word} (hws : Opens (first ws)) (h : Reads (do
      let left ← term n n
      match ← acceptComparison with
      | some op => return .comparison op left (← term n n)
      | none => return .symbolic left) () ws a () vs) : Reads (atom n) () ws a () vs := by
  refine .peek fun t ht => ?_
  have hno : ∀ name : Text, name ≠ "inf" → name ≠ "sup" →
      ¬ (t.kind == .directive && t.value == name) = true := by
    intro name hinf hsup hboth
    obtain ⟨kind, value, position⟩ := t
    rw [Bool.and_eq_true, beq_iff_eq, beq_iff_eq] at hboth
    obtain ⟨rfl, rfl⟩ := hboth
    rw [← ht] at hws
    exact hws.elim hinf hsup
  exact .ite_neg (hno _ (by decide) (by decide))
    (.ite_neg (hno _ (by decide) (by decide)) h)

/-- The words of a printed atom are read as the atom, before what ends a literal. -/
theorem reads_atom (ha : ∀ t ∈ a.terms, Readable t) (hsize : a.words.length ≤ n)
    (hrest : EndsLiteral rest) : Reads (atom n) () (a.words ++ rest) a () rest := by
  have hT := readsTerms_term n (Nat.le_refl n)
  cases a with
  | boolean value =>
    cases value with
    | true => exact .peek_cons fun _ => .ite_pos rfl (.advance .done)
    | false =>
      exact .peek_cons fun _ => .ite_neg Bool.false_ne_true
        (.ite_pos rfl (.advance .done))
  | symbolic t =>
    have ht := ha t mem_cons_self
    refine reads_atom_of_opens (opens_words ht rest) ?_
    exact (hT.term t rest ht hsize hrest.closes).bind ((reads_no_comparison hrest).bind .done)
  | comparison op left right =>
    have hl := ha left mem_cons_self
    have hr := ha right (mem_cons_of_mem _ mem_cons_self)
    rw [Atom.words, length_append, length_cons] at hsize
    rw [Atom.words, append_assoc, cons_append]
    refine reads_atom_of_opens (opens_words hl _) ?_
    refine (hT.term left _ hl (by omega) (closes_comparison op _)).bind ((reads_comparison op _).bind ?_)
    exact (hT.term right rest hr (by omega) hrest.closes).bind .done

/-- The negations of a literal are read as its sign. -/
theorem reads_sign (s : Sign) (hws : OpensAtom (first ws)) :
    Reads sign () (s.words ++ ws) s () ws := by
  cases s with
  | plain => exact .accept_not hws.isWord_not .done
  | negated =>
    exact .accept_cons rfl (.accept_not hws.isWord_not .done)
  | doublyNegated => exact .accept_cons rfl (.accept_cons rfl .done)

/-- The words of a printed literal are read as the literal. -/
theorem reads_literal (hl : ∀ t ∈ l.terms, Readable t) (hsize : l.words.length ≤ n)
    (hrest : EndsLiteral rest) : Reads (literal n) () (l.words ++ rest) l () rest := by
  have hatom : l.atom.words.length ≤ n := by
    rw [Literal.words, length_append] at hsize
    omega
  rw [Literal.words, append_assoc]
  exact (reads_sign l.sign (opensAtom_words hl rest)).bind ((reads_atom hl hatom hrest).bind .done)

/-- The next two words of a literal start no aggregate. -/
theorem reads_bodyLiteral (hl : ∀ t ∈ l.terms, Readable t) (hsize : l.words.length ≤ n)
    (hrest : EndsLiteral rest) (hcolon : isWord (first rest) ":" = false) :
    Reads (bodyLiteral n) () (l.words ++ rest) ⟨.plain, .literal l⟩ () rest := by
  have hread : Reads (do
      let head ← literal n
      unless ← Parser.accept ":" do return ⟨.plain, .literal head⟩
      let condition ← Parser.oneOrMore (literal n) (Parser.accept ",") n
      return ⟨.plain, .conditional ⟨head, condition⟩⟩) () (l.words ++ rest)
      (⟨.plain, .literal l⟩ : BodyLiteral) () rest :=
    (reads_literal hl hsize hrest).bind (.accept_not hcolon .done)
  have hopens := opensAtom_words (a := l.atom) hl rest
  obtain ⟨sign, atom⟩ := l
  have hfirst : ∀ {w : Word} {ws : List Word}, sign.words ++ (atom.words ++ rest) = w :: ws →
      (OpensAtom w ∨ isWord w "not" = true ∧ w.1 = .identifier ∧
        (OpensAtom (first ws) ∨ (first ws).1 = .identifier)) := by
    intro w ws hws
    cases sign with
    | plain =>
      rw [Sign.words, nil_append] at hws
      rw [hws] at hopens
      exact .inl hopens
    | negated =>
      obtain ⟨rfl, rfl⟩ := cons_eq_cons.mp hws
      exact .inr ⟨rfl, rfl, .inl hopens⟩
    | doublyNegated =>
      obtain ⟨rfl, rfl⟩ := cons_eq_cons.mp hws
      exact .inr ⟨rfl, rfl, .inr rfl⟩
  rw [Literal.words, append_assoc] at hread ⊢
  cases hwords : sign.words ++ (atom.words ++ rest) with
  | nil =>
    -- a literal has words, at least those of its atom
    obtain ⟨-, hnil⟩ := append_eq_nil_iff.mp hwords
    rw [hnil] at hopens
    rcases hopens with h | ⟨value, h⟩
    · exact h.elim
    · cases h
  | cons w ws =>
    rw [hwords] at hread
    refine .peek fun t ht => .peekAt_one fun u hu => .ite_neg ?_ hread
    have hidentifier : ∀ {v : Token}, v.word.1 = .identifier → isForeignDirective v = false := by
      intro v hv
      have hkind : v.kind = .identifier := hv
      rw [isForeignDirective, hkind]
      rfl
    rw [Bool.not_eq_true, Bool.or_eq_false_iff, Bool.and_eq_false_iff]
    rcases hfirst hwords with h | ⟨-, hkind, hnext⟩
    · have htoken : OpensAtom t.word := by rwa [ht]
      refine ⟨htoken.not_foreign, .inl ?_⟩
      exact htoken.isWord_not
    · refine ⟨hidentifier (by rwa [ht]), .inr ?_⟩
      rcases hnext with h | h
      · exact OpensAtom.not_foreign (by rwa [hu])
      · exact hidentifier (by rwa [hu])

/-- A body of literals with commas between them. -/
theorem reads_body (hls : ∀ l' ∈ l :: ls, ∀ t ∈ l'.terms, Readable t)
    (hsize : (joined (mark ",") ((l :: ls).map (·.words))).length ≤ n) {rounds : Nat}
      (hrounds : ls.length ≤ rounds)
    (rest : List Word) : Reads (Parser.oneOrMore (bodyLiteral n) acceptBodySeparator rounds) ()
      (joined (mark ",") ((l :: ls).map (·.words)) ++ mark "." :: rest)
      ((l :: ls).map fun l => ⟨.plain, .literal l⟩) () (mark "." :: rest) := by
  have hmore : ∀ rest, Reads acceptBodySeparator () (mark "," :: rest) true () rest := fun rest =>
    .accept_cons rfl .done
  have hend : Reads acceptBodySeparator () (mark "." :: rest) false () (mark "." :: rest) :=
    .accept_not rfl (Reads.declines rfl ())
  refine Reads.separated (E := fun rest => EndsLiteral rest ∧ isWord (first rest) ":" = false)
    (fun l' hl' rest hrest => reads_bodyLiteral (hls l' hl') ?_ hrest.1 hrest.2) hmore
    (fun rest => ⟨endsLiteral_mark (by decide) rest, rfl⟩)
      ⟨endsLiteral_mark (by decide) rest, rfl⟩ hend hrounds
  exact Nat.le_trans (Token.length_le_joined (mem_map_of_mem hl')) hsize

/-- The marks that come after heads. -/
def headMarks : List Text := List.map Text.ofString [":-", "."]

/-- What can stand after a head ends a literal and continues no head. -/
theorem headMarks_cases : ∀ t ∈ headMarks, t ∈ literalMarks ∧ isWord (mark t) ":" = false ∧
    isWord (mark t) ";" = false ∧ isWord (mark t) "|" = false ∧ isWord (mark t) "\x7b" = false := by
  decide

/-- No term starts with a truth value. -/
theorem meets_term_truthValue (n depth : Nat) (value : Bool) (rest : List Word) :
    Meets (term n depth) () (truthValue value :: rest) always fun _ _ _ => False := by
  cases depth with
  | zero => exact .throw trivial
  | succ depth =>
    have hprimary : Meets (primary n (term n depth)) () (truthValue value :: rest) always
        fun _ _ _ => False := by
      refine Meets.peek_cons fun position => ?_
      cases value with
      | true | false =>
        exact .ite_neg Bool.false_ne_true (.ite_neg Bool.false_ne_true (.failHere fun _ => trivial))
    have hunary : ∀ rounds, Meets (unary n (term n depth) rounds) () (truthValue value :: rest) always
        fun _ _ _ => False := by
      intro rounds
      cases rounds with
      | zero => exact hprimary
      | succ rounds => exact .accept_not rfl (.accept_not rfl hprimary)
    have hpowers : Meets (Parser.oneOrMore (unary n (term n depth) n) (Parser.accept "**") n) ()
        (truthValue value :: rest) always fun _ _ _ => False := by
      cases n with
      | zero => exact (hunary 0).bind fun _ _ _ h => h.elim
      | succ n => exact (hunary (n + 1)).bind fun _ _ _ h => h.elim
    have hpower : Meets (power n (term n depth)) () (truthValue value :: rest) always fun _ _ _ => False :=
      hpowers.map fun _ _ _ h => h
    have hproduct : Meets (multiplicative n (term n depth)) () (truthValue value :: rest) always
        fun _ _ _ => False := hpower.bind fun _ _ _ h => h.elim
    have hsum : Meets (additive n (term n depth)) () (truthValue value :: rest) always fun _ _ _ => False :=
      hproduct.bind fun _ _ _ h => h.elim
    exact hsum.bind fun _ _ _ h => h.elim

/-- The atoms that heads have. -/
def IsHeadAtom (a : Atom) : Prop := (∃ value, a = .boolean value) ∨ ∃ t, a = .symbolic t

/-- What is before a brace is a bound, and an atom is before none. -/
theorem meets_leftGuard (ha : IsHeadAtom a) (hterms : ∀ t ∈ a.terms, Readable t)
    (hsize : a.words.length ≤ n) (hrest : EndsLiteral rest) (hbrace : isWord (first rest) "\x7b" = false) :
    Meets (leftGuard n) () (a.words ++ rest) always fun o _ _ => o = none := by
  rcases ha with ⟨value, rfl⟩ | ⟨t, rfl⟩
  · exact (meets_term_truthValue n n value rest).bind fun _ _ _ h => h.elim
  · have hterm := (readsTerms_term n (Nat.le_refl n)).term t rest (hterms t mem_cons_self) hsize hrest.closes
    exact hterm.bind (.isAt hbrace ((reads_no_comparison hrest).bind (.pure rfl)))

/-- Without a colon after it a literal of a head has no condition. -/
theorem reads_conditionalLiteral (hl : ∀ t ∈ l.terms, Readable t) (hsize : l.words.length ≤ n)
    (hrest : EndsLiteral rest) (hcolon : isWord (first rest) ":" = false) :
    Reads (conditionalLiteral n) () (l.words ++ rest) ⟨l, []⟩ () rest :=
  (reads_literal hl hsize hrest).bind (.accept_not hcolon .done)

/-- A head is split into words that are read as the head, before everything that follows heads. -/
structure Rereads (h : Head) (ws : List Word) : Prop where
  spells : Token.Spells h.text ws
  /-- The first word is neither a directive nor an arrow. -/
  starts : ∀ rest (t : Token), t.word = first (ws ++ rest) →
    isForeignDirective t = false ∧ isWord t.word ":-" = false
  proper : ∀ rest, (first (ws ++ rest)).1 ≠ .endOfInput
  reads : ∀ n t rest, ws.length ≤ n → t ∈ headMarks →
    Reads (head n) () (ws ++ mark t :: rest) h () (mark t :: rest)

/-- A head that is a literal without sign is read as it is printed. -/
theorem rereads_literal (ha : IsHeadAtom a) (hplain : Literal.Plain ⟨.plain, a⟩)
    (hterms : ∀ t ∈ a.terms, Readable t) : Rereads (.literal ⟨.plain, a⟩) a.words where
  spells := spells_literal hplain
  starts := fun rest t ht => by
    have hopens : OpensAtom t.word := ht ▸ opensAtom_words hterms rest
    exact ⟨hopens.not_foreign, hopens.isWord_eq_false (by decide) rfl⟩
  proper := fun rest => (opensAtom_words hterms rest).ne_endOfInput
  reads := fun n t rest hsize ht => by
    obtain ⟨hliteral, hcolon, hsemicolon, hbar, hbrace⟩ := headMarks_cases t ht
    have hends := endsLiteral_mark hliteral rest
    have hopens := opensAtom_words hterms (mark t :: rest)
    have hone : Reads (conditionalLiteral n) () (a.words ++ mark t :: rest) ⟨⟨.plain, a⟩, []⟩ ()
        (mark t :: rest) :=
      reads_conditionalLiteral (l := ⟨.plain, a⟩) hterms hsize hends hcolon
    have hnext : isWord (first (mark t :: rest)) ";" = false ∧ isWord (first (mark t :: rest)) "|" = false :=
      ⟨hsemicolon, hbar⟩
    have hend : Reads acceptDisjunctSeparator () (mark t :: rest) false () (mark t :: rest) :=
      .accept_not hnext.1 (Reads.declines hnext.2 ())
    exact .isAt (hopens.isWord_eq_false (by decide) rfl)
      ((Reads.attempt_none (meets_leftGuard ha hterms hsize hends hbrace)).bind
      ((hone.oneOrMore_one hend n).bind .done))

/-- A choice of one atom. -/
theorem rereads_choice {t : Term} (hplain : Literal.Plain ⟨.plain, .symbolic t⟩) (ht : Readable t) :
    Rereads (.choice none none [⟨⟨.plain, .symbolic t⟩, []⟩]) (mark "\x7b" :: t.words ++ [mark "\x7d"]) where
  spells := by
    have hbraces := spells_braces (spells_literal hplain)
    have htext : (Head.choice none none [⟨⟨.plain, .symbolic t⟩, []⟩]).text =
        "\x7b" ++ Literal.text ⟨.plain, .symbolic t⟩ ++ "\x7d" := append_nil _
    rw [htext]
    exact hbraces
  starts := fun rest u hu => by
    obtain ⟨kind, value, position⟩ := u
    obtain ⟨rfl, rfl⟩ := Prod.mk.inj hu
    exact ⟨rfl, rfl⟩
  proper := fun _ h => nomatch h
  reads := fun n u rest hsize hu => by
    obtain ⟨hliteral, -⟩ := headMarks_cases u hu
    have hterms : ∀ v ∈ (Atom.symbolic t).terms, Readable v := forall_mem_singleton.mpr ht
    have hlength : (Atom.symbolic t).words.length ≤ n := by
      rw [length_append, length_cons] at hsize
      exact Nat.le_trans (by rw [Atom.words]; omega) hsize
    have hclose := (opens_words ht (mark "\x7d" :: mark u :: rest)).isWord_eq_false (t := "\x7d") (by decide) rfl
    have hone : Reads (conditionalLiteral n) () (t.words ++ mark "\x7d" :: mark u :: rest)
        ⟨⟨.plain, .symbolic t⟩, []⟩ () (mark "\x7d" :: mark u :: rest) :=
      reads_conditionalLiteral (l := ⟨.plain, .symbolic t⟩) hterms hlength
        (endsLiteral_mark (by decide) _) rfl
    have hright : Reads (rightGuard n) () (mark u :: rest) none () (mark u :: rest) :=
      (reads_no_comparison (endsLiteral_mark hliteral rest)).bind
        (.peek_cons fun _ => .ite_neg Bool.false_ne_true .done)
    have hchoice : Reads (choice n none) () (mark "\x7b" :: (t.words ++ mark "\x7d" :: mark u :: rest))
        (.choice none none [⟨⟨.plain, .symbolic t⟩, []⟩]) () (mark u :: rest) :=
      (reads_expect rfl _).bind (.isAt hclose ((hone.oneOrMore_one (.declines rfl ()) n).bind
        ((reads_expect rfl _).bind (hright.bind .done))))
    have hwords : mark "\x7b" :: t.words ++ [mark "\x7d"] ++ mark u :: rest =
        mark "\x7b" :: (t.words ++ mark "\x7d" :: mark u :: rest) := by
      simp
    rw [hwords]
    exact .isAt rfl hchoice

/-- A rule is read from the words of its head and its literals. -/
theorem meets_rule {h : Head} (hh : Rereads h ws)
    (hls : ∀ l ∈ ls, ∀ t ∈ l.terms, Readable t) (hsize : (ruleWords ws (ls.map (·.words))).length ≤ n) :
    Meets (rule n) () (ruleWords ws (ls.map (·.words))) never fun r _ vs =>
      r.head = h ∧ r.body = ls.map (fun l => ⟨.plain, .literal l⟩) ∧ vs = [] := by
  have hstop : ∀ (b : List BodyLiteral) (line : Nat), Meets (do
      expect "."
      return (⟨h, b, line⟩ : Rule)) () [mark "."] never fun r _ vs => r.head = h ∧ r.body = b ∧ vs = [] :=
    fun b line => (reads_expect rfl []).bind (.pure ⟨rfl, rfl, rfl⟩)
  cases ls with
  | nil =>
    have hwords : ruleWords ws (([] : List Literal).map (·.words)) = ws ++ [mark "."] := by simp [ruleWords]
    rw [hwords] at hsize ⊢
    rw [length_append] at hsize
    refine Meets.peek fun t ht => ?_
    obtain ⟨hforeign, harrow⟩ := hh.starts [mark "."] t ht
    exact .ite_neg (Bool.not_eq_true _ ▸ hforeign) (.isAt (ht ▸ harrow)
      ((hh.reads n "." [] (by omega) (by decide)).bind (.accept_not rfl (.pure_bind (hstop [] _)))))
  | cons l ls =>
    have hwords : ruleWords ws ((l :: ls).map (·.words)) =
        ws ++ mark ":-" :: (joined (mark ",") ((l :: ls).map (·.words)) ++ [mark "."]) := by simp [ruleWords]
    have hcount := Token.length_le_length_joined (w := mark ",") ((l :: ls).map (·.words))
    rw [length_map, length_cons] at hcount
    rw [hwords] at hsize ⊢
    rw [length_append, length_cons, length_append] at hsize
    refine Meets.peek fun t ht => ?_
    obtain ⟨hforeign, harrow⟩ := hh.starts _ t ht
    have hbody : Reads (body n) () (joined (mark ",") ((l :: ls).map (·.words)) ++ [mark "."])
        ((l :: ls).map fun l => ⟨.plain, .literal l⟩) () [mark "."] :=
      reads_body hls (by omega) (by omega) []
    exact .ite_neg (Bool.not_eq_true _ ▸ hforeign) (.isAt (ht ▸ harrow)
      ((hh.reads n ":-" _ (by omega) (by decide)).bind (.accept_cons rfl (hbody.bind (hstop _ _)))))

/-- The words of one rule are read as that rule alone. -/
theorem meets_rules {h : Head} (hh : Rereads h ws)
    (hls : ∀ l ∈ ls, ∀ t ∈ l.terms, Readable t) (hsize : (ruleWords ws (ls.map (·.words))).length < n) :
    Meets (rules n n) () (ruleWords ws (ls.map (·.words))) never fun rs _ _ =>
      ∃ line, rs = [⟨h, ls.map (fun l => ⟨.plain, .literal l⟩), line⟩] := by
  obtain ⟨m, rfl⟩ : ∃ m, n = m + 1 := ⟨n - 1, by omega⟩
  have hfirst : ((first (ruleWords ws (ls.map (·.words)))).1 == .endOfInput) = false := by
    rw [ruleWords, append_assoc, beq_eq_false_iff_ne]
    exact hh.proper _
  refine Meets.atEnd ?_
  rw [hfirst]
  refine (meets_rule hh hls (Nat.le_of_lt hsize)).bind fun r _ vs hr => ?_
  obtain ⟨rfl, hbody, rfl⟩ := hr
  refine Meets.bind (P := fun rs _ _ => rs = []) ?_ fun rs _ _ hrs => .pure ?_
  · cases m with
    | zero => exact .pure rfl
    | succ m => exact .atEnd (.pure rfl)
  · obtain ⟨head, body, line⟩ := r
    rw [hrs]
    exact ⟨line, congrArg (fun b => [(⟨head, b, line⟩ : Rule)]) hbody⟩

end Grammar

variable {rule : Rule} {s s' : Encoding.State}

/-- The body of a rule that has a first-order reading is made of literals. -/
theorem body_of_reading {fs : List Formula} {c c' : Encoding.RuleContext} {bs : List BodyLiteral}
    (h : Returns (Encoding.body bs) c fs c') : ∃ ls : List Literal, bs = ls.map
      fun l => ⟨.plain, .literal l⟩ := by
  induction bs generalizing c fs c' with
  | nil => exact ⟨[], rfl⟩
  | cons b bs ih =>
    simp only [Encoding.body, Returns.bind_iff, Returns.pure_iff] at h
    obtain ⟨f, c₁, hf, fs, _, hfs, -, -⟩ := h
    obtain ⟨l, rfl, -⟩ := Encoding.bodyElement_cases hf
    obtain ⟨ls, rfl⟩ := ih hfs
    exact ⟨l :: ls, rfl⟩

/-- A head with a first-order reading is read as it is printed. -/
theorem rereads_shape (shape : Encoding.HeadShape) (hparsed : ∀ t ∈ shape.head.terms, t.Parsed)
    (hplain : ∀ t ∈ shape.head.terms, ∀ u ∈ t.subterms, u.hasPlainText = true)
    (hreadable : ∀ t ∈ shape.head.terms, Grammar.Readable t) : ∃ ws, Grammar.Rereads shape.head ws := by
  cases shape with
  | atom name args => exact ⟨_, Grammar.rereads_literal (.inr ⟨_, rfl⟩) ⟨hparsed, hplain⟩ hreadable⟩
  | choice name args =>
    have hmem : Term.function false name args ∈ (Encoding.HeadShape.choice name args).head.terms :=
      mem_cons_self
    have hone : ∀ {P : Term → Prop}, (∀ t ∈ (Encoding.HeadShape.choice name args).head.terms, P t) →
        ∀ t ∈ Literal.terms ⟨.plain, .symbolic (.function false name args)⟩, P t :=
      fun h => forall_mem_singleton.mpr (h _ hmem)
    exact ⟨_, Grammar.rereads_choice ⟨hone hparsed, hone hplain⟩ (hreadable _ hmem)⟩
  | constraint => exact ⟨_, Grammar.rereads_literal (.inl ⟨false, rfl⟩) ⟨hparsed, hplain⟩ hreadable⟩
  | trivial => exact ⟨_, Grammar.rereads_literal (.inl ⟨true, rfl⟩) ⟨hparsed, hplain⟩ hreadable⟩

/-- A rule that is read and has a first-order reading is printed as a text that is read as that one
rule, if its strings are plain and no interval is an operand. -/
theorem parse_text {t : Text} {rules : List Rule} (hparse : parse t = .ok rules) (hmem : rule ∈ rules)
    (hreading : Returns (Encoding.addRule rule) s () s') (hplain : rule.HasPlainStrings)
    (hinterval : rule.NoIntervalOperand) :
    ∃ line, parse rule.text = .ok [{ rule with line := line }] := by
  obtain ⟨fs, c, shape, c', hbody, hshape, -⟩ := Encoding.addRule_returns hreading
  have hhead := (Encoding.headShape_found hshape).head
  obtain ⟨ls, hls⟩ := body_of_reading hbody
  have hterms := parsed_of_parse hparse rule hmem
  obtain ⟨head, body, line⟩ := rule
  obtain rfl : head = shape.head := hhead
  obtain rfl : body = ls.map fun l => ⟨.plain, .literal l⟩ := hls
  -- what holds of the terms of the rule, for those of the head and those of the body
  have hpart : ∀ t ∈ terms ⟨shape.head, ls.map fun l => ⟨.plain, .literal l⟩, line⟩, t.Parsed ∧
      (∀ u ∈ t.subterms, u.hasPlainText = true) ∧ Grammar.Readable t := fun t ht =>
    ⟨hterms t ht, fun u hu => hplain u (mem_flatMap.mpr ⟨t, ht, hu⟩),
      fun u hu => ⟨hterms t ht u hu, hinterval u (mem_flatMap.mpr ⟨t, ht, hu⟩)⟩⟩
  obtain ⟨hheads, hbodies⟩ := forall_mem_append.mp hpart
  have hliteral : ∀ l ∈ ls, ∀ t ∈ l.terms, t.Parsed ∧
      (∀ u ∈ t.subterms, u.hasPlainText = true) ∧ Grammar.Readable t := fun l hl t ht =>
    hbodies t (mem_flatMap.mpr ⟨⟨.plain, .literal l⟩, mem_map_of_mem hl, ht⟩)
  obtain ⟨ws, hws⟩ := rereads_shape shape (fun t ht => (hheads t ht).1) (fun t ht => (hheads t ht).2.1)
    fun t ht => (hheads t ht).2.2
  have hspells : Forall₂ Token.Spells
      ((ls.map fun l => (⟨.plain, .literal l⟩ : BodyLiteral)).map BodyLiteral.text) (ls.map (·.words)) := by
    rw [map_map, forall₂_map_left_iff, forall₂_map_right_iff]
    exact forall₂_same.mpr fun l hl =>
      spells_literal ⟨fun t ht => (hliteral l hl t ht).1, fun t ht => (hliteral l hl t ht).2.1⟩
  have hsplits : Token.Splits (text ⟨shape.head, ls.map fun l => ⟨.plain, .literal l⟩, line⟩)
      (ruleWords ws (ls.map (·.words))) := splits_rule hws.spells hspells
  obtain ⟨tokens, last, htokens, hwords, hlast⟩ := hsplits.tokenize
  have hshows : (Stream.ofTokens (tokens ++ [last])).Shows (ruleWords ws (ls.map (·.words))) :=
    hwords ▸ Stream.shows_ofTokens hlast
  have hsize : (ruleWords ws (ls.map (·.words))).length < (tokens ++ [last]).length := by
    rw [← hwords, length_map, length_append]
    exact Nat.lt_succ_self _
  obtain ⟨rs, _, _, hreturns, -, line', rfl⟩ := (Grammar.meets_rules hws
    (fun l hl t ht => (hliteral l hl t ht).2.2) hsize).returns hshows
  refine ⟨line', ?_⟩
  rw [parse, htokens]
  exact congrArg Prod.fst hreturns

/-- A choice between bounds that are computed, for neighbours that are not excluded. -/
def window : Text :=
  "{p(X, -(Y + 1)..5 / |Z|)} :- q(\"a\\n\", X), not not r(-3 \\ (a, b)), 1..3 != X."

/-- The rule of `window` is printed and read again. -/
theorem parse_text_window : ∃ rules rule s, parse window = .ok rules ∧ rule ∈ rules ∧
    Returns (Encoding.addRule rule) ⟨.empty, .empty⟩ () s ∧ rule.HasPlainStrings ∧ rule.NoIntervalOperand ∧
    ∃ line, parse rule.text = .ok [{ rule with line := line }] := by
  have hread : (parse window).toOption.any (fun rules => rules.any fun rule =>
      decide (rule.HasPlainStrings ∧ rule.NoIntervalOperand) &&
        (outcome (Encoding.addRule rule) ⟨.empty, .empty⟩).1.toBool) = true := by decide +kernel
  cases hok : parse window with
  | error e =>
    rw [hok] at hread
    cases hread
  | ok rules =>
    rw [hok] at hread
    obtain ⟨rule, hmem, hrule⟩ := any_eq_true.mp hread
    obtain ⟨hdecided, hreading⟩ := Bool.and_eq_true_iff.mp hrule
    obtain ⟨hplain, hinterval⟩ := of_decide_eq_true hdecided
    obtain ⟨_, s, hreading⟩ := Returns.of_toBool hreading
    exact ⟨rules, rule, s, rfl, hmem, hreading, hplain, hinterval, parse_text hok hmem hreading hplain hinterval⟩

/-- The sum of an interval and a number is printed like an interval up to a sum, and read as that. -/
theorem parse_text_interval_operand : ∃ rule s, parse "p((1..2) + 1)." = .ok [rule] ∧
    Returns (Encoding.addRule rule) ⟨.empty, .empty⟩ () s ∧ rule.HasPlainStrings ∧
    rule.text = "p((1..2 + 1))." ∧ ¬ ∃ line, parse rule.text = .ok [{ rule with line := line }] := by
  have hread : (parse "p((1..2) + 1).").toOption.any (fun rules => rules.length == 1 && rules.all fun rule =>
      decide (rule.HasPlainStrings ∧ rule.text = "p((1..2 + 1)).") &&
        (outcome (Encoding.addRule rule) ⟨.empty, .empty⟩).1.toBool) = true := by decide +kernel
  -- the rule that is read from the printed text is printed otherwise, so it is another one
  have hother : (parse "p((1..2 + 1)).").toOption.any (fun rules =>
      rules.any fun rule => rule.text != "p((1..2 + 1)).") = true := by decide +kernel
  cases hok : parse "p((1..2) + 1)." with
  | error e =>
    rw [hok] at hread
    cases hread
  | ok rules =>
    rw [hok] at hread
    obtain ⟨hlength, hall⟩ := Bool.and_eq_true_iff.mp hread
    obtain ⟨rule, rfl⟩ := length_eq_one_iff.mp (beq_iff_eq.mp hlength)
    obtain ⟨hdecided, hreading⟩ := Bool.and_eq_true_iff.mp (all_eq_true.mp hall rule mem_cons_self)
    obtain ⟨hplain, htext⟩ := of_decide_eq_true hdecided
    obtain ⟨_, s, hreading⟩ := Returns.of_toBool hreading
    refine ⟨rule, s, rfl, hreading, hplain, htext, ?_⟩
    rintro ⟨line, h⟩
    rw [htext] at h
    rw [h] at hother
    obtain ⟨rule', hmem, hne⟩ := any_eq_true.mp hother
    rw [mem_singleton.mp hmem, bne_iff_ne] at hne
    exact hne htext

end Rule

end LogicProgram
