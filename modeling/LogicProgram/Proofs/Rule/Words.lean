import LogicProgram.Proofs.Rendering.Human
import LogicProgram.Proofs.Rule.Parts

/-!
# The words of printed rules

A printed rule is split into words that follow its structure. Operations stand in
parentheses and intervals do not.
-/

namespace LogicProgram.Rule

open List
open Token (mark joined listed truthValue Spells Splits Separates Starts)

namespace Term

mutual

/-- The words of a term. -/
def words : Term → List Word
  | .number n => Token.numeral n
  | .string s => [(.string, s)]
  | .infimum => [(.directive, "inf")]
  | .supremum => [(.directive, "sup")]
  | .variable name => [(.variable, name)]
  | .function external name args =>
    (if external then [mark "@"] else []) ++ (if name.isEmpty then [] else [(.identifier, name)])
      ++ listed (wordsOfAll args)
  | .binary op left right => mark "(" :: (left.words ++ mark op.text :: right.words) ++ [mark ")"]
  | .unary .minus arg => mark "-" :: arg.words
  | .unary .absolute arg => mark "|" :: arg.words ++ [mark "|"]
  | .unary .bitNegation arg => mark "~" :: arg.words
  | .interval lower upper => lower.words ++ mark ".." :: upper.words
  | .pool args => mark "(" :: joined (mark ";") (wordsOfAll args) ++ [mark ")"]

/-- The words of several terms. -/
def wordsOfAll : List Term → List (List Word)
  | [] => []
  | t :: rest => t.words :: wordsOfAll rest

end

/-- The words of terms are those of each of them. -/
theorem wordsOfAll_eq_map (ts : List Term) : wordsOfAll ts = ts.map (·.words) :=
  eq_map_of_cons rfl (fun _ _ => rfl) ts

/-- Terms are printed one by one. -/
theorem texts_eq_map (ts : List Term) : texts ts = ts.map (·.text) :=
  eq_map_of_cons rfl (fun _ _ => rfl) ts

end Term

/-- An operator between blanks is a word of its own. -/
theorem separates_operator (op : Operator) : Separates (" " ++ op.text ++ " ") (mark op.text) := by
  cases op <;> exact Token.separates_of_segment (by decide) fun k => rfl

/-- So are two dots between the ends of an interval. -/
theorem separates_dots : Separates ".." (mark "..") where
  stops := fun k => Token.stops_of_head (by decide)
  splits := fun k vs _ hvs => Splits.word (r := [0x2e]) rfl hvs

/-- A semicolon before a blank is a word of its own. -/
theorem separates_semicolon : Separates "; " (mark ";") where
  stops := fun k => Token.stops_of_head (by decide)
  splits := fun k vs hk hvs => by
    obtain ⟨c, k, rfl, hc, -⟩ := hk
    exact Splits.word (r := []) rfl (Token.splits_blank hc hvs)

/-- An at sign is a word before any other. -/
theorem spells_at {t : Text} {ws : List Word} (h : Spells t ws) : Spells ("@" ++ t) (mark "@" :: ws) :=
  h.marked ⟨_, _, rfl, by decide, by decide⟩ fun _ _ h => Splits.word (r := []) rfl h

/-- So is a tilde. -/
theorem spells_tilde {t : Text} {ws : List Word} (h : Spells t ws) : Spells ("~" ++ t) (mark "~" :: ws) :=
  h.marked ⟨_, _, rfl, by decide, by decide⟩ fun _ _ h => Splits.word (r := []) rfl h

/-- The members of a list that is not empty. -/
theorem spells_terms {separator : Text} {w : Word} (hs : Separates separator w) {ts : List Term}
    (hne : ts ≠ [])
    (hts : ∀ t ∈ ts, Spells t.text t.words) :
    Spells (Text.join separator (Term.texts ts)) (joined w (Term.wordsOfAll ts)) := by
  rw [Term.texts_eq_map, Term.wordsOfAll_eq_map]
  refine Token.spells_join hs ?_ (by simpa using hne)
  rw [forall₂_map_left_iff, forall₂_map_right_iff]
  exact forall₂_same.mpr hts

/-- A name with its arguments in parentheses, if there are any. -/
theorem spells_applied {name : Text} {args : List Term} (hname : Token.IsIdentifier name)
    (hargs : ∀ t ∈ args, Spells t.text t.words) :
    Spells (name ++ if args.isEmpty then ("" : Text) else "(" ++ Text.join ", " (Term.texts args) ++ ")")
      ((.identifier, name) :: listed (Term.wordsOfAll args)) := by
  cases args with
  | nil =>
    show Spells (name ++ []) _
    rw [append_nil]
    exact Token.spells_identifier hname
  | cons t args =>
    have hall := (Token.spells_identifier hname).applied
      (spells_terms Token.separates_comma (cons_ne_nil t args) hargs)
    rwa [append_assoc, append_assoc, ← append_assoc (Text.ofString "(")] at hall

/-- A term with formed parts and plain strings is split into its words. -/
theorem spells_term {t : Term} (ht : t.Parsed) (hplain : ∀ u ∈ t.subterms, u.hasPlainText = true) :
    Spells t.text t.words := by
  induction t using Term.inductionOnParts with
  | number n => exact Token.spells_numeral n
  | string s => exact Token.spells_string (all_eq_true.mp (hplain _ mem_cons_self))
  | infimum | supremum => exact Token.spells_directive (by decide) (by decide +kernel)
  | var name => exact Token.spells_variable (ht _ mem_cons_self)
  | function external name args ih =>
    obtain ⟨hformed, hargs⟩ := Term.forall_subterms_function.mp ht
    have hplain := (Term.forall_subterms_function.mp hplain).2
    have hargs : ∀ t ∈ args, Spells t.text t.words := fun t ht => ih t ht (hargs t ht) (hplain t ht)
    cases name with
    | nil =>
      obtain ⟨rfl, hlength⟩ := hformed
      obtain ⟨t, args, rfl⟩ := exists_cons_of_ne_nil (ne_nil_of_length_pos (by omega : 0 < args.length))
      exact (spells_terms Token.separates_comma (cons_ne_nil t args) hargs).group
    | cons b r =>
      have hall := spells_applied hformed.1 hargs
      cases external with
      | false => exact hall
      | true => exact spells_at hall
  | binary op left right ihl ihr =>
    obtain ⟨-, hl, hr⟩ := Term.forall_subterms_binary.mp ht
    obtain ⟨-, hpl, hpr⟩ := Term.forall_subterms_binary.mp hplain
    have hall := ((ihl hl hpl).separated (separates_operator op) (ihr hr hpr)).group
    simpa only [Term.text, Term.words, append_assoc] using hall
  | unary op arg ih =>
    have harg := ih (Term.forall_subterms_unary.mp ht).2 (Term.forall_subterms_unary.mp hplain).2
    cases op with
    | minus => exact harg.minus
    | absolute => exact harg.bars
    | bitNegation => exact spells_tilde harg
  | interval lower upper ihl ihu =>
    obtain ⟨-, hl, hu⟩ := Term.forall_subterms_interval.mp ht
    obtain ⟨-, hpl, hpu⟩ := Term.forall_subterms_interval.mp hplain
    exact (ihl hl hpl).separated separates_dots (ihu hu hpu)
  | pool args ih =>
    obtain ⟨hformed, hargs⟩ := Term.forall_subterms_pool.mp ht
    have hplain := (Term.forall_subterms_pool.mp hplain).2
    have hlength : 2 ≤ args.length := hformed
    refine (spells_terms separates_semicolon (ne_nil_of_length_pos (by omega)) fun t ht => ?_).group
    exact ih t ht (hargs t ht) (hplain t ht)

/-- The words of a negation. -/
def Sign.words : Sign → List Word
  | .plain => []
  | .negated => [(.identifier, "not")]
  | .doublyNegated => [(.identifier, "not"), (.identifier, "not")]

/-- The words of an atom. -/
def Atom.words : Atom → List Word
  | .boolean value => [truthValue value]
  | .symbolic t => t.words
  | .comparison op left right => left.words ++ mark op.text :: right.words

/-- The words of a literal. -/
def Literal.words (l : Literal) : List Word := l.sign.words ++ l.atom.words

/-- All parts of the terms of a literal are formed, and its strings are plain. -/
structure Literal.Plain (l : Literal) : Prop where
  parsed : ∀ t ∈ l.terms, t.Parsed
  strings : ∀ t ∈ l.terms, ∀ u ∈ t.subterms, u.hasPlainText = true

/-- A printed atom spells its words if its terms do. -/
theorem spells_atom {a : Atom} (h : ∀ t ∈ a.terms, Spells t.text t.words) : Spells a.text a.words := by
  cases a with
  | boolean value =>
    cases value with
    | true | false => exact Token.spells_directive (by decide) (by decide +kernel)
  | symbolic t => exact h t mem_cons_self
  | comparison op left right =>
    have hright := h right (mem_cons_of_mem _ mem_cons_self)
    have hall := (h left mem_cons_self).separated (Token.separates_comparison op) hright
    simpa only [Atom.text, Atom.words, append_assoc] using hall

/-- A printed literal spells its words if its strings are plain. -/
theorem spells_literal {l : Literal} (h : l.Plain) : Spells l.text l.words := by
  have hatom : Spells l.atom.text l.atom.words := spells_atom
      fun t ht => spells_term (h.parsed t ht) (h.strings t ht)
  have hnot : Spells "not" [(.identifier, "not")] :=
    Token.spells_identifier ⟨_, _, rfl, by decide, by decide +kernel⟩
  obtain ⟨sign, atom⟩ := l
  cases sign with
  | plain => exact hatom
  | negated => exact hnot.blank hatom
  | doublyNegated => exact (hnot.blank hnot).blank hatom

/-- A text in braces. -/
theorem spells_braces {t : Text} {ws : List Word} (h : Spells t ws) :
    Spells ("\x7b" ++ t ++ "\x7d") (mark "\x7b" :: ws ++ [mark "\x7d"]) where
  starts := ⟨_, _, rfl, by decide, by decide⟩
  splits := fun k us _ hus => by
    have hclose : Splits ("\x7d" ++ k) (mark "\x7d" :: us) := Splits.word (r := []) rfl hus
    have hinside := h.splits _ _ (Token.stops_of_head (by decide)) hclose
    have hall : Splits ("\x7b" ++ (t ++ ("\x7d" ++ k))) (mark "\x7b" :: (ws ++ mark "\x7d" :: us)) :=
      Splits.word (r := []) rfl hinside
    simpa only [append_assoc, cons_append, nil_append] using hall

/-- An arrow between blanks is a word of its own. -/
theorem separates_arrow : Separates " :- " (mark ":-") := by
  have harrow : Separates (" " ++ ":-" ++ " ") (mark ":-") :=
    Token.separates_of_segment (by decide) fun k => rfl
  exact harrow

/-- The words of a rule with the words of its head and those of the elements of its body. -/
def ruleWords (head : List Word) (body : List (List Word)) : List Word :=
  head ++ (if body.isEmpty then [] else mark ":-" :: joined (mark ",") body) ++ [mark "."]

/-- A rule is split if its head and its body are. -/
theorem splits_rule {rule : Rule} {hs : List Word} {bs : List (List Word)} (hhead : Spells rule.head.text hs)
    (hbody : Forall₂ Spells (rule.body.map BodyLiteral.text) bs) : Splits rule.text (ruleWords hs bs) := by
  have hstop : Splits "." [mark "."] := Splits.word (r := []) rfl Token.splits_nil
  have hstops : Token.Stops "." := Token.stops_of_head (by decide)
  obtain ⟨head, body, line⟩ := rule
  cases body with
  | nil =>
    cases hbody
    show Splits (head.text ++ ".") (hs ++ [] ++ [mark "."])
    rw [append_nil]
    exact hhead.splits _ _ hstops hstop
  | cons b body =>
    cases bs with
    | nil => cases hbody
    | cons ws bs =>
      have hjoin := Token.spells_join Token.separates_comma hbody (cons_ne_nil _ _)
      exact (hhead.separated separates_arrow hjoin).splits _ _ hstops hstop

end LogicProgram.Rule
