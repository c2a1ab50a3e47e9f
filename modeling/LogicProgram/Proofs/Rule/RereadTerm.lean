import LogicProgram.Proofs.Rule.Words

/-!
# Reading the words of terms

The words of a term are read as the term, before every word that ends a term, unless an
operator or an interval of it is applied to an interval.
-/

namespace LogicProgram.Rule

open List
open LogicProgram.Rule.Term (wordsOfAll words)
open Token (mark joined listed first isWord)
open LogicProgram.Parser (Reads)

namespace Grammar

variable {t : Term} {w : Word} {op : Operator} {ws : List Word} {ops : List Operator}

/-- How weakly a symbol binds that comes after a term: higher for what ends more. -/
def rankOf (t : Text) : Nat :=
  if t = "(" then 0
  else if t = "**" then 1
  else if t = "*" ∨ t = "/" ∨ t = "\\" then 2
  else if t = "+" ∨ t = "-" ∨ t = "&" ∨ t = "?" ∨
    t = "^" then 3
  else if t = ".." then 4
  else 5

/-- How weakly a word binds. -/
def rank (w : Word) : Nat := if w.1 = .symbol ∨ w.1 = .identifier then rankOf w.2 else 5

/-- The next word ends everything up to a level. -/
def Closes (level : Nat) (ws : List Word) : Prop := level < rank (first ws)

theorem closes_cons {level : Nat} (h : level < rank w) : Closes level (w :: ws) := h

theorem Closes.mono {level level' : Nat} (h : Closes level ws) (hle : level' ≤ level) :
    Closes level' ws := Nat.lt_of_le_of_lt hle h

/-- A word that binds more tightly does not come next. -/
theorem Closes.isWord_eq_false {level : Nat} {ws : List Word} {t : Text} (h : Closes level ws)
    (ht : rankOf t ≤ level) : isWord (first ws) t = false := by
  rw [Bool.eq_false_iff]
  intro hword
  simp only [isWord, Bool.and_eq_true, Bool.or_eq_true, beq_iff_eq] at hword
  rw [Closes, rank, if_pos hword.1, hword.2] at h
  exact absurd h (Nat.not_lt.mpr ht)

/-- The level of an operator. -/
def level : Operator → Nat
  | .power => 1
  | .multiply | .divide | .modulo => 2
  | .add | .subtract | .bitAnd | .bitOr | .bitXor => 3

theorem rankOf_operator (op : Operator) : rankOf op.text = level op := by
  cases op <;> decide

theorem rank_operator (op : Operator) : rank (mark op.text) = level op := rankOf_operator op

/-- The symbols that a term may start with. -/
def openers : List Text := List.map Text.ofString ["(", "|", "-", "~", "@"]

/-- A word that a term may start with. -/
def Opens : Word → Prop
  | (.endOfInput, _) => False
  | (.identifier, t) => Token.IsIdentifier t ∧ t ≠ "not"
  | (.variable, _) | (.number, _) | (.string, _) => True
  | (.directive, t) => t = "inf" ∨ t = "sup"
  | (.symbol, t) => t ∈ openers

/-- Other symbols are not what a term starts with. -/
theorem Opens.isWord_eq_false {w : Word} {t : Text} (h : Opens w) (ht : t ∉ openers)
    (hlower : Text.isLower (t.headD 0) = false) : isWord w t = false := by
  refine Token.not_isWord (fun hw => ht (hw ▸ h :)) fun hw => ?_
  subst hw
  have hother := h.1.isWord_eq_false hlower
  simp [isWord] at hother

theorem Opens.isWord_not (h : Opens w) : isWord w "not" = false := by
  refine Token.not_isWord (fun hw => ?_) fun hw => ?_
  · exact absurd (hw ▸ h) (by unfold Opens; decide)
  · subst hw
    exact h.2 rfl

/-- A term can be read as it is printed: its parts are formed, and no interval is an operand. -/
def Readable (t : Term) : Prop := ∀ u ∈ t.subterms, u.Formed ∧ u.hasIntervalOperand = false

/-- A term starts with a word that terms start with. -/
theorem opens_words (ht : Readable t) (rest : List Word) : Opens (first (t.words ++ rest)) := by
  induction t using Term.inductionOnParts generalizing rest with
  | number n =>
    rw [words, Token.numeral]
    split
    · exact mem_map_of_mem (by decide)
    · trivial
  | string s => trivial
  | infimum => exact .inl rfl
  | supremum => exact .inr rfl
  | var name => trivial
  | function external name args ih =>
    obtain ⟨⟨hformed, -⟩, -⟩ := Term.forall_subterms_function.mp ht
    cases external with
    | true => exact mem_map_of_mem (by decide)
    | false =>
      cases name with
      | nil =>
        obtain ⟨-, hlength⟩ := hformed
        obtain ⟨t, args, rfl⟩ := exists_cons_of_ne_nil (ne_nil_of_length_pos (by omega : 0 < args.length))
        exact mem_map_of_mem (by decide)
      | cons b r => exact ⟨hformed.1, hformed.2.1 rfl⟩
  | binary op left right => exact mem_map_of_mem (by decide)
  | unary op arg => cases op <;> exact mem_map_of_mem (by decide)
  | interval lower upper ihl ihu =>
    obtain ⟨-, hl, -⟩ := Term.forall_subterms_interval.mp ht
    rw [words, append_assoc]
    exact ihl hl _
  | pool args => exact mem_map_of_mem (by decide)

theorem length_words_pos (ht : Readable t) : 0 < t.words.length := by
  have hopens := opens_words ht []
  cases hwords : t.words with
  | nil =>
    rw [hwords] at hopens
    exact hopens.elim
  | cons w ws => exact Nat.succ_pos _

theorem reads_expect {t : Text} (h : isWord w t = true) (ws : List Word) :
    Reads (expect t) () (w :: ws) () () ws :=
  .accept_cons h .done

/-- A parser reads the words of all terms up to some length, and those of an operation without its
parentheses. -/
structure ReadsTerms (T : RuleParser Term) (size : Nat) : Prop where
  term : ∀ (t : Term) rest, Readable t → t.words.length ≤ size → Closes 4 rest →
    Reads T () (t.words ++ rest) t () rest
  operation : ∀ op left right rest, Readable (.binary op left right) →
    (left.words ++ mark op.text :: right.words).length ≤ size → Closes 4 rest →
    Reads T () (left.words ++ mark op.text :: (right.words ++ rest)) (.binary op left right) () rest

section Brackets

variable {n size : Nat} {T : RuleParser Term} {ts : List Term} {rest : List Word}

/-- Several terms with a mark between them. -/
theorem reads_members {p : RuleParser Term} {t : Text} {E : List Word → Prop}
    (hp : ∀ u ∈ ts, ∀ rest, E rest → Reads p () (u.words ++ rest) u () rest) (ht : isWord (mark t) t = true)
    (hbetween : ∀ rest, E (mark t :: rest)) (hrest : E rest) (hend : isWord (first rest) t = false)
    (hne : ts ≠ []) (hn : (joined (mark t) (wordsOfAll ts)).length ≤ n) :
    Reads (Parser.oneOrMore p (Parser.accept t) n) ()
      (joined (mark t) (wordsOfAll ts) ++ rest) ts () rest := by
  rw [Term.wordsOfAll_eq_map] at hn ⊢
  obtain ⟨u, ts, rfl⟩ := exists_cons_of_ne_nil hne
  have hcount := Token.length_le_length_joined (w := mark t) ((u :: ts).map (·.words))
  rw [length_map, length_cons] at hcount
  have hall : Reads (Parser.oneOrMore p (Parser.accept t) n) ()
      (joined (mark t) ((u :: ts).map (·.words)) ++ rest) ((u :: ts).map id) () rest :=
    Reads.separated (E := E) hp (Reads.accepts ht ()) hbetween hrest (.declines hend ()) (by omega)
  rwa [map_id] at hall

/-- Members are no longer than the list. -/
theorem length_words_le (ht : t ∈ ts) : t.words.length ≤ (joined w (wordsOfAll ts)).length := by
  rw [Term.wordsOfAll_eq_map]
  exact Token.length_le_joined (mem_map_of_mem ht)

/-- Terms with commas between them are one alternative. -/
theorem reads_group (hT : ReadsTerms T size) (hn : size ≤ n) (hne : ts ≠ []) (hts : ∀ t ∈ ts, Readable t)
    (hsize : (joined (mark ",") (wordsOfAll ts)).length ≤ size) (rest : List Word) :
    Reads (alternatives n T) () (joined (mark ",") (wordsOfAll ts) ++ mark ")" :: rest) [tuple ts] ()
      (mark ")" :: rest) := by
  refine Reads.oneOrMore_one (Reads.map ?_ tuple) (.declines rfl ()) n
  refine reads_members (E := Closes 4) (fun t ht rest hrest => ?_) rfl (fun _ => closes_cons (by decide))
    (closes_cons (by decide)) rfl hne (Nat.le_trans hsize hn)
  exact hT.term t rest (hts t ht) (Nat.le_trans (length_words_le ht) hsize) hrest

/-- Terms with semicolons between them are alternatives. -/
theorem reads_pool (hT : ReadsTerms T size) (hn : size ≤ n) (hne : ts ≠ []) (hts : ∀ t ∈ ts, Readable t)
    (hsize : (joined (mark ";") (wordsOfAll ts)).length ≤ size) (rest : List Word) :
    Reads (alternatives n T) () (joined (mark ";") (wordsOfAll ts) ++ mark ")" :: rest) ts ()
      (mark ")" :: rest) := by
  refine reads_members (E := fun rest => Closes 4 rest ∧ isWord (first rest) "," = false)
    (fun t ht rest hrest => ?_) rfl (fun _ => ⟨closes_cons (by decide), rfl⟩)
    ⟨closes_cons (by decide), rfl⟩ rfl hne (Nat.le_trans hsize hn)
  have hterm := hT.term t rest (hts t ht) (Nat.le_trans (length_words_le ht) hsize) hrest.1
  exact Reads.map (hterm.oneOrMore_one (.declines hrest.2 ()) n) tuple

/-- Arguments are read as they are, since a tuple is never the only one. -/
theorem reads_arguments (hT : ReadsTerms T size) (hn : size ≤ n) (hts : ∀ t ∈ ts, Readable t)
    (hsingle : ∀ t, ts = [t] → t.isTuple = false)
    (hsize : (listed (wordsOfAll ts)).length ≤ size + 2) (hrest : Closes 0 rest) :
    Reads (arguments n T) () (listed (wordsOfAll ts) ++ rest) ts () rest := by
  cases ts with
  | nil => exact .accept_not (hrest.isWord_eq_false (by decide)) .done
  | cons t us =>
    have hlisted : listed (wordsOfAll (t :: us)) ++ rest =
        mark "(" :: (joined (mark ",") (wordsOfAll (t :: us)) ++ mark ")" :: rest) := by
      simp [listed, wordsOfAll]
    have hlength : (listed (wordsOfAll (t :: us))).length =
        (joined (mark ",") (wordsOfAll (t :: us))).length + 2 := by
      simp [listed, wordsOfAll]
    have hfirst : Opens (first (joined (mark ",") (wordsOfAll (t :: us)) ++ mark ")" :: rest)) := by
      cases us with
      | nil => exact opens_words (hts t mem_cons_self) _
      | cons u us =>
        rw [wordsOfAll, wordsOfAll, joined, append_assoc]
        exact opens_words (hts t mem_cons_self) _
    rw [hlisted]
    refine .accept_cons rfl (.accept_not (hfirst.isWord_eq_false (by decide) rfl)
      ((reads_group hT hn (cons_ne_nil _ _) hts (by omega) rest).bind ((reads_expect rfl rest).bind ?_)))
    cases us with
    | nil =>
      have ht := hsingle t rfl
      cases t with
      | function external name args =>
        cases name with
        | nil => cases ht
        | cons b r => exact .done
      | _ => exact .done
    | cons u us => exact .done

/-- A term that is read without signs before it. -/
def isPrimary : Term → Bool
  | .number n => 0 ≤ n
  | .unary .absolute _ => true
  | .unary _ _ | .interval _ _ => false
  | _ => true

/-- A function with its arguments. -/
theorem reads_named {external : Bool} {name : Text} (hT : ReadsTerms T size) (hn : size ≤ n)
    (ht : Readable (.function external name ts)) (hname : name ≠ [])
    (hsize : (Term.function external name ts).words.length ≤ size + 1) (hrest : Closes 0 rest) :
    Reads (primary n T) () ((Term.function external name ts).words ++ rest)
      (.function external name ts) () rest := by
  obtain ⟨b, r, rfl⟩ := exists_cons_of_ne_nil hname
  obtain ⟨⟨⟨hidentifier, hnot, hsingle⟩, -⟩, hts⟩ := Term.forall_subterms_function.mp ht
  have hlength : (listed (wordsOfAll ts)).length ≤ size + 2 := by
    simp only [words, length_append] at hsize
    omega
  have harguments := reads_arguments hT hn hts hsingle hlength hrest
  cases external with
  | false =>
    refine .peek_cons fun position => .ite_neg (fun h => hnot rfl (beq_iff_eq.mp h)) ?_
    exact .advance (harguments.bind .done)
  | true =>
    refine .peek_cons fun position => .accept_cons rfl ?_
    exact .peek_cons fun position => .ite_pos rfl (.advance (harguments.bind .done))

/-- Alternatives in parentheses: a term, or a pool of several. -/
theorem reads_parenthesized {us : List Term}
    (h : Reads (alternatives n T) () ws us () (mark ")" :: rest))
      (hus : us = [t] ∨ 2 ≤ us.length ∧ t = .pool us) :
    Reads (primary n T) () (mark "(" :: ws) t () rest := by
  refine .peek_cons fun position => .accept_not rfl ((Reads.declines rfl ()).bind
    (.accept_cons rfl (h.bind ((reads_expect rfl rest).bind ?_))))
  rcases hus with rfl | ⟨hlength, rfl⟩
  · exact .done
  · obtain ⟨u, us, rfl⟩ := exists_cons_of_ne_nil (ne_nil_of_length_pos (by omega : 0 < us.length))
    cases us with
    | nil => exact absurd hlength (Nat.lt_irrefl 1)
    | cons v us => exact .done

theorem reads_numeral {k : Nat} (hk : k ≤ maxNumber) (rest : List Word) :
    Reads (primary n T) () ((.number, Text.ofNat k) :: rest) (.number k) () rest := by
  refine .peek_cons fun position => .advance ?_
  dsimp only [number]
  rw [Text.toNat_ofNat]
  exact .ite_neg (Nat.not_lt.mpr hk) .done

/-- A term without signs before it is read as it is. -/
theorem reads_primary (hT : ReadsTerms T size) (hn : size ≤ n) (ht : Readable t)
    (hprimary : isPrimary t = true) (hsize : t.words.length ≤ size + 1) (hrest : Closes 0 rest) :
    Reads (primary n T) () (t.words ++ rest) t () rest := by
  cases t with
  | number k =>
    have hk : 0 ≤ k := of_decide_eq_true hprimary
    have hformed : k.natAbs ≤ maxNumber := (ht _ mem_cons_self).1
    have hreads := reads_numeral (n := n) (T := T) hformed rest
    rw [Int.natAbs_of_nonneg hk] at hreads
    rw [words, Token.numeral, if_neg (Int.not_lt.mpr hk)]
    exact hreads
  | string s => exact .peek_cons fun _ => .advance .done
  | infimum => exact .peek_cons fun _ => .ite_pos rfl (.advance .done)
  | supremum =>
    exact .peek_cons fun _ => .ite_neg Bool.false_ne_true (.ite_pos rfl
      (.advance .done))
  | «variable» name => exact .peek_cons fun _ => .advance .done
  | function external name args =>
    cases name with
    | cons b r => exact reads_named hT hn ht (cons_ne_nil b r) hsize hrest
    | nil =>
      obtain ⟨⟨⟨rfl, hlength⟩, -⟩, hargs⟩ := Term.forall_subterms_function.mp ht
      have htuple : tuple args = .function false [] args := by
        cases args with
        | nil => rfl
        | cons t args =>
          cases args with
          | nil => exact absurd hlength (Nat.lt_irrefl 1)
          | cons u args => rfl
      have hne : args ≠ [] := ne_nil_of_length_pos (by omega)
      have hwords : (Term.function false [] args).words =
          mark "(" :: joined (mark ",") (wordsOfAll args) ++ [mark ")"] := by
        obtain ⟨t, args, rfl⟩ := exists_cons_of_ne_nil hne
        rfl
      rw [hwords] at hsize ⊢
      simp only [length_append, length_cons] at hsize
      rw [cons_append, cons_append, append_assoc]
      refine reads_parenthesized (reads_group hT hn hne hargs (by omega) rest) (.inl ?_)
      rw [htuple]
  | binary op left right =>
    have hwords : (Term.binary op left right).words ++ rest =
        mark "(" :: (left.words ++ mark op.text :: (right.words ++ mark ")" :: rest)) := by
      simp [words]
    simp only [words, length_append, length_cons] at hsize
    have hoperation := hT.operation op left right (mark ")" :: rest) ht
      (by simp only [length_append, length_cons]; omega) (closes_cons (by decide))
    rw [hwords]
    exact reads_parenthesized (Reads.oneOrMore_one
      (Reads.map (hoperation.oneOrMore_one (.declines rfl ()) n) tuple)
      (.declines rfl ()) n) (.inl rfl)
  | unary op arg =>
    cases op with
    | absolute =>
      have harg := (Term.forall_subterms_unary.mp ht).2
      have hwords : (Term.unary .absolute arg).words ++ rest = mark "|" ::
          (arg.words ++ mark "|" :: rest) := by
        simp [words]
      simp only [words, length_append, length_cons] at hsize
      rw [hwords]
      refine .peek_cons fun position => .accept_not rfl (.accept_cons rfl ?_)
      exact (hT.term arg _ harg (by omega) (closes_cons (by decide))).bind
        ((reads_expect rfl rest).bind .done)
    | _ => cases hprimary
  | interval lower upper => cases hprimary
  | pool args =>
    obtain ⟨⟨hlength, -⟩, hargs⟩ := Term.forall_subterms_pool.mp ht
    have hlength : 2 ≤ args.length := hlength
    simp only [words, length_append, length_cons] at hsize
    rw [words, cons_append, cons_append, append_assoc]
    exact reads_parenthesized (reads_pool hT hn (ne_nil_of_length_pos (by omega)) hargs (by omega) rest)
      (.inr ⟨hlength, rfl⟩)

/-- A term without signs before it starts with no sign. -/
theorem first_primary (ht : Readable t) (hprimary : isPrimary t = true) (rest : List Word) :
    isWord (first (t.words ++ rest)) "-" = false ∧ isWord (first (t.words ++ rest)) "~" = false := by
  cases t with
  | number k =>
    rw [words, Token.numeral, if_neg (Int.not_lt.mpr (of_decide_eq_true hprimary))]
    exact ⟨rfl, rfl⟩
  | function external name args =>
    have hformed := (ht _ mem_cons_self).1
    cases external with
    | true => exact ⟨rfl, rfl⟩
    | false =>
      cases name with
      | nil =>
        cases args with
        | nil => exact absurd hformed.2 (Nat.not_succ_le_zero 1)
        | cons t args => exact ⟨rfl, rfl⟩
      | cons b r => exact ⟨hformed.1.isWord_eq_false rfl, hformed.1.isWord_eq_false rfl⟩
  | unary op arg =>
    cases op with
    | absolute => exact ⟨rfl, rfl⟩
    | _ => cases hprimary
  | interval lower upper => cases hprimary
  | _ => exact ⟨rfl, rfl⟩

theorem negate_eq (h : ∀ n, t ≠ .number n) : negate t = .unary .minus t := by
  cases t with
  | number n => exact absurd rfl (h n)
  | _ => rfl

/-- A term is read with its signs, none of which stands before a number. -/
theorem reads_unary (hT : ReadsTerms T size) (hn : size ≤ n) (ht : Readable t)
    (hinterval : t.isInterval = false)
    (hsize : t.words.length ≤ size + 1) {rounds : Nat} (hrounds : t.words.length ≤ rounds)
      (hrest : Closes 0 rest) :
    Reads (unary n T rounds) () (t.words ++ rest) t () rest := by
  induction rounds generalizing t with
  | zero => exact absurd hrounds (Nat.not_le.mpr (length_words_pos ht))
  | succ rounds ih =>
    by_cases hprimary : isPrimary t = true
    · have hfirst := first_primary ht hprimary rest
      exact .accept_not hfirst.1 (.accept_not hfirst.2 (reads_primary hT hn ht hprimary hsize hrest))
    cases t with
    | number k =>
      have hk : k < 0 := by
        by_contra hk
        exact hprimary (decide_eq_true (Int.not_lt.mp hk))
      have hwords : (Term.number k).words = mark "-" :: (Term.number k.natAbs).words := by
        rw [words, words, Token.numeral, Token.numeral, if_pos hk, if_neg (by omega), Int.natAbs_natCast]
      have hformed : Readable (.number k.natAbs) := forall_mem_singleton.mpr
        ⟨(ht _ mem_cons_self).1, rfl⟩
      have hvalue : negate (.number k.natAbs) = .number k := congrArg Term.number (by omega)
      rw [hwords, length_cons] at hsize hrounds
      have hreads := (ih hformed rfl (by omega) (by omega)).map negate
      rw [hvalue] at hreads
      rw [hwords]
      exact .accept_cons rfl hreads
    | unary op arg =>
      obtain ⟨⟨hformed, hoperand⟩, harg⟩ := Term.forall_subterms_unary.mp ht
      cases op with
      | minus =>
        simp only [words, length_cons] at hsize hrounds
        have hreads := (ih harg hoperand (by omega) (by omega)).map negate
        rw [negate_eq hformed] at hreads
        exact .accept_cons rfl hreads
      | absolute => exact absurd rfl hprimary
      | bitNegation =>
        simp only [words, length_cons] at hsize hrounds
        have hreads := ih harg hoperand (by omega) (by omega)
        exact .accept_not rfl (.accept_cons rfl (hreads.bind .done))
    | interval lower upper => cases hinterval
    | _ => exact absurd rfl hprimary

end Brackets

/-- A layer of the reader reads operands, and operations of the operators up to a level. -/
structure ReadsLayer (p : RuleParser Term) (top size : Nat) : Prop where
  operand : ∀ (t : Term) rest, Readable t → t.isInterval = false → t.words.length ≤ size → Closes top rest →
    Reads p () (t.words ++ rest) t () rest
  operation : ∀ op left right rest, level op ≤ top → Readable (.binary op left right) →
    (left.words ++ mark op.text :: right.words).length ≤ size → Closes top rest →
    Reads p () (left.words ++ mark op.text :: (right.words ++ rest)) (.binary op left right) () rest

section Layers

variable {n size : Nat} {T : RuleParser Term}

/-- The operands of an operation are shorter and no intervals. -/
theorem operands {left right : Term} (ht : Readable (.binary op left right))
    (hsize : (left.words ++ mark op.text :: right.words).length ≤ size) :
    (Readable left ∧ left.isInterval = false ∧ left.words.length ≤ size) ∧
      Readable right ∧ right.isInterval = false ∧ right.words.length ≤ size := by
  obtain ⟨⟨-, hoperands⟩, hl, hr⟩ := Term.forall_subterms_binary.mp ht
  rw [Term.hasIntervalOperand, Bool.or_eq_false_iff] at hoperands
  rw [length_append, length_cons] at hsize
  exact ⟨⟨hl, hoperands.1, by omega⟩, hr, hoperands.2, by omega⟩

theorem readsLayer_power (hT : ReadsTerms T size) (hn : size + 1 ≤ n) :
    ReadsLayer (power n T) 1 (size + 1) := by
  have hunary : ∀ (t : Term) rest, Readable t → t.isInterval = false → t.words.length ≤ size + 1 →
      Closes 0 rest →
      Reads (unary n T n) () (t.words ++ rest) t () rest := fun t rest ht hinterval hsize hrest =>
    reads_unary hT (by omega) ht hinterval hsize (by omega) hrest
  constructor
  · intro t rest ht hinterval hsize hrest
    have hone := hunary t rest ht hinterval hsize (hrest.mono (by decide))
    exact (hone.oneOrMore_one (.declines (hrest.isWord_eq_false (by decide)) ()) n).map joinPowers
  · intro op left right rest hlevel ht hsize hrest
    obtain rfl : op = .power := by cases op <;> first | rfl | exact absurd hlevel (by decide)
    obtain ⟨⟨hl, hli, hls⟩, hr, hri, hrs⟩ := operands ht hsize
    obtain ⟨m, rfl⟩ : ∃ m, n = m + 1 := ⟨n - 1, by omega⟩
    have hleft := hunary left (mark "**" :: (right.words ++ rest)) hl hli hls (closes_cons (by decide))
    have hright := hunary right rest hr hri hrs (hrest.mono (by decide))
    have hlist : Reads (Parser.oneOrMore (unary (m + 1) T (m + 1)) (Parser.accept "**") (m + 1)) ()
        (left.words ++ mark "**" :: (right.words ++ rest)) [left, right] () rest :=
      hleft.bind (.accept_cons rfl ((hright.oneOrMore_one
        (.declines (hrest.isWord_eq_false (by decide)) ()) m).bind .done))
    exact hlist.map joinPowers

theorem operator_text_injective {op' : Operator} (h : op.text = op'.text) : op = op' := by
  revert h
  cases op <;> cases op' <;> decide

/-- An operator that is looked for. -/
theorem reads_operator (h : op ∈ ops) (rest : List Word) :
    Reads (acceptOperator ops) () (mark op.text :: rest) (some (Term.binary op)) () rest := by
  refine .peek_cons fun position => ?_
  have hfind : ops.find? (fun o => (⟨.symbol, op.text, position⟩ : Token).is o.text) = some op := by
    obtain ⟨found, hfound⟩ : ∃ found, ops.find? (fun o => (⟨.symbol, op.text, position⟩ : Token).is o.text) =
        some found := Option.isSome_iff_exists.mp (find?_isSome.mpr ⟨op, h, beq_self_eq_true op.text⟩)
    have his := find?_some hfound
    have htext : op.text = found.text := beq_iff_eq.mp his
    rw [hfound, operator_text_injective htext]
  rw [hfind]
  exact .advance .done

theorem reads_no_operator {rest : List Word}
    (h : ∀ op ∈ ops, isWord (first rest) op.text = false) :
      Reads (acceptOperator ops) () rest none () rest := by
  refine .peek fun token htoken => ?_
  have hfind : ops.find? (fun op => token.is op.text) = none := by
    rw [find?_eq_none]
    intro op hop
    rw [Token.is_eq, htoken, h op hop]
    exact Bool.false_ne_true
  rw [hfind]
  exact .done

/-- A layer of operators of one level on top of the layer below it. -/
theorem readsLayer_chain {p : RuleParser Term} {top : Nat} (hp : ReadsLayer p top size)
    (hops : ∀ op, op ∈ ops ↔ level op = top + 1) (hn : 0 < n) :
    ReadsLayer (do Parser.chainLeft p (acceptOperator ops) n (← p)) (top + 1) size := by
  have hend : ∀ (k : Nat) (t : Term) rest, Closes (top + 1) rest →
      Reads (Parser.chainLeft p (acceptOperator ops) k t) () rest t () rest := by
    refine fun k t rest hrest => Reads.chainLeft_end (reads_no_operator fun op hop => ?_) k t
    exact hrest.isWord_eq_false (Nat.le_of_eq ((rankOf_operator op).trans ((hops op).mp hop)))
  constructor
  · intro t rest ht hinterval hsize hrest
    exact (hp.operand t rest ht hinterval hsize (hrest.mono (Nat.le_succ _))).bind (hend n t rest hrest)
  · intro op left right rest hlevel ht hsize hrest
    have hbelow : Closes top rest := hrest.mono (Nat.le_succ _)
    by_cases hop : level op = top + 1
    · obtain ⟨⟨hl, hli, hls⟩, hr, hri, hrs⟩ := operands ht hsize
      obtain ⟨m, rfl⟩ : ∃ m, n = m + 1 := ⟨n - 1, by omega⟩
      have hbetween : Closes top (mark op.text :: (right.words ++ rest)) :=
        closes_cons (by rw [rank_operator, hop]; exact Nat.lt_succ_self top)
      refine (hp.operand left _ hl hli hls hbetween).bind ((reads_operator ((hops op).mpr hop) _).bind ?_)
      exact (hp.operand right rest hr hri hrs hbelow).bind (hend m _ rest hrest)
    · have hlow : level op ≤ top := Nat.le_of_lt_succ (Nat.lt_of_le_of_ne hlevel hop)
      exact (hp.operation op left right rest hlow ht hsize hbelow).bind (hend n _ rest hrest)

theorem readsLayer_additive (hT : ReadsTerms T size) (hn : size + 1 ≤ n) :
    ReadsLayer (additive n T) 3 (size + 1) := by
  have hpower := readsLayer_power hT hn
  have hproduct : ReadsLayer (multiplicative n T) 2 (size + 1) :=
    readsLayer_chain hpower (fun op => by cases op <;> decide) (by omega)
  exact readsLayer_chain hproduct (fun op => by cases op <;> decide) (by omega)

/-- What is read between brackets can be read in one more pair of them. -/
theorem readsTerms_intervalOrSum (hT : ReadsTerms T size) (hn : size + 1 ≤ n) :
    ReadsTerms (intervalOrSum n T) (size + 1) := by
  have hsum := readsLayer_additive hT hn
  have hdots : ∀ rest, Closes 4 rest → isWord (first rest) ".." = false := fun rest hrest =>
    hrest.isWord_eq_false (by decide)
  constructor
  · intro t rest ht hsize hrest
    by_cases hinterval : t.isInterval = true
    · cases t with
      | interval lower upper =>
        obtain ⟨⟨-, hoperands⟩, hl, hu⟩ := Term.forall_subterms_interval.mp ht
        rw [Term.hasIntervalOperand, Bool.or_eq_false_iff] at hoperands
        rw [words, length_append, length_cons] at hsize
        rw [words, append_assoc, cons_append]
        refine (hsum.operand lower _ hl hoperands.1 (by omega) (closes_cons (by decide))).bind
          (.accept_cons rfl ?_)
        exact (hsum.operand upper rest hu hoperands.2 (by omega) (hrest.mono (by decide))).bind .done
      | _ => cases hinterval
    · have hread := hsum.operand t rest ht (Bool.not_eq_true _ ▸ hinterval) hsize (hrest.mono (by decide))
      exact hread.bind (.accept_not (hdots rest hrest) .done)
  · intro op left right rest ht hsize hrest
    have hlevel : level op ≤ 3 := by cases op <;> decide
    have hread := hsum.operation op left right rest hlevel ht hsize (hrest.mono (by decide))
    exact hread.bind (.accept_not (hdots rest hrest) .done)

end Layers

/-- The words of a term are read as the term. -/
theorem readsTerms_term (n : Nat) {depth : Nat} (hdepth : depth ≤ n) : ReadsTerms (term n depth) depth := by
  induction depth with
  | zero =>
    constructor
    · exact fun t rest ht hsize _ => absurd hsize (Nat.not_le.mpr (length_words_pos ht))
    · intro op left right rest ht hsize
      rw [length_append, length_cons] at hsize
      omega
  | succ depth ih => exact readsTerms_intervalOrSum (ih (Nat.le_of_succ_le hdepth)) hdepth

end Grammar

end LogicProgram.Rule
