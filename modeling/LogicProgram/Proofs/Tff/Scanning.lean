import LogicProgram.Proofs.Token.Splitting
import LogicProgram.Tff.Basic

/-!
# The words of typed formulas

The text of a proof problem is made of words, of marks of one to three bytes, and of
blanks between them. It is scanned from its end, so that a byte is put in front of
what comes after it.
-/

namespace LogicProgram.Tff

open List

/-- A piece of the text of a proof problem. -/
inductive Lexeme where
  | blank
  /-- Letters, digits, underscores and dollar signs. -/
  | word (text : Text)
  /-- Other bytes that belong together. -/
  | mark (text : Text)
deriving DecidableEq, Repr

namespace Lexeme

/-- A byte inside a word. -/
def isWordByte (b : UInt8) : Bool :=
  Text.isLower b || Text.isUpper b || Text.isDigit b || Text.isChar '_' b || Text.isChar '$' b

/-- The marks of several bytes. -/
def longMarks : List Text := [("<=>" : Text), "=>", "!="]

/-- A byte of a word in front of pieces. -/
def pushWord (b : UInt8) : List Lexeme → List Lexeme
  | .word w :: rest => .word (b :: w) :: rest
  | ls => .word [b] :: ls

/-- A byte of a mark in front of pieces. -/
def pushMark (b : UInt8) : List Lexeme → List Lexeme
  | .mark m :: rest =>
    if longMarks.contains (b :: m) then .mark (b :: m) :: rest else .mark [b] :: .mark m :: rest
  | ls => .mark [b] :: ls

/-- A byte in front of pieces. -/
def push (b : UInt8) (ls : List Lexeme) : List Lexeme :=
  if Token.isBlank b then .blank :: ls else if isWordByte b then pushWord b ls else pushMark b ls

/-- The class of a word: numerals start with a digit, variables with an upper-case letter, and
symbols with a lower-case letter or a dollar sign. -/
def kindOf (w : Text) : Token.Kind :=
  let b := w.headD 0
  if Text.isDigit b then .number
  else if Text.isUpper b then .variable
  else if Text.isLower b || Text.isChar '$' b then .identifier
  else .directive

/-- What a piece says; blanks say nothing. -/
def said? : Lexeme → Option Word
  | .blank => none
  | .word w => some (kindOf w, w)
  | .mark m => some (Token.mark m)

end Lexeme

open Lexeme (push said? kindOf isWordByte)

/-- The words and marks of a text. -/
def wordsOf (t : Text) : List Word := (t.foldr push []).filterMap said?

/-- No word goes on at the start of the pieces. -/
def StartsNoWord (ls : List Lexeme) : Prop := ∀ w rest, ls ≠ .word w :: rest

/-- A text has the words `ws` in front of everything that does not continue a word. -/
def Scans (t : Text) (ws : List Word) : Prop :=
  ∀ ls, StartsNoWord ls → (t.foldr push ls).filterMap said? = ws ++ ls.filterMap said?

/-- A text has the marks `ws` in front of everything, and ends words before it. -/
def Marks (t : Text) (ws : List Word) : Prop :=
  ∀ ls, StartsNoWord (t.foldr push ls) ∧ (t.foldr push ls).filterMap said? = ws ++ ls.filterMap said?

section

variable {t u s : Text} {ws vs us : List Word}

/-- Marks before a text. -/
theorem Marks.before (hs : Marks s vs) (hu : Scans u us) : Scans (s ++ u) (vs ++ us) := by
  intro ls hls
  rw [foldr_append, append_assoc, ← hu ls hls]
  exact (hs _).2

/-- Marks after a text. -/
theorem Scans.before (ht : Scans t ws) (hs : Marks s vs) : Scans (t ++ s) (ws ++ vs) := by
  intro ls _
  rw [foldr_append, append_assoc, ← (hs ls).2]
  exact ht _ (hs ls).1

/-- Marks between two texts. -/
theorem Scans.between (ht : Scans t ws) (hs : Marks s vs) (hu : Scans u us) :
    Scans (t ++ s ++ u) (ws ++ vs ++ us) := by
  intro ls hls
  rw [append_assoc, foldr_append, append_assoc, append_assoc]
  have hrest := hs (u.foldr push ls)
  rw [hu ls hls, ← foldr_append] at hrest
  rw [ht _ hrest.1, hrest.2]

theorem scans_join {w : Word} (hs : Marks s [w]) {ts : List Text} {wss : List (List Word)}
    (h : Forall₂ Scans ts wss) (hne : ts ≠ []) : Scans (Text.join s ts) (Token.joined w wss) := by
  induction h with
  | nil => exact (hne rfl).elim
  | @cons t ws ts wss ht hts ih =>
    cases hts with
    | nil => exact ht
    | cons hu hus =>
      have hall := ht.between hs (ih (cons_ne_nil _ _))
      rwa [append_assoc ws] at hall

end

section

variable {b : UInt8} {ls : List Lexeme}

theorem push_of_word (hblank : Token.isBlank b = false) (hword : isWordByte b = true) :
    push b ls = Lexeme.pushWord b ls := by
  rw [push, if_neg (by simp [hblank]), if_pos hword]

/-- A byte that starts no mark of several bytes is a mark. -/
theorem push_mark (hblank : Token.isBlank b = false) (hword : isWordByte b = false)
    (hlong : ∀ m ∈ Lexeme.longMarks, m.head? ≠ some b) : push b ls = .mark [b] :: ls := by
  have hnot : ∀ m, b :: m ∉ Lexeme.longMarks := fun m hm => hlong _ hm rfl
  rw [push, if_neg (by simp [hblank]), if_neg (by simp [hword])]
  cases ls with
  | nil => rfl
  | cons l ls =>
    cases l with
    | mark m => exact if_neg (by simpa using hnot m)
    | blank => rfl
    | word w => rfl

theorem pushWord_first (hls : StartsNoWord ls) : Lexeme.pushWord b ls = .word [b] :: ls := by
  cases ls with
  | nil => rfl
  | cons l ls =>
    cases l with
    | word w => exact (hls w ls rfl).elim
    | blank => rfl
    | mark m => rfl

theorem isWordByte_not_blank (b : UInt8) : isWordByte b = true → Token.isBlank b = false := by
  revert b
  exact Token.forall_byte (by decide +kernel)

/-- A word is one piece. -/
theorem foldr_push_word {w : Text} (hne : w ≠ []) (hw : ∀ c ∈ w, isWordByte c = true)
    (hls : StartsNoWord ls) : w.foldr push ls = .word w :: ls := by
  induction w with
  | nil => exact (hne rfl).elim
  | cons c w ih =>
    rw [forall_mem_cons] at hw
    rw [foldr_cons, push_of_word (isWordByte_not_blank c hw.1) hw.1]
    cases w with
    | nil => exact pushWord_first hls
    | cons d w => rw [ih (cons_ne_nil _ _) hw.2, Lexeme.pushWord]

theorem scans_word {w : Text} (hne : w ≠ []) (hw : ∀ c ∈ w, isWordByte c = true) :
    Scans w [(kindOf w, w)] := by
  intro ls hls
  rw [foldr_push_word hne hw hls]
  rfl

end

/-- A text that is scanned as the same pieces in front of everything. -/
theorem marks_of_pieces {t : Text} (l : Lexeme) (ls : List Lexeme)
    (h : ∀ rest, t.foldr push rest = l :: ls ++ rest) (hl : ∀ w, l ≠ .word w) {ws : List Word}
    (hws : (l :: ls).filterMap said? = ws) : Marks t ws := by
  intro rest
  rw [h rest, filterMap_append, hws]
  exact ⟨fun w rest heq => hl w (List.cons.inj heq).1, rfl⟩

/-- A byte that starts no mark of several bytes. -/
theorem marks_byte {b : UInt8} (hblank : Token.isBlank b = false) (hword : isWordByte b = false)
    (hlong : ∀ m ∈ Lexeme.longMarks, m.head? ≠ some b) : Marks [b] [Token.mark [b]] :=
  marks_of_pieces (t := [b]) (.mark [b]) [] (fun _ => push_mark hblank hword hlong) (by simp) rfl

theorem marks_open : Marks "(" [Token.mark "("] :=
  marks_byte (b := 0x28) (by decide) (by decide) (by decide)

theorem marks_close : Marks ")" [Token.mark ")"] :=
  marks_byte (b := 0x29) (by decide) (by decide) (by decide)

theorem marks_not : Marks "~" [Token.mark "~"] :=
  marks_byte (b := 0x7e) (by decide) (by decide) (by decide)

theorem marks_comma : Marks ", " [Token.mark ","] :=
  marks_of_pieces (.mark ",") [.blank] (fun _ => rfl) (by simp) rfl

theorem marks_colon : Marks ": " [Token.mark ":"] :=
  marks_of_pieces (.mark ":") [.blank] (fun _ => rfl) (by simp) rfl

theorem marks_equal : Marks " = " [Token.mark "="] :=
  marks_of_pieces .blank [.mark "=", .blank] (fun _ => rfl) (by simp) rfl

theorem marks_different : Marks " != " [Token.mark "!="] :=
  marks_of_pieces .blank [.mark "!=", .blank] (fun _ => rfl) (by simp) rfl

theorem marks_parameters_end : Marks "]: " [Token.mark "]", Token.mark ":"] :=
  marks_of_pieces (.mark "]") [.mark ":", .blank] (fun _ => rfl) (by simp) rfl

theorem marks_quantifier (q : Quantifier) :
    Marks (quantifierText q ++ "[") [Token.mark (quantifierText q), Token.mark "["] := by
  have hopen : ∀ rest, push 0x5b rest = .mark "[" :: rest :=
    fun rest => push_mark (by decide) (by decide) (by decide)
  -- an exclamation mark could be the first of two bytes
  cases q with
  | universal =>
    refine marks_of_pieces (.mark "!") [.mark "["] (fun rest => ?_) (by simp) rfl
    show push 0x21 (push 0x5b rest) = _
    rw [hopen]
    rfl
  | existential =>
    refine marks_of_pieces (.mark "?") [.mark "["] (fun rest => ?_) (by simp) rfl
    show push 0x3f (push 0x5b rest) = _
    rw [hopen]
    rfl

/-- The mark of a connective. -/
def Connective.mark : Connective → Word
  | and => Token.mark "&"
  | or => Token.mark "|"
  | implies => Token.mark "=>"
  | iff => Token.mark "<=>"

theorem marks_connective (connective : Connective) : Marks connective.text [connective.mark] := by
  cases connective with
  | and => exact marks_of_pieces .blank [.mark "&", .blank] (fun _ => rfl) (by simp) rfl
  | or => exact marks_of_pieces .blank [.mark "|", .blank] (fun _ => rfl) (by simp) rfl
  | implies => exact marks_of_pieces .blank [.mark "=>", .blank] (fun _ => rfl) (by simp) rfl
  | iff => exact marks_of_pieces .blank [.mark "<=>", .blank] (fun _ => rfl) (by simp) rfl

end LogicProgram.Tff
