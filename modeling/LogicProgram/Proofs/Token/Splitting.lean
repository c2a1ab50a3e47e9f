import LogicProgram.Formula.Basic
import LogicProgram.Token.Lexer
import Mathlib.Data.List.Forall2
import Mathlib.Tactic.Common

/-!
# The words of a text

A word is what a token says, without its place. `Splits t ws` says that a text is split
into words, and `Spells t ws` that it is in front of anything at which a word has to
end.
-/

namespace LogicProgram

open List
open Text (escape doubleQuote isDigit isChar quote)

/-- What a token says, wherever it stands. -/
abbrev Word := Token.Kind × Text

namespace Token

/-- What a token says. -/
def word (t : Token) : Word := (t.kind, t.value)

/-- The word after all others. -/
def endWord : Word := (.endOfInput, [])

/-- A text has the words `ws` and ends after them. -/
def Splits (t : Text) (ws : List Word) : Prop :=
  ∀ p, ∃ tokens last, tokenizeFrom p t = .ok (tokens ++ [last]) ∧ tokens.map word = ws ∧
    last.word = endWord

variable {b : UInt8} {r t k : Text} {ws vs : List Word} {w : Word}

theorem splits_nil : Splits [] [] := by
  intro p
  refine ⟨[], ⟨.endOfInput, [], p⟩, ?_, rfl, rfl⟩
  rw [tokenizeFrom]
  rfl

/-- The first segment, and what comes after it. -/
theorem Splits.cons {content : Option Word} {n : Nat} (h : segment b r = .ok ⟨content, n⟩)
    (hr : Splits (r.drop n) ws) : Splits (b :: r) (content.toList ++ ws) := by
  intro p
  obtain ⟨tokens, last, htokens, rfl, hlast⟩ := hr (p.after (b :: r.take n))
  cases content with
  | none =>
    refine ⟨tokens, last, ?_, rfl, hlast⟩
    simp only [tokenizeFrom, h, htokens]
  | some w =>
    refine ⟨⟨w.1, w.2, p⟩ :: tokens, last, ?_, rfl, hlast⟩
    simp only [tokenizeFrom, h, htokens]
    rfl

/-- A word at the start. -/
theorem Splits.word {kind : Kind} {value : Text}
    (h : segment b (r ++ k) = .ok (.token kind value r.length)) (hk : Splits k vs) :
    Splits (b :: r ++ k) ((kind, value) :: vs) := by
  refine Splits.cons h ?_
  rwa [drop_left]

/-- What holds of the bytes of all codes holds of all bytes. -/
theorem forall_byte {P : UInt8 → Prop} (h : ∀ n < 256, P (UInt8.ofNat n)) (b : UInt8) : P b := by
  have hb := h b.toNat b.toNat_lt
  rwa [UInt8.ofNat_toNat] at hb

/-- The bytes at which words end: white space, comments, brackets, bars and punctuation. -/
def isStop (b : UInt8) : Bool := b ∈ (" \t\n\x0d%(),|.;\x7d" : Text)

/-- What may follow a word. -/
def Stops (k : Text) : Prop := ∀ b ∈ k.head?, isStop b = true

theorem isStop_cases (b : UInt8) : isStop b = true → isWordByte b = false ∧ isDigit b = false := by
  revert b
  exact forall_byte (by decide +kernel)

theorem isLower_cases (b : UInt8) : Text.isLower b = true → isBlank b = false ∧
    isChar '%' b = false ∧ isDigit b = false ∧ b ≠ 0x3e := by
  revert b
  exact forall_byte (by decide +kernel)

theorem isUpper_cases (b : UInt8) : (Text.isUpper b || isChar '_' b) = true → isBlank b = false ∧
    isChar '%' b = false ∧ isDigit b = false ∧ Text.isLower b = false ∧ b ≠ 0x3e := by
  revert b
  exact forall_byte (by decide +kernel)

theorem isDigit_cases (b : UInt8) : isDigit b = true → isBlank b = false ∧
    isChar '%' b = false ∧ b ≠ 0x3e := by
  revert b
  exact forall_byte (by decide +kernel)

/-- A run of bytes of a class in front of one that ends it. -/
theorem takeWhile_append {p : UInt8 → Bool} (ht : ∀ c ∈ t, p c = true)
    (hk : ∀ c ∈ k.head?, p c = false) : (t ++ k).takeWhile p = t := by
  rw [takeWhile_append_of_pos ht]
  cases k with
  | nil => rw [takeWhile_nil, append_nil]
  | cons c k => rw [takeWhile_cons_of_neg (by simp [hk c rfl]), append_nil]

theorem Stops.not_isWordByte (h : Stops k) : ∀ c ∈ k.head?, isWordByte c = false :=
  fun c hc => (isStop_cases c (h c hc)).1

theorem Stops.not_isDigit (h : Stops k) : ∀ c ∈ k.head?, isDigit c = false :=
  fun c hc => (isStop_cases c (h c hc)).2

/-- What the words of a formula start with, also after a minus sign, where a `>` would
make an arrow of it. -/
def Starts (t : Text) : Prop := ∃ b r, t = b :: r ∧ isBlank b = false ∧ b ≠ 0x3e

theorem Starts.append (h : Starts t) (u : Text) : Starts (t ++ u) := by
  obtain ⟨b, t, rfl, hb⟩ := h
  exact ⟨b, _, rfl, hb⟩

/-- A text has the words `ws` in front of everything that may follow a word. -/
structure Spells (t : Text) (ws : List Word) : Prop where
  starts : Starts t
  splits : ∀ k vs, Stops k → Splits k vs → Splits (t ++ k) (ws ++ vs)

/-- A text between others has the one word `w`, and the others end and start there. -/
structure Separates (t : Text) (w : Word) : Prop where
  stops : ∀ k, Stops (t ++ k)
  splits : ∀ k vs, Starts k → Splits k vs → Splits (t ++ k) (w :: vs)

/-- A word that starts with a lower-case letter. -/
def IsIdentifier (name : Text) : Prop :=
  ∃ b r, name = b :: r ∧ Text.isLower b = true ∧ ∀ c ∈ r, isWordByte c = true

theorem spells_identifier (h : IsIdentifier t) : Spells t [(.identifier, t)] := by
  obtain ⟨b, r, rfl, hb, hr⟩ := h
  obtain ⟨hblank, hpercent, hdigit, hne⟩ := isLower_cases b hb
  refine ⟨⟨b, r, rfl, hblank, hne⟩, fun k vs hk hvs => ?_⟩
  refine Splits.word ?_ hvs
  simp [segment, hblank, hpercent, hdigit, hb, takeWhile_append hr hk.not_isWordByte]

/-- A word that starts with an upper-case letter or an underscore. -/
def IsVariableName (name : Text) : Prop :=
  ∃ b r, name = b :: r ∧ (Text.isUpper b || isChar '_' b) = true ∧ ∀ c ∈ r, isWordByte c = true

theorem spells_variable (h : IsVariableName t) : Spells t [(.variable, t)] := by
  obtain ⟨b, r, rfl, hb, hr⟩ := h
  obtain ⟨hblank, hpercent, hdigit, hlower, hne⟩ := isUpper_cases b hb
  refine ⟨⟨b, r, rfl, hblank, hne⟩, fun k vs hk hvs => ?_⟩
  refine Splits.word ?_ hvs
  rw [Bool.or_eq_true] at hb
  simp [segment, hblank, hpercent, hdigit, hlower, hb, takeWhile_append hr hk.not_isWordByte]

theorem spells_number (hne : t ≠ []) (ht : ∀ c ∈ t, isDigit c = true) :
    Spells t [(.number, t)] := by
  cases t with
  | nil => exact (hne rfl).elim
  | cons b r =>
    rw [forall_mem_cons] at ht
    obtain ⟨hblank, hpercent, hgreater⟩ := isDigit_cases b ht.1
    refine ⟨⟨b, r, rfl, hblank, hgreater⟩, fun k vs hk hvs => ?_⟩
    refine Splits.word ?_ hvs
    simp [segment, hblank, hpercent, ht.1, takeWhile_append ht.2 hk.not_isDigit]

theorem spells_directive (hne : t ≠ []) (ht : ∀ c ∈ t, isWordByte c = true) :
    Spells ("#" ++ t) [(.directive, t)] := by
  refine ⟨⟨0x23, t, rfl, by decide, by decide⟩, fun k vs hk hvs => ?_⟩
  refine Splits.word ?_ hvs
  simp +decide [segment, takeWhile_append ht hk.not_isWordByte, hne]

/-- The bytes of strings that are read as they are written: printable ASCII characters,
tabs and line feeds. -/
def isPlain (b : UInt8) : Bool := (0x20 ≤ b && b ≤ 0x7e) || b == 0x09 || b == 0x0a

/-- What stands for a byte after a backslash. -/
def escapeLetter (b : UInt8) : UInt8 := if b = 0x09 then 0x74 else if b = 0x0a then 0x6e else b

theorem isPlain_cases (b : UInt8) : isPlain b = true →
    b < 0x80 ∧ ((escape doubleQuote b.toNat = [0x5c, escapeLetter b] ∧
      unescape (escapeLetter b) = b) ∨
    (escape doubleQuote b.toNat = [b] ∧ b ≠ 0x5c ∧ b ≠ 0x22 ∧ b ≠ 0x0a)) := by
  revert b
  exact forall_byte (by decide +kernel)

/-- Plain bytes are code points. -/
theorem pieces_of_plain (h : ∀ b ∈ t, isPlain b = true) :
    Text.pieces t = t.map fun b => .code b.toNat [b] := by
  induction t with
  | nil => rw [Text.pieces, map_nil]
  | cons b t ih =>
    rw [forall_mem_cons] at h
    have hb := (isPlain_cases b h.1).1
    have hcode : Text.leadingCode b t = some (b.toNat, 0) := by
      unfold Text.leadingCode
      exact if_pos hb
    simp [Text.pieces, hcode, ih h.2]

/-- What a byte is written as is read as that byte. -/
theorem literal_escape (hb : isPlain b = true) :
    literal (escape doubleQuote b.toNat ++ t) = (literal t).map fun (value, n) =>
      (b :: value, n + (escape doubleQuote b.toNat).length) := by
  rcases (isPlain_cases b hb).2 with ⟨hescape, hletter⟩ | ⟨hescape, hbackslash, hquote, hline⟩
  · rw [hescape]
    simp [literal, hletter]
  · rw [hescape, singleton_append]
    conv_lhs => unfold literal
    simp [hbackslash, hquote, hline]

theorem literal_escaped (h : ∀ b ∈ t, isPlain b = true) :
    literal (t.flatMap (fun b => escape doubleQuote b.toNat) ++ 0x22 :: k) =
      some (t, (t.flatMap fun b => escape doubleQuote b.toNat).length + 1) := by
  induction t with
  | nil =>
    unfold literal
    rfl
  | cons b t ih =>
    rw [forall_mem_cons] at h
    rw [flatMap_cons, append_assoc, literal_escape h.1, ih h.2]
    simp
    omega

theorem spells_string (h : ∀ b ∈ t, isPlain b = true) : Spells (quote t) [(.string, t)] := by
  have hquote : quote t =
      0x22 :: ((t.flatMap fun b => escape doubleQuote b.toNat) ++ [0x22]) := by
    rw [quote, pieces_of_plain h, flatMap_map]
    rfl
  rw [hquote]
  refine ⟨⟨_, _, rfl, by decide, by decide⟩, fun k vs hk hvs => ?_⟩
  refine Splits.word ?_ hvs
  rw [append_assoc]
  simp +decide [segment, literal_escaped h]

/-- A symbol. -/
abbrev mark (t : Text) : Word := (.symbol, t)

theorem splits_open (h : Splits k vs) : Splits ("(" ++ k) (mark "(" :: vs) :=
  Splits.word (r := []) rfl h

theorem splits_close (h : Splits k vs) : Splits (")" ++ k) (mark ")" :: vs) :=
  Splits.word (r := []) rfl h

theorem splits_bar (h : Splits k vs) : Splits ("|" ++ k) (mark "|" :: vs) :=
  Splits.word (r := []) rfl h

theorem symbolSpellings_bytes : symbolSpellings = [
    [0x3c, 0x2d, 0x3e], [0x3a, 0x2d], [0x2d, 0x3e], [0x3c, 0x2d], [0x2e, 0x2e], [0x3c, 0x3d],
    [0x3e, 0x3d], [0x21, 0x3d], [0x3c, 0x3e], [0x3d, 0x3d], [0x2a, 0x2a], [0x28], [0x29],
    [0x7b], [0x7d], [0x5b], [0x5d], [0x2c], [0x3b], [0x2e], [0x3a], [0x2f], [0x3c], [0x3e],
    [0x3d], [0x2b], [0x2d], [0x2a], [0x5c], [0x7c], [0x40], [0x26], [0x5e], [0x3f], [0x7e]] := by
  decide

theorem splits_minus (hk : Starts k) (h : Splits k vs) : Splits ("-" ++ k) (mark "-" :: vs) := by
  obtain ⟨b, r, rfl, -, hb⟩ := hk
  have hne : ((0x3e : UInt8) == b) = false := by simpa using hb.symm
  have hfind : symbolSpellings.find? (·.isPrefixOf (0x2d :: b :: r)) = some [0x2d] := by
    simp [symbolSpellings_bytes, List.find?, isPrefixOf, hne]
  have hbyte : Text.ofString "-" = [0x2d] := rfl
  refine Splits.word (r := []) ?_ h
  simp +decide [segment, hfind, hbyte]

theorem splits_blank (hb : isBlank b = false) (h : Splits (b :: r) vs) :
    Splits (" " ++ b :: r) vs := by
  have hsegment : segment 0x20 (b :: r) = .ok (.skipped 0) := by
    simp +decide [segment, hb]
  exact Splits.cons hsegment h

theorem stops_of_head (hb : isStop b = true) : Stops (b :: r) := by
  intro c hc
  obtain rfl := Option.some.inj hc
  exact hb

theorem stops_nil : Stops [] := fun _ hb => nomatch hb

/-- A word between two blanks. -/
theorem separates_of_segment {kind : Kind} (hb : isBlank b = false)
    (h : ∀ k, segment b (r ++ " " ++ k) = .ok (.token kind (b :: r) r.length)) :
    Separates (" " ++ (b :: r) ++ " ") (kind, b :: r) where
  stops := fun k => stops_of_head (by decide)
  splits := fun k vs hk hvs => by
    have hrest : Splits (" " ++ k) vs := by
      obtain ⟨c, k, rfl, hc, -⟩ := hk
      exact splits_blank hc hvs
    have hword : Splits (b :: (r ++ (" " ++ k))) ((kind, b :: r) :: vs) := by
      refine Splits.word ?_ hrest
      rw [← append_assoc]
      exact h k
    have hblank := splits_blank hb hword
    rwa [append_assoc, append_assoc]

theorem separates_operator (op : Term.Operator) :
    Separates (" " ++ op.text ++ " ") (mark op.text) := by
  cases op <;> exact separates_of_segment (by decide) fun k => rfl

theorem separates_comparison (op : Comparison) :
    Separates (" " ++ op.text ++ " ") (mark op.text) := by
  cases op <;> exact separates_of_segment (by decide) fun k => rfl

theorem separates_arrow : Separates " -> " (mark "->") := by
  have harrow : Separates (" " ++ "->" ++ " ") (mark "->") :=
    separates_of_segment (by decide) fun k => rfl
  exact harrow

theorem separates_comma : Separates ", " (mark ",") where
  stops := fun k => stops_of_head (by decide)
  splits := fun k vs hk hvs => by
    obtain ⟨c, k, rfl, hc, -⟩ := hk
    exact Splits.word (r := []) rfl (splits_blank hc hvs)

namespace Spells

variable {u : Text}

theorem separated (ht : Spells t ws) (hs : Separates r w) (hu : Spells u vs) :
    Spells (t ++ r ++ u) (ws ++ w :: vs) where
  starts := (ht.starts.append r).append u
  splits := fun k us hk hus => by
    have hrest := hs.splits _ _ (hu.starts.append k) (hu.splits k us hk hus)
    have hall := ht.splits _ _ (hs.stops (u ++ k)) hrest
    simpa only [append_assoc, cons_append] using hall

/-- Two texts with a blank between them. -/
theorem blank (ht : Spells t ws) (hu : Spells u vs) : Spells (t ++ " " ++ u) (ws ++ vs) where
  starts := (ht.starts.append " ").append u
  splits := fun k us hk hus => by
    have hrest := hu.splits k us hk hus
    obtain ⟨b, u, rfl, hb⟩ := hu.starts
    have hstops : Stops (" " ++ (b :: u ++ k)) := stops_of_head (by decide)
    have hall := ht.splits _ _ hstops (splits_blank hb.1 hrest)
    simpa only [append_assoc] using hall

theorem group (ht : Spells t ws) : Spells ("(" ++ t ++ ")") (mark "(" :: ws ++ [mark ")"]) where
  starts := ⟨_, _, rfl, by decide, by decide⟩
  splits := fun k us _ hus => by
    have hstops : Stops (")" ++ k) := stops_of_head (by decide)
    have hall := splits_open (ht.splits _ _ hstops (splits_close hus))
    simpa only [append_assoc, cons_append, nil_append] using hall

theorem bars (ht : Spells t ws) : Spells ("|" ++ t ++ "|") (mark "|" :: ws ++ [mark "|"]) where
  starts := ⟨_, _, rfl, by decide, by decide⟩
  splits := fun k us _ hus => by
    have hstops : Stops ("|" ++ k) := stops_of_head (by decide)
    have hall := splits_bar (ht.splits _ _ hstops (splits_bar hus))
    simpa only [append_assoc, cons_append, nil_append] using hall

/-- A symbol before a text. -/
theorem marked (hu : Starts u) (hw : ∀ k vs, Splits k vs → Splits (u ++ k) (w :: vs))
    (ht : Spells t ws) : Spells (u ++ t) (w :: ws) where
  starts := hu.append t
  splits := fun k us hk hus => by
    have hall := hw _ _ (ht.splits _ _ hk hus)
    rwa [append_assoc]

theorem minus (ht : Spells t ws) : Spells ("-" ++ t) (mark "-" :: ws) where
  starts := ⟨_, _, rfl, by decide, by decide⟩
  splits := fun k us hk hus => by
    have hall := splits_minus (ht.starts.append k) (ht.splits _ _ hk hus)
    simpa only [append_assoc, cons_append] using hall

/-- A name before arguments in parentheses. -/
theorem applied (ht : Spells t ws) (hu : Spells u vs) :
    Spells (t ++ "(" ++ u ++ ")") (ws ++ mark "(" :: vs ++ [mark ")"]) where
  starts := ((ht.starts.append "(").append u).append ")"
  splits := fun k us hk hus => by
    have hstops : Stops ("(" ++ u ++ ")" ++ k) := stops_of_head (by decide)
    have hall := ht.splits _ _ hstops (hu.group.splits k us hk hus)
    simpa only [append_assoc, cons_append] using hall

end Spells

/-- Lists of words with a word between neighbours. -/
def joined (w : Word) : List (List Word) → List Word
  | [] => []
  | [ws] => ws
  | ws :: vs :: rest => ws ++ w :: joined w (vs :: rest)

theorem length_le_joined {wss : List (List Word)} (h : ws ∈ wss) :
    ws.length ≤ (joined w wss).length := by
  induction wss with
  | nil => exact absurd h not_mem_nil
  | cons vs wss ih =>
    cases wss with
    | nil => exact Nat.le_of_eq (congrArg List.length (mem_singleton.mp h))
    | cons us wss =>
      rw [joined, length_append, length_cons]
      rcases mem_cons.mp h with rfl | h
      · omega
      · have := ih h
        omega

/-- There are at least as many words as there are separators. -/
theorem length_le_length_joined (wss : List (List Word)) :
    wss.length ≤ (joined w wss).length + 1 := by
  induction wss with
  | nil => exact Nat.zero_le _
  | cons vs wss ih =>
    cases wss with
    | nil => simp
    | cons us wss =>
      simp only [joined, length_append, length_cons] at ih ⊢
      omega

/-- Words in parentheses if they are needed. -/
def grouped (needed : Bool) (ws : List Word) : List Word :=
  if needed then mark "(" :: ws ++ [mark ")"] else ws

/-- The words of arguments in parentheses. -/
def listed (wss : List (List Word)) : List Word :=
  if wss.isEmpty then [] else mark "(" :: joined (mark ",") wss ++ [mark ")"]

/-- A name before the words of its arguments. -/
def applied (name : Text) (wss : List (List Word)) : List Word :=
  (.identifier, name) :: listed wss

theorem spells_join {separator : Text} (hs : Separates separator w) {ts : List Text}
    {wss : List (List Word)} (h : Forall₂ Spells ts wss) (hne : ts ≠ []) :
    Spells (Text.join separator ts) (joined w wss) := by
  induction h with
  | nil => exact (hne rfl).elim
  | @cons t ws ts wss ht hts ih =>
    cases hts with
    | nil => exact ht
    | cons hu hus => exact ht.separated hs (ih (by simp))

/-- A text that is spelled out is split into the words. -/
theorem Spells.all (h : Spells t ws) : Splits t ws := by
  have hsplits := h.splits [] [] stops_nil splits_nil
  rwa [append_nil, append_nil] at hsplits

end Token

end LogicProgram
