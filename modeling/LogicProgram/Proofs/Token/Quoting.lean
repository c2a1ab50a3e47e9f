import LogicProgram.Proofs.Token.Splitting

/-!
# Reading quoted texts

A quoted text is always one string literal. It is read piece by piece, where a piece is
a code point or a byte that belongs to none.
-/

namespace LogicProgram

open List
open Text (hex escapePiece encode isPrintable escape doubleQuote)

namespace Text

variable {n : Nat} {a b c : UInt8}

/-- The bytes of a piece. -/
def Piece.bytes : Piece → Text
  | .code _ bytes => bytes
  | .stray byte => [byte]

/-- The bytes of the pieces of a text are those of the text. -/
theorem flatMap_bytes_pieces (t : Text) : (pieces t).flatMap Piece.bytes = t := by
  fun_induction pieces t with
  | case1 => rfl
  | case2 a r point n h ih =>
    rw [flatMap_cons, ih, Piece.bytes, cons_append, take_append_drop]
  | case3 a r h ih => rw [flatMap_cons, ih, Piece.bytes, singleton_append]

/-- A piece is the encoding of its code point, or a byte above those of ASCII. -/
def Piece.WellFormed : Piece → Prop
  | .code point bytes => encode point = bytes ∧ point < 0x200000
  | .stray byte => 0x80 ≤ byte

theorem toUInt8_eq (h : n = b.toNat) : n.toUInt8 = b := by
  rw [h]
  exact UInt8.ofNat_toNat

theorem isContinuation_iff : isContinuation b = true ↔ 0x80 ≤ b.toNat ∧ b.toNat ≤ 0xbf := by
  simp [isContinuation, UInt8.le_iff_toNat_le]

theorem encode_two (hlow : 0xc2 ≤ a.toNat) (hhigh : a.toNat ≤ 0xdf) (hb : isContinuation b = true) :
    encode (a.toNat % 32 * 64 + continuationBits b) = [a, b] := by
  obtain ⟨hb, hb'⟩ := isContinuation_iff.mp hb
  rw [continuationBits, encode, if_neg (by omega), if_pos (by omega), toUInt8_eq (b := a) (by omega),
    toUInt8_eq (b := b) (by omega)]

/-- The first and last leads of long sequences bound the second byte. -/
theorem lead_bounds {low below high top above : UInt8}
    (h : (if a == low then below ≤ b && b ≤ 0xbf else if a == high then 0x80 ≤ b && b ≤ top
      else low + 1 ≤ a && a ≤ above && isContinuation b) = true)
    (hlow : low.toNat ≤ high.toNat ∧ low.toNat ≤ (low + 1).toNat ∧ low.toNat ≤ above.toNat)
    (hsecond : 0x80 ≤ below.toNat ∧ top.toNat ≤ 0xbf) :
    low.toNat ≤ a.toNat ∧ a.toNat ≤ max high.toNat above.toNat ∧ 0x80 ≤ b.toNat ∧ b.toNat ≤ 0xbf ∧
      (a.toNat = low.toNat → below.toNat ≤ b.toNat) := by
  split at h
  · next ha =>
    obtain rfl := beq_iff_eq.mp ha
    simp only [Bool.and_eq_true, decide_eq_true_eq, UInt8.le_iff_toNat_le, UInt8.reduceToNat] at h
    omega
  · next hne =>
    have hne : a.toNat ≠ low.toNat := fun heq => hne (beq_iff_eq.mpr (UInt8.toNat_inj.mp heq))
    split at h
    · next ha =>
      obtain rfl := beq_iff_eq.mp ha
      simp only [Bool.and_eq_true, decide_eq_true_eq, UInt8.le_iff_toNat_le, UInt8.reduceToNat] at h
      omega
    · simp only [Bool.and_eq_true, decide_eq_true_eq, isContinuation_iff, UInt8.le_iff_toNat_le] at h
      omega

theorem encode_three (hab : isThreeByteLead a b = true) (hc : isContinuation c = true) :
    encode ((a.toNat % 16 * 64 + continuationBits b) * 64 + continuationBits c) = [a, b, c] := by
  have hlead := lead_bounds hab (by decide) (by decide)
  simp only [UInt8.reduceToNat] at hlead
  obtain ⟨hc, hc'⟩ := isContinuation_iff.mp hc
  rw [continuationBits, continuationBits, encode, if_neg (by omega), if_neg (by omega), if_pos (by omega),
    toUInt8_eq (b := a) (by omega), toUInt8_eq (b := b) (by omega), toUInt8_eq (b := c) (by omega)]

theorem encode_four {d : UInt8} (hab : isFourByteLead a b = true) (hc : isContinuation c = true)
    (hd : isContinuation d = true) :
    encode (((a.toNat % 8 * 64 + continuationBits b) * 64 + continuationBits c) * 64 + continuationBits d) =
      [a, b, c, d] := by
  have hlead := lead_bounds hab (by decide) (by decide)
  simp only [UInt8.reduceToNat] at hlead
  obtain ⟨hc, hc'⟩ := isContinuation_iff.mp hc
  obtain ⟨hd, hd'⟩ := isContinuation_iff.mp hd
  rw [continuationBits, continuationBits, continuationBits, encode, if_neg (by omega), if_neg (by omega),
    if_neg (by omega), toUInt8_eq (b := a) (by omega), toUInt8_eq (b := b) (by omega),
    toUInt8_eq (b := c) (by omega), toUInt8_eq (b := d) (by omega)]

/-- A sequence that is decoded is the encoding of its code point. -/
theorem wellFormed_leadingCode {r : Text} {point : Nat} (h : leadingCode a r = some (point, n)) :
    (Piece.code point (a :: r.take n)).WellFormed := by
  unfold leadingCode at h
  split at h
  · next hascii =>
    obtain ⟨rfl, rfl⟩ := Prod.mk.inj (Option.some.inj h)
    have hlt : a.toNat < 0x80 := hascii
    refine ⟨?_, by omega⟩
    rw [encode, if_pos hlt, toUInt8_eq rfl, take_zero]
  split at h
  · cases h
  next b r =>
  have hbits : ∀ x : UInt8, continuationBits x < 64 := fun x => Nat.mod_lt _ (by decide)
  split at h
  · next htwo =>
    obtain ⟨rfl, rfl⟩ := Prod.mk.inj (Option.some.inj h)
    simp only [Bool.and_eq_true, decide_eq_true_eq, UInt8.le_iff_toNat_le, UInt8.reduceToNat] at htwo
    have hb := hbits b
    exact ⟨encode_two htwo.1.1 htwo.1.2 htwo.2, by omega⟩
  split at h
  · cases h
  next c r =>
  split at h
  · next hthree =>
    obtain ⟨rfl, rfl⟩ := Prod.mk.inj (Option.some.inj h)
    obtain ⟨hab, hc⟩ := Bool.and_eq_true_iff.mp hthree
    have hb := hbits b
    have hc' := hbits c
    exact ⟨encode_three hab hc, by omega⟩
  split at h
  · cases h
  next d r =>
  split at h
  · next hfour =>
    obtain ⟨rfl, rfl⟩ := Prod.mk.inj (Option.some.inj h)
    obtain ⟨habc, hd⟩ := Bool.and_eq_true_iff.mp hfour
    obtain ⟨hab, hc⟩ := Bool.and_eq_true_iff.mp habc
    have hb := hbits b
    have hc' := hbits c
    have hd' := hbits d
    exact ⟨encode_four hab hc hd, by omega⟩
  · cases h

/-- The pieces of a text are well-formed. -/
theorem wellFormed_pieces (t : Text) : ∀ piece ∈ pieces t, piece.WellFormed := by
  fun_induction pieces t with
  | case1 => exact nofun
  | case2 a r point n h ih => exact forall_mem_cons.mpr ⟨wellFormed_leadingCode h, ih⟩
  | case3 a r h ih =>
    refine forall_mem_cons.mpr ⟨?_, ih⟩
    by_contra hascii
    rw [leadingCode.eq_def, if_pos (UInt8.not_le.mp hascii)] at h
    cases h

/-- A piece is read as it is from a quoted text: a printable code point, a tab or a new line. -/
def Piece.survives : Piece → Bool
  | .code point _ => isPrintable point || point == 9 || point == 10
  | .stray _ => false

end Text

namespace Token

/-- The part `u` of a string literal stands for `v`. -/
def Denotes (u v : Text) : Prop :=
  ∀ k, literal (u ++ k) = (literal k).map fun r => (v ++ r.1, r.2 + u.length)

/-- A byte that stands for itself in a string literal. -/
def isOrdinary (b : UInt8) : Bool := b != 0x5c && b != 0x22 && b != 0x0a

variable {b : UInt8} {u u' v v' : Text}

theorem denotes_nil : Denotes [] [] := by
  intro k
  rw [nil_append]
  cases literal k <;> rfl

theorem Denotes.append (h : Denotes u v) (h' : Denotes u' v') : Denotes (u ++ u') (v ++ v') := by
  intro k
  rw [append_assoc, h, h', Option.map_map]
  refine congrArg (fun f => Option.map f (literal k)) (funext fun r => ?_)
  simp only [Function.comp_apply, append_assoc, length_append, Prod.mk.injEq, true_and]
  omega

theorem denotes_byte (h : isOrdinary b = true) : Denotes [b] [b] := by
  simp only [isOrdinary, Bool.and_eq_true, bne_iff_ne] at h
  intro k
  rw [singleton_append]
  conv_lhs => unfold literal
  simp [h]

theorem denotes_escaped (c : UInt8) : Denotes [0x5c, c] [unescape c] := by
  intro k
  simp [literal]

theorem denotes_ordinary (h : ∀ b ∈ u, isOrdinary b = true) : Denotes u u := by
  induction u with
  | nil => exact denotes_nil
  | cons b u ih =>
    obtain ⟨hb, hu⟩ := forall_mem_cons.mp h
    exact (denotes_byte hb).append (ih hu)

theorem isOrdinary_hex (width n : Nat) : ∀ b ∈ hex width n, isOrdinary b = true := by
  have hdigit : ∀ d < 16, isOrdinary (Text.hexDigit d) = true := by decide
  induction width generalizing n with
  | zero => exact nofun
  | succ width ih =>
    rw [hex]
    exact forall_mem_append.mpr ⟨ih _, forall_mem_singleton.mpr (hdigit _ (Nat.mod_lt n (by decide)))⟩

theorem length_hex (width n : Nat) : (hex width n).length = width := by
  induction width generalizing n with
  | zero => rfl
  | succ width ih => rw [hex, length_append, ih, length_singleton]

/-- A number in hexadecimal digits loses its backslash. -/
theorem denotes_hex (hc : unescape c = c) (width n : Nat) :
    Denotes ([0x5c, c] ++ hex width n) (c :: hex width n) := by
  have hall := (denotes_escaped c).append (denotes_ordinary (isOrdinary_hex width n))
  rwa [hc] at hall

/-- What a piece of a quoted text is read as: at least as many bytes, and those of the piece exactly
if it survives. -/
structure ReadAs (piece : Text.Piece) (v : Text) : Prop where
  denotes : Denotes (escapePiece piece) v
  length : piece.bytes.length ≤ v.length
  /-- The bytes are those of the piece exactly if it survives. -/
  same : v = piece.bytes ↔ piece.survives = true

/-- A piece that becomes longer does not survive. -/
theorem readAs_longer {piece : Text.Piece} (hv : Denotes (escapePiece piece) v)
    (hlength : piece.bytes.length < v.length) (hlost : piece.survives = false) : ReadAs piece v where
  denotes := hv
  length := Nat.le_of_lt hlength
  same := by
    rw [hlost]
    refine ⟨fun h => ?_, fun h => nomatch h⟩
    rw [h] at hlength
    exact absurd hlength (Nat.lt_irrefl _)

/-- The form that a character takes: its own, a letter after a backslash, or a number. -/
def Escapes (n : Nat) : Prop :=
  (escape doubleQuote n = [n.toUInt8] ∧ isOrdinary n.toUInt8 = true ∧ isPrintable n = true) ∨
  (∃ c ∈ (escape doubleQuote n).getLast?, escape doubleQuote n = [0x5c, c] ∧
    decide (unescape c = n.toUInt8) = (isPrintable n || n == 9 || n == 10)) ∨
  (escape doubleQuote n = [0x5c, 0x78] ++ hex 2 n ∧
    (isPrintable n || n == 9 || n == 10) = false)

instance (n : Nat) : Decidable (Escapes n) := inferInstanceAs (Decidable (_ ∨ _ ∨ _))

/-- The forms that characters of ASCII take. -/
theorem escape_ascii (hn : n < 128) : Escapes n :=
  (by decide : ∀ n < 128, Escapes n) n hn

theorem readAs_ascii (hn : n < 128) : ∃ v, ReadAs (.code n [n.toUInt8]) v := by
  rcases escape_ascii hn with ⟨hescape, hordinary, hprintable⟩ | ⟨c, -, hescape, hsame⟩ | ⟨hescape, hlost⟩
  · refine ⟨[n.toUInt8], ⟨?_, Nat.le_refl _, ?_⟩⟩
    · rw [escapePiece, hescape]
      exact denotes_byte hordinary
    · simp [Text.Piece.bytes, Text.Piece.survives, hprintable]
  · refine ⟨[unescape c], ⟨?_, Nat.le_refl _, ?_⟩⟩
    · rw [escapePiece, hescape]
      exact denotes_escaped c
    · rw [Text.Piece.survives, ← hsame, Text.Piece.bytes, decide_eq_true_eq, singleton_inj]
  · refine ⟨0x78 :: hex 2 n, readAs_longer ?_ ?_ hlost⟩
    · rw [escapePiece, hescape]
      exact denotes_hex rfl 2 n
    · rw [length_cons, length_hex]
      exact Nat.lt_add_of_pos_left Nat.two_pos

/-- The bytes of other code points stand for themselves. -/
theorem isOrdinary_encode (hn : 128 ≤ n) (hn' : n < 0x200000) :
    ∀ b ∈ encode n, isOrdinary b = true := by
  have hbyte : ∀ b < 256, 128 ≤ b → isOrdinary b.toUInt8 = true := by decide +kernel
  intro b hb
  unfold encode at hb
  split at hb
  · omega
  split at hb
  · simp only [mem_cons, not_mem_nil, or_false] at hb
    rcases hb with rfl | rfl <;> exact hbyte _ (by omega) (by omega)
  split at hb
  · simp only [mem_cons, not_mem_nil, or_false] at hb
    rcases hb with rfl | rfl | rfl <;> exact hbyte _ (by omega) (by omega)
  · simp only [mem_cons, not_mem_nil, or_false] at hb
    rcases hb with rfl | rfl | rfl | rfl <;> exact hbyte _ (by omega) (by omega)

theorem length_encode_le (n : Nat) : (encode n).length ≤ 4 := by
  unfold encode
  repeat' split
  all_goals simp only [length_cons, length_nil, Nat.reduceAdd, Nat.reduceLeDiff, Nat.le_refl]

/-- The forms that other code points take. -/
theorem escape_beyond (hn : 128 ≤ n) : escape doubleQuote n = if isPrintable n then encode n
    else if n < 0x10000 then [0x5c, 0x75] ++ hex 4 n else [0x5c, 0x55] ++ hex 8 n := by
  have hmark : (n == doubleQuote || n == Text.backslash) = false := by
    simp only [doubleQuote, Text.backslash, Bool.or_eq_false_iff, beq_eq_false_iff_ne]
    omega
  have hletter : Text.controlLetter n = none := by
    unfold Text.controlLetter
    split
    all_goals first | rfl | omega
  have hcontrol : (n < 0x20 || n == 0x7f) = false := by
    simp only [Bool.or_eq_false_iff, decide_eq_false_iff_not, beq_eq_false_iff_ne]
    omega
  rw [escape, hmark, hletter, if_neg Bool.false_ne_true]
  dsimp only
  rw [hcontrol, if_neg Bool.false_ne_true]
  rfl

theorem readAs_beyond (hn : 128 ≤ n) (hn' : n < 0x200000) : ∃ v, ReadAs (.code n (encode n)) v := by
  have hescape := escape_beyond hn
  have hlength := length_encode_le n
  by_cases hprintable : isPrintable n = true
  · rw [if_pos hprintable] at hescape
    refine ⟨encode n, ⟨?_, Nat.le_refl _, ?_⟩⟩
    · rw [escapePiece, hescape]
      exact denotes_ordinary (isOrdinary_encode hn hn')
    · simp [Text.Piece.bytes, Text.Piece.survives, hprintable]
  · rw [if_neg hprintable] at hescape
    have hlost : (Text.Piece.code n (encode n)).survives = false := by
      simp only [Text.Piece.survives, hprintable, Bool.false_or, Bool.or_eq_false_iff, beq_eq_false_iff_ne]
      omega
    split at hescape
    · refine ⟨0x75 :: hex 4 n, readAs_longer ?_ ?_ hlost⟩
      · rw [escapePiece, hescape]
        exact denotes_hex rfl 4 n
      · rw [length_cons, length_hex]
        exact Nat.lt_succ_of_le hlength
    · refine ⟨0x55 :: hex 8 n, readAs_longer ?_ ?_ hlost⟩
      · rw [escapePiece, hescape]
        exact denotes_hex rfl 8 n
      · rw [length_cons, length_hex]
        exact Nat.lt_of_le_of_lt hlength (by decide)

theorem exists_readAs {piece : Text.Piece} (h : piece.WellFormed) : ∃ v, ReadAs piece v := by
  cases piece with
  | code n bytes =>
    obtain ⟨rfl, hn⟩ := h
    by_cases hascii : n < 128
    · rw [encode, if_pos hascii]
      exact readAs_ascii hascii
    · exact readAs_beyond (Nat.not_lt.mp hascii) hn
  | stray b =>
    refine ⟨0x78 :: hex 2 b.toNat, readAs_longer (denotes_hex rfl 2 b.toNat) ?_ rfl⟩
    rw [length_cons, length_hex]
    exact Nat.lt_add_of_pos_left Nat.two_pos

/-- Pieces are read one after the other, and none becomes shorter. -/
theorem exists_denotes {pieces : List Text.Piece} (h : ∀ piece ∈ pieces, piece.WellFormed) :
    ∃ v, Denotes (pieces.flatMap escapePiece) v ∧ (pieces.flatMap (·.bytes)).length ≤ v.length ∧
      (v = pieces.flatMap (·.bytes) ↔ ∀ piece ∈ pieces, piece.survives = true) := by
  induction pieces with
  | nil => exact ⟨[], denotes_nil, Nat.le_refl _, by simp⟩
  | cons piece pieces ih =>
    obtain ⟨hpiece, hpieces⟩ := forall_mem_cons.mp h
    obtain ⟨v, hv⟩ := exists_readAs hpiece
    obtain ⟨v', hv', hlength, hsame⟩ := ih hpieces
    have hfirst := hv.length
    refine ⟨v ++ v', hv.denotes.append hv', ?_, ?_⟩
    · rw [flatMap_cons, length_append, length_append]
      omega
    · rw [flatMap_cons, forall_mem_cons, ← hv.same, ← hsame]
      refine ⟨fun heq => ?_, fun heq => by rw [heq.1, heq.2]⟩
      have htotal := congrArg List.length heq
      rw [length_append, length_append] at htotal
      exact append_inj heq (by omega)

/-- A quoted text is one string literal, whose value is the text exactly if the text has printable code
points, tabs and new lines alone. -/
theorem tokenize_quote (t : Text) : ∃ value, (tokenize (Text.quote t)).map (·.map word) =
    .ok [(.string, value), endWord] ∧ (value = t ↔ ∀ piece ∈ Text.pieces t, piece.survives = true) := by
  obtain ⟨v, hv, -, hsame⟩ := exists_denotes (Text.wellFormed_pieces t)
  rw [Text.flatMap_bytes_pieces] at hsame
  refine ⟨v, ?_, hsame⟩
  have hliteral : literal ((Text.pieces t).flatMap Text.escapePiece ++ [0x22]) =
      some (v, ((Text.pieces t).flatMap Text.escapePiece ++ [0x22]).length) := by
    rw [hv, length_append]
    simp [literal, Nat.add_comm]
  have hsplits : Splits (0x22 :: ((Text.pieces t).flatMap Text.escapePiece ++ [0x22]) ++ []) [(.string, v)] := by
    refine Splits.word ?_ splits_nil
    rw [append_nil]
    simp +decide [segment, hliteral]
  rw [append_nil] at hsplits
  obtain ⟨tokens, last, htokens, hwords, hlast⟩ := hsplits .start
  have hquote : Text.quote t = 0x22 :: ((Text.pieces t).flatMap Text.escapePiece ++ [0x22]) := rfl
  rw [tokenize, hquote, htokens]
  show Except.ok ((tokens ++ [last]).map word) = _
  rw [map_append, hwords, map_singleton, hlast]
  rfl

/-- The bell is quoted with a letter that the reader takes for itself. -/
theorem tokenize_quote_bell : Text.quote [0x07] = "\"\\a\"" ∧
    (tokenize (Text.quote [0x07])).map (·.map word) = .ok [(.string, "a"), endWord] := by
  constructor
  · decide +kernel
  · decide +kernel

end Token

end LogicProgram
