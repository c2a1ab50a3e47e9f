import LogicProgram.Proofs.Token.Quoting
import Mathlib.Data.List.TakeWhile

/-!
# The words that a text is split into

Whatever the text, its words have the form of their kind, and one end token comes
after them.
-/

namespace LogicProgram.Token

open List

variable {b : UInt8} {r t u v k : Text} {w : Word} {s : Segment}

/-- A word has the form of its kind. The end of the text is none. -/
def Proper : Word → Prop
  | (.endOfInput, _) => False
  | (.identifier, t) => IsIdentifier t
  | (.variable, t) => IsVariableName t
  | (.number, t) => t ≠ [] ∧ ∀ c ∈ t, Text.isDigit c = true
  | (.string, _) => True
  | (.directive, t) => t ≠ [] ∧ ∀ c ∈ t, isWordByte c = true
  | (.symbol, t) => t ∈ symbolSpellings

/-- The inside of a string literal, and its value: a byte that stands for itself, or any byte after a backslash. -/
inductive Inside : Text → Text → Prop
  | nil : Inside [] []
  | ordinary {b : UInt8} {v u : Text} : isOrdinary b = true → Inside v u → Inside (b :: v) (b :: u)
  | escaped {c : UInt8} {v u : Text} : Inside v u → Inside (unescape c :: v) (0x5c :: c :: u)

theorem Inside.denotes (h : Inside v u) : Denotes u v := by
  induction h with
  | nil => exact denotes_nil
  | ordinary hb _ ih => exact (denotes_byte hb).append ih
  | escaped _ ih => exact (denotes_escaped _).append ih

theorem Inside.literal (h : Inside v u) : literal (u ++ 0x22 :: k) = some (v, u.length + 1) := by
  have hend : Token.literal (0x22 :: k) = some ([], 1) := by
    unfold Token.literal
    rfl
  rw [h.denotes, hend, Option.map_some, append_nil, Nat.add_comm]

/-- A literal that is read has an inside. -/
theorem exists_inside {n : Nat} (h : literal r = some (v, n)) :
    ∃ u k, Inside v u ∧ r = u ++ 0x22 :: k ∧ n = u.length + 1 := by
  fun_induction literal r generalizing v n with
  | case1 => cases h
  | case2 => cases h
  | case3 b hb c r ih =>
    obtain ⟨x, hx, heq⟩ := Option.map_eq_some_iff.mp h
    obtain ⟨rfl, rfl⟩ := Prod.mk.inj heq
    obtain ⟨u, k, hu, rfl, hn⟩ := ih hx
    obtain rfl := beq_iff_eq.mp hb
    exact ⟨_, k, .escaped hu, rfl, by rw [hn]; rfl⟩
  | case4 b r hb hquote =>
    obtain ⟨rfl, rfl⟩ := Prod.mk.inj (Option.some.inj h)
    obtain rfl := beq_iff_eq.mp hquote
    exact ⟨[], r, .nil, rfl, rfl⟩
  | case5 => cases h
  | case6 b r hb hquote hline ih =>
    obtain ⟨x, hx, heq⟩ := Option.map_eq_some_iff.mp h
    obtain ⟨rfl, rfl⟩ := Prod.mk.inj heq
    obtain ⟨u, k, hu, rfl, hn⟩ := ih hx
    exact ⟨_, k, .ordinary (by simp_all [isOrdinary]) hu, rfl, by rw [hn]; rfl⟩

/-- How a word is written: as it is, but for a directive and a string. -/
def SpelledAs : Word → Text → Prop
  | (.directive, v), t => Proper (.directive, v) ∧ t = 0x23 :: v
  | (.string, v), t => ∃ u, Inside v u ∧ t = 0x22 :: u ++ [0x22]
  | w, t => Proper w ∧ t = w.2

theorem take_takeWhile (q : UInt8 → Bool) : r.take (r.takeWhile q).length = r.takeWhile q :=
  (prefix_iff_eq_take.mp ( takeWhile_prefix q)).symm

/-- What is no word and no comment: a comment or string that does not end, a directive without a name, or a byte
that no word starts with. -/
inductive Offends : Text → Prop
  | comment {r : Text} : ¬ [0x2a, 0x25] <:+: r → Offends (0x25 :: 0x2a :: r)
  | string {r : Text} : (∀ v u k, Inside v u → r ≠ u ++ 0x22 :: k) → Offends (0x22 :: r)
  | directive {r : Text} : (∀ c ∈ r.head?, isWordByte c = false) → Offends (0x23 :: r)
  | byte {b : UInt8} {r : Text} : isBlank b = false → b ∉ ("%#\"_" : Text) → Text.isDigit b = false →
      Text.isLower b = false → Text.isUpper b = false → (∀ t ∈ symbolSpellings, ¬ t <+: b :: r) →
        Offends (b :: r)

/-- Without white space and comments there is a word, or something offends. -/
theorem segment_word (r : Text) (hb : isBlank b = false) (hp : Text.isChar '%' b = false) :
    (∃ detail, segment b r = .error detail ∧ Offends (b :: r)) ∨
      ∃ w n, segment b r = .ok ⟨some w, n⟩ ∧ SpelledAs w (b :: r.take n) := by
  have hrun : ∀ q : UInt8 → Bool, ∀ c ∈ r.takeWhile q, q c = true := fun q c hc => mem_takeWhile_imp hc
  unfold segment
  rw [hb, hp, if_neg Bool.false_ne_true, if_neg Bool.false_ne_true]
  split_ifs with hdigit hlower hupper hhash hquote
  · refine .inr ⟨_, _, rfl, ⟨cons_ne_nil _ _, forall_mem_cons.mpr ⟨hdigit, hrun _⟩⟩, ?_⟩
    rw [take_takeWhile]
  · refine .inr ⟨_, _, rfl, ⟨b, _, rfl, hlower, hrun _⟩, ?_⟩
    rw [take_takeWhile]
  · refine .inr ⟨_, _, rfl, ⟨b, _, rfl, hupper, hrun _⟩, ?_⟩
    rw [take_takeWhile]
  · obtain rfl : b = 0x23 := beq_iff_eq.mp hhash
    dsimp only
    split_ifs with hempty
    · refine .inl ⟨_, rfl, .directive fun c hc => Bool.eq_false_iff.mpr fun hword => ?_⟩
      obtain ⟨rest, rfl⟩ := head?_eq_some_iff.mp hc
      rw [takeWhile_cons_of_pos hword] at hempty
      cases hempty
    · refine .inr ⟨_, _, rfl, ⟨fun hnil => hempty (isEmpty_iff.mpr hnil), hrun _⟩, ?_⟩
      rw [take_takeWhile]
  · obtain rfl : b = 0x22 := beq_iff_eq.mp hquote
    cases hliteral : literal r with
    | none =>
      refine .inl ⟨_, rfl, .string fun v u k hu hr => ?_⟩
      rw [hr, hu.literal] at hliteral
      cases hliteral
    | some x =>
      obtain ⟨u, k, hu, rfl, hn⟩ := exists_inside hliteral
      refine .inr ⟨_, _, rfl, u, hu, ?_⟩
      rw [hn, take_length_add_append]
      rfl
  · cases hfind : symbolSpellings.find? (·.isPrefixOf (b :: r)) with
    | none =>
      refine .inl ⟨_, rfl, .byte hb ?_ (Bool.eq_false_iff.mpr hdigit)
        (Bool.eq_false_iff.mpr hlower) ?_ fun t ht hprefix => ?_⟩
      · show b ∉ [0x25, 0x23, 0x22, 0x5f]
        simp only [mem_cons, not_mem_nil, or_false]
        rintro (rfl | rfl | rfl | rfl)
        · cases hp
        · exact hhash rfl
        · exact hquote rfl
        · exact hupper rfl
      · exact Bool.eq_false_iff.mpr fun hu => hupper (by rw [hu]; rfl)
      · exact find?_eq_none.mp hfind t ht ( isPrefixOf_iff_prefix.mpr hprefix)
    | some spelling =>
      have hprefix := find?_some hfind
      have htake := prefix_iff_eq_take.mp ( isPrefixOf_iff_prefix.mp hprefix)
      have hp : spelling ∈ symbolSpellings := mem_of_find?_eq_some hfind
      refine .inr ⟨_, _, rfl, hp, ?_⟩
      cases spelling with
      | nil => exact absurd hp (by decide)
      | cons c spelling => exact htake.symm

theorem SpelledAs.proper (h : SpelledAs w t) : Proper w := by
  obtain ⟨kind, v⟩ := w
  cases kind
  case string => trivial
  all_goals exact h.1

theorem content_comment {r : Text} {s : Segment} (h : comment r = .ok s) : s.content = none := by
  unfold comment at h
  split at h
  · rw [← Except.ok.inj h]
    rfl
  · split at h
    · split at h
      · rw [← Except.ok.inj h]
        rfl
      · cases h
    · rw [← Except.ok.inj h]
      rfl

theorem segment_proper (h : segment b r = .ok s) (hs : s.content = some w) : Proper w := by
  by_cases hblank : isBlank b = true
  · rw [segment, if_pos hblank] at h
    rw [← Except.ok.inj h] at hs
    cases hs
  by_cases hpercent : Text.isChar '%' b = true
  · rw [segment, if_neg hblank, if_pos hpercent] at h
    rw [content_comment h] at hs
    cases hs
  rcases segment_word r (Bool.eq_false_iff.mpr hblank) (Bool.eq_false_iff.mpr hpercent) with
    ⟨detail, herror, -⟩ | ⟨w', n, hsegment, hspelled⟩
  · rw [herror] at h
    cases h
  · obtain rfl := Except.ok.inj (hsegment.symm.trans h)
    obtain rfl := Option.some.inj hs
    exact hspelled.proper

/-- Tokens are proper words before one end token, wherever the text starts. -/
theorem tokenizeFrom_proper {p : Position} {t : Text} {tokens : List Token}
    (h : tokenizeFrom p t = .ok tokens) : ∃ ts last, tokens = ts ++ [last] ∧ last.word = endWord ∧
      (∀ token ∈ ts, Proper token.word) ∧ Splits t (ts.map word) := by
  fun_induction tokenizeFrom p t generalizing tokens with
  | case1 p =>
    obtain rfl := Except.ok.inj h
    exact ⟨[], _, rfl, rfl, nofun, splits_nil⟩
  | case2 => cases h
  | case3 => cases h
  | case4 p b r s hsegment rest hrest hcontent ih =>
    obtain rfl := Except.ok.inj h
    obtain ⟨ts, last, rfl, hlast, hts, hsplits⟩ := ih hrest
    obtain ⟨content, n⟩ := s
    obtain rfl : content = none := hcontent
    exact ⟨ts, last, rfl, hlast, hts, hsplits.cons hsegment⟩
  | case5 p b r s hsegment rest hrest kind value hcontent ih =>
    obtain rfl := Except.ok.inj h
    obtain ⟨ts, last, rfl, hlast, hts, hsplits⟩ := ih hrest
    have hproper := segment_proper hsegment hcontent
    obtain ⟨content, n⟩ := s
    obtain rfl : content = some (kind, value) := hcontent
    exact ⟨⟨kind, value, p⟩ :: ts, last, rfl, hlast, forall_mem_cons.mpr ⟨hproper, hts⟩,
      hsplits.cons hsegment⟩

/-- A text that can be split has its words in tokens. -/
theorem Splits.tokenize {t : Text} {ws : List Word} (h : Splits t ws) : ∃ tokens last,
    Token.tokenize t = .ok (tokens ++ [last]) ∧ tokens.map Token.word = ws ∧ last.word = endWord := h .start

/-- Where a text is split once, it is split so anywhere. -/
theorem splits_of_tokenize {t : Text} {ws : List Word}
    (h : (tokenize t).map (·.map word) = .ok (ws ++ [endWord])) : Splits t ws := by
  cases htokens : tokenize t with
  | error e =>
    rw [htokens] at h
    cases h
  | ok tokens =>
    obtain ⟨ts, last, rfl, hlast, -, hsplits⟩ := tokenizeFrom_proper htokens
    rw [htokens] at h
    have hwords : (ts ++ [last]).map word = ws ++ [endWord] := Except.ok.inj h
    rw [map_append] at hwords
    exact (append_inj_left' hwords rfl) ▸ hsplits

end LogicProgram.Token
