import LogicProgram.Proofs.Token.Seam
import Mathlib.Data.List.Induction

/-!
# How a text is laid out

Between the words of a text stand white space and comments. Each word is written in one
way only, save for the escapes of strings.
-/

namespace LogicProgram

open List

/-- The place after a text: lines are counted by line feeds, and columns by the bytes since the last one. -/
def Position.past (t : Text) : Position := ⟨1 + t.count 0x0a, 1 + (t.reverse.takeWhile (· != 0x0a)).length⟩

namespace Position

variable {t u : Text}

theorem after_start (t : Text) : start.after t = past t := by
  induction t using reverseRecOn with
  | nil => rfl
  | append_singleton t b ih =>
    rw [after_append, ih]
    by_cases hb : b = 0x0a
    · subst hb
      exact congrArg₂ Position.mk (by rw [count_append]; rfl) (by rw [reverse_append]; rfl)
    · have hline : Text.isChar '\n' b = false := beq_eq_false_iff_ne.mpr hb
      rw [after_cons, advance, hline]
      refine congrArg₂ Position.mk ?_ ?_
      · rw [count_append, count_singleton, if_neg (by simpa using hb)]
        rfl
      · rw [reverse_append, reverse_singleton, singleton_append, takeWhile_cons_of_pos (by simpa using hb)]
        rfl

/-- The place `n` lines further down. -/
def down (n : Nat) (p : Position) : Position := ⟨p.line + n, p.column⟩

theorem after_down {n : Nat} {p : Position} : (p.down n).after t = (p.after t).down n := by
  induction t generalizing p with
  | nil => rfl
  | cons b t ih =>
    have hadvance : (p.down n).advance b = (p.advance b).down n := by
      cases hb : Text.isChar '\n' b with
      | false => simp [advance, down, hb]
      | true => simp [advance, down, hb, Nat.add_right_comm]
    rw [after_cons, hadvance, ih]
    rfl

theorem after_past : (past t).after u = past (t ++ u) := by
  rw [← after_start, ← after_append, after_start]

end Position

namespace Token

variable {b : UInt8} {r t u v k body inside : Text} {w : Word} {s : Segment} {p : Position}

/-- What a comment up to the end of a line says. -/
def IsLine (body : Text) : Prop := 0x0a ∉ body ∧ body.head? ≠ some 0x2a

/-- What is passed at once: a byte of white space, a line that is a comment, or a comment up to the first `*%`. -/
inductive Skips : Text → Prop
  | blank {b : UInt8} : isBlank b = true → Skips [b]
  | line {body : Text} : IsLine body → Skips (0x25 :: (body ++ [0x0a]))
  | block {inside : Text} : ¬ [0x2a, 0x25] <:+: inside → Skips (0x25 :: 0x2a :: (inside ++ [0x2a, 0x25]))

/-- What may stand between words. -/
inductive Filler : Text → Prop
  | nil : Filler []
  | cons {t u : Text} : Skips t → Filler u → Filler (t ++ u)

/-- The rest of a line. -/
theorem comment_line (h : IsLine body) (hk : ∀ c ∈ k.head?, c = 0x0a) :
    comment (body ++ k) = .ok (.skipped body.length) := by
  have hrun : (body ++ k).takeWhile (!Text.isChar '\n' ·) = body := by
    refine takeWhile_append (fun c hc => ?_) fun c hc => ?_
    · have hne : c ≠ 0x0a := fun he => h.1 (he ▸ hc)
      exact (Bool.not_eq_true' _).mpr (beq_eq_false_iff_ne.mpr hne)
    · rw [hk c hc]
      rfl
  rw [comment.eq_def]
  split
  · next hnil => rw [(append_eq_nil_iff.mp hnil).1]; rfl
  · next c rest hcons =>
    have hstar : ¬ Text.isChar '*' c = true := by
      intro hc
      obtain rfl : c = 0x2a := beq_iff_eq.mp hc
      cases body with
      | nil => exact absurd (hk 0x2a (congrArg head? hcons)) (by decide)
      | cons d body => exact h.2 (congrArg (some ·) (List.cons.inj hcons).1)
    rw [if_neg hstar, hrun]

/-- A segment without a word is passed. -/
theorem tokenizeFrom_skipped (h : segment b (u ++ k) = .ok (.skipped u.length)) :
    tokenizeFrom p (b :: u ++ k) = tokenizeFrom (p.after (b :: u)) k := by
  rw [cons_append, tokenizeFrom_cons h]
  show Except.map ([] ++ ·) (tokenizeFrom (p.after (b :: (u ++ k).take u.length))
    ((u ++ k).drop u.length)) = _
  rw [take_left, drop_left]
  exact map_nil_append _

/-- What stands between words is passed. -/
theorem tokenizeFrom_skips (h : Skips t) : tokenizeFrom p (t ++ k) = tokenizeFrom (p.after t) k := by
  cases h with
  | blank hb => exact tokenizeFrom_blank hb
  | @line body hbody =>
    have hsegment : segment 0x25 (body ++ 0x0a :: k) = .ok (.skipped body.length) :=
      comment_line hbody (by simp)
    rw [← cons_append, append_assoc, Position.after_append]
    exact (tokenizeFrom_skipped hsegment).trans (tokenizeFrom_blank rfl)
  | @block inside hinside =>
    refine tokenizeFrom_skipped (u := 0x2a :: inside ++ [0x2a, 0x25]) ?_
    refine (comment_block (inside ++ [0x2a, 0x25] ++ k)).trans ?_
    rw [splitFirst?_close hinside]
    simp

theorem Filler.splits {ws : List Word} (h : Filler u) (hk : Splits k ws) : Splits (u ++ k) ws := by
  induction h with
  | nil => exact hk
  | cons ht _ ih =>
    intro p
    rw [append_assoc, tokenizeFrom_skips ht]
    exact ih _

/-- What is between words starts with white space or a comment. -/
theorem Filler.head (h : Filler u) (hne : u ≠ []) : ∀ c ∈ (u ++ k).head?, isBlank c = true ∨ c = 0x25 := by
  cases h with
  | nil => exact (hne rfl).elim
  | cons ht _ =>
    rintro c hc
    cases ht with
    | blank hb => exact .inl (Option.some.inj hc ▸ hb)
    | line _ | block _ => exact .inr (Option.some.inj hc).symm

/-- The bytes that can come after a word there end it. -/
theorem isStop_of_blank (b : UInt8) : isBlank b = true ∨ b = 0x25 → isStop b = true ∧
    ∀ t ∈ symbolSpellings, b ∉ t := by
  revert b
  exact forall_byte (by decide +kernel)

/-- A symbol is the first that fits if it stands alone. -/
theorem symbol_cases : ∀ t ∈ symbolSpellings, symbolSpellings.find? (·.isPrefixOf t) = some t ∧
    ∀ b ∈ t.head?, isBlank b = false ∧ Text.isChar '%' b = false ∧ Text.isDigit b = false ∧
      Text.isLower b = false ∧
      Text.isUpper b = false ∧ Text.isChar '_' b = false ∧ Text.isChar '#' b = false ∧ b ≠ 0x22 := by
  decide +kernel

/-- A word before something that ends it. -/
theorem SpelledAs.splits {vs : List Word} (h : SpelledAs w t)
    (hk : ∀ c ∈ k.head?, isBlank c = true ∨ c = 0x25)
    (hvs : Splits k vs) : Splits (t ++ k) (w :: vs) := by
  have hstops : Stops k := fun c hc => (isStop_of_blank c (hk c hc)).1
  obtain ⟨kind, v⟩ := w
  cases kind with
  | endOfInput => exact h.1.elim
  | identifier => exact h.2 ▸ (spells_identifier h.1).splits k vs hstops hvs
  | «variable» => exact h.2 ▸ (spells_variable h.1).splits k vs hstops hvs
  | number => exact h.2 ▸ (spells_number h.1.1 h.1.2).splits k vs hstops hvs
  | directive => exact h.2 ▸ (spells_directive h.1.1 h.1.2).splits k vs hstops hvs
  | string =>
    obtain ⟨u, hu, rfl⟩ := h
    refine Splits.word ?_ hvs
    simp +decide [segment, hu.literal]
  | symbol =>
    obtain ⟨hsymbol, rfl⟩ := h
    obtain ⟨hfind, hfirst⟩ := symbol_cases t hsymbol
    cases t with
    | nil => exact absurd (show [] ∈ symbolSpellings from hsymbol) (by decide)
    | cons b t =>
      have hfind : symbolSpellings.find? (·.isPrefixOf (b :: (t ++ k))) = some (b :: t) := by
        cases k with
        | nil => rwa [append_nil]
        | cons e k =>
          refine (find?_congr fun u hu => ?_).trans hfind
          exact isPrefixOf_append_cons (t := b :: t) (isStop_of_blank e (hk e rfl)).2 hu
      obtain ⟨hblank, hpercent, hdigit, hlower, hupper, hunderscore, hhash, hquote⟩ := hfirst b rfl
      refine Splits.word ?_ hvs
      simp [segment, hblank, hpercent, hdigit, hlower, hupper, hunderscore, hhash, hquote, hfind]

/-- Every byte stands for itself, or an escape stands for it. -/
theorem isOrdinary_cases (b : UInt8) : isOrdinary b = true ∨ ∃ c ∈ [b, 0x6e], unescape c = b := by
  revert b
  exact forall_byte (by decide +kernel)

theorem exists_spelledAs (h : Proper w) : ∃ t, SpelledAs w t := by
  obtain ⟨kind, v⟩ := w
  cases kind
  case string =>
    have hinside : ∃ u, Inside v u := by
      induction v with
      | nil => exact ⟨[], .nil⟩
      | cons b v ih =>
        obtain ⟨u, hu⟩ := ih trivial
        rcases isOrdinary_cases b with hb | ⟨c, -, rfl⟩
        · exact ⟨_, .ordinary hb hu⟩
        · exact ⟨_, .escaped hu⟩
    obtain ⟨u, hu⟩ := hinside
    exact ⟨_, u, hu, rfl⟩
  all_goals exact ⟨_, h, rfl⟩

/-- Words, each with its spelling and what follows it, after what comes first. -/
def spaced : Text → List (Word × Text × Text) → Text
  | u, [] => u
  | u, (_, t, u') :: rest => u ++ (t ++ spaced u' rest)

theorem splits_spaced {items : List (Word × Text × Text)} (hu : Filler u)
    (hitems : ∀ x ∈ items, SpelledAs x.1 x.2.1 ∧ Filler x.2.2 ∧ x.2.2 ≠ []) :
      Splits (spaced u items) (items.map (·.1)) := by
  induction items generalizing u with
  | nil =>
    have hsplits := hu.splits splits_nil
    rwa [append_nil] at hsplits
  | cons x items ih =>
    obtain ⟨⟨hspelled, hfiller, hne⟩, hitems⟩ := forall_mem_cons.mp hitems
    refine hu.splits (hspelled.splits ?_ (ih hfiller hitems))
    cases items with
    | nil =>
      have hhead := hfiller.head (k := []) hne
      rwa [append_nil] at hhead
    | cons y items => exact hfiller.head hne

/-- Every word has a spelling. Words that are spelled out with something between them, before and after them, are what
the text is split into. -/
theorem tokenize_spaced : (∀ w, Proper w → ∃ t, SpelledAs w t) ∧ ∀ u items, Filler u →
    (∀ x ∈ items, SpelledAs x.1 x.2.1 ∧ Filler x.2.2 ∧ x.2.2 ≠ []) →
    (tokenize (spaced u items)).map (·.map word) = .ok (items.map (·.1) ++ [endWord]) := by
  refine ⟨fun w => exists_spelledAs, fun u items hu hitems => ?_⟩
  obtain ⟨tokens, last, htokens, hwords, hlast⟩ := (splits_spaced hu hitems).tokenize
  rw [htokens, ← hwords, ← hlast]
  exact congrArg Except.ok map_append

/-- A symbol between a comment and another, both of which share a byte with it. -/
theorem tokenize_spaced_star :
    (tokenize "%**%*%**%").map (·.map word) = .ok [mark "*", endWord] := by
  have hcomment : Filler "%**%" := .cons (@Skips.block [] (by decide)) .nil
  have hstar : Text.ofString "*" ∈ symbolSpellings := by decide
  refine tokenize_spaced.2 "%**%" [(mark "*", "*", "%**%")] hcomment fun x hx => ?_
  obtain rfl := mem_singleton.mp hx
  exact ⟨⟨hstar, rfl⟩, hcomment, cons_ne_nil _ _⟩

/-- What becomes of a text that comes after `before`. Words stand where they do behind what is between them, the end
after everything, and an error where something offends. -/
inductive Layout : Text → Text → Except Error (List Token) → Prop
  | done {before u c : Text} : Filler u → (c = [] ∨ ∃ body, IsLine body ∧ c = 0x25 :: body) →
      Layout before (u ++ c) (.ok [⟨.endOfInput, [], .past (before ++ (u ++ c))⟩])
  | stuck {before u k detail : Text} : Filler u → Offends k →
      Layout before (u ++ k) (.error (.lexical detail (.past (before ++ u))))
  | word {before u t k : Text} {w : Word} {result : Except Error (List Token)} : Filler u → SpelledAs w t →
      Layout (before ++ u ++ t) k result →
      Layout before (u ++ t ++ k) (result.map (⟨w.1, w.2, .past (before ++ u)⟩ :: ·))

/-- More may be passed first. -/
theorem Layout.skip {before : Text} {result : Except Error (List Token)}
    (h : Layout (before ++ t) k result) (ht : Skips t) :
    Layout before (t ++ k) result := by
  cases h with
  | @done _ u c hu hc =>
    rw [append_assoc before, ← append_assoc t]
    exact .done (.cons ht hu) hc
  | @stuck _ u k detail hu hk =>
    rw [append_assoc before, ← append_assoc t]
    exact .stuck (.cons ht hu) hk
  | @word _ u t' k w result hu ht' hk =>
    rw [append_assoc before] at hk ⊢
    rw [← append_assoc t, ← append_assoc t]
    exact .word (.cons ht hu) ht' hk

/-- What may come after a percent sign. -/
theorem comment_cases (r : Text) : IsLine r ∨ (∃ t k, Skips (0x25 :: t) ∧ r = t ++ k) ∨
    ∃ r', r = 0x2a :: r' ∧ ¬ [0x2a, 0x25] <:+: r' := by
  cases r with
  | nil => exact .inl ⟨not_mem_nil, by rintro ⟨⟩⟩
  | cons c r =>
    by_cases hstar : c = 0x2a
    · subst hstar
      have hcases := splitFirst?_cases r
      cases hsplit : Text.splitFirst? [0x2a, 0x25] r with
      | none =>
        rw [hsplit] at hcases
        exact .inr (.inr ⟨r, rfl, hcases⟩)
      | some x =>
        rw [hsplit] at hcases
        exact .inr (.inl ⟨_, x.2, .block hcases.2, congrArg (0x2a :: ·) hcases.1⟩)
    · by_cases hline : 0x0a ∈ c :: r
      · obtain ⟨body, k, heq, hbody⟩ := eq_append_cons_of_mem hline
        refine .inr (.inl ⟨body ++ [0x0a], k, .line ⟨hbody, fun hhead => ?_⟩, by simpa using heq⟩)
        obtain ⟨rest, rfl⟩ := head?_eq_some_iff.mp hhead
        exact hstar (List.cons.inj heq).1
      · exact .inl ⟨hline, fun hhead => hstar (Option.some.inj hhead)⟩

/-- Every text is laid out as its tokens or the error say. -/
theorem tokenizeFrom_layout (before t : Text) : Layout before t (tokenizeFrom (.past before) t) := by
  induction hn : t.length using Nat.strong_induction_on generalizing before t with
  | _ n ih =>
    subst hn
    have hskips : ∀ u k, Skips u → t = u ++ k → Layout before t (tokenizeFrom (.past before) t) := by
      rintro u k hu rfl
      have hpos : 0 < u.length := by cases hu <;> simp
      rw [tokenizeFrom_skips hu, Position.after_past]
      exact (ih k.length (by rw [length_append]; omega) _ _ rfl).skip hu
    cases t with
    | nil =>
      have hdone : Layout before ([] ++ []) _ := .done .nil (.inl rfl)
      rw [tokenizeFrom]
      simpa using hdone
    | cons b r =>
      have hstuck : ∀ detail, segment b r = .error detail → Offends (b :: r) →
          Layout before (b :: r) (tokenizeFrom (.past before) (b :: r)) := by
        intro detail herror hoffends
        have hstuck : Layout before ([] ++ b :: r)
            (.error (.lexical detail (.past (before ++ [])))) := .stuck .nil hoffends
        rw [append_nil] at hstuck
        rw [tokenizeFrom, herror]
        exact hstuck
      cases hblank : isBlank b with
      | true => exact hskips [b] r (.blank hblank) rfl
      | false =>
        cases hpercent : Text.isChar '%' b with
        | true =>
          obtain rfl : b = 0x25 := beq_iff_eq.mp hpercent
          rcases comment_cases r with hline | ⟨t, k, ht, rfl⟩ | ⟨r', rfl, hopen⟩
          · have hsegment : segment 0x25 (r ++ []) = .ok (.skipped r.length) :=
              comment_line hline (by rintro c ⟨⟩)
            have hdone : Layout before ([] ++ 0x25 :: r) _ := .done .nil (.inr ⟨r, hline, rfl⟩)
            have hend := tokenizeFrom_skipped (p := .past before) hsegment
            rw [append_nil, Position.after_past, tokenizeFrom] at hend
            rw [hend]
            exact hdone
          · exact hskips _ k ht rfl
          · refine hstuck "block comment is not terminated" ?_ (.comment hopen)
            refine (comment_block r').trans ?_
            have hcases := splitFirst?_cases r'
            cases hsplit : Text.splitFirst? [0x2a, 0x25] r' with
            | none => rfl
            | some x =>
              rw [hsplit] at hcases
              exact (hopen ⟨x.1, x.2, hcases.1.symm⟩).elim
        | false =>
          rcases segment_word r hblank hpercent with ⟨detail, herror, hoffends⟩ | ⟨w, n, hsegment, hspelled⟩
          · exact hstuck detail herror hoffends
          · have hrest := ih (r.drop n).length (by rw [length_drop, length_cons]; omega)
              (before ++ b :: r.take n) (r.drop n) rfl
            rw [tokenizeFrom_cons hsegment, Position.after_past]
            have hword : Layout before ([] ++ (b :: r.take n) ++ r.drop n) _ :=
              .word .nil hspelled (by simpa using hrest)
            simpa using hword

/-- Every text is laid out as the tokenizer says. -/
theorem tokenize_layout (t : Text) : Layout [] t (tokenize t) := tokenizeFrom_layout [] t

/-- The token `n` lines further down. -/
def down (n : Nat) (t : Token) : Token := { t with position := t.position.down n }

/-- A text further down has its tokens further down. -/
theorem tokenizeFrom_down {n : Nat} {tokens : List Token} (h : tokenizeFrom p t = .ok tokens) :
    tokenizeFrom (p.down n) t = .ok (tokens.map (down n)) := by
  fun_induction tokenizeFrom p t generalizing tokens with
  | case1 p =>
    obtain rfl := Except.ok.inj h
    rw [tokenizeFrom]
    rfl
  | case2 => cases h
  | case3 => cases h
  | case4 p b r s hsegment rest hrest hcontent ih =>
    obtain rfl := Except.ok.inj h
    rw [tokenizeFrom_cons hsegment, Position.after_down, ih hrest, hcontent]
    rfl
  | case5 p b r s hsegment rest hrest kind value hcontent ih =>
    obtain rfl := Except.ok.inj h
    rw [tokenizeFrom_cons hsegment, Position.after_down, ih hrest, hcontent]
    rfl

/-- Two texts with a line feed between them have the tokens of both. -/
theorem tokenize_line {ts us : List Token} {last : Token} (ht : tokenize t = .ok (ts ++ [last]))
    (hu : tokenize u = .ok us) :
    tokenize (t ++ 0x0a :: u) = .ok (ts ++ us.map (down (1 + t.count 0x0a))) := by
  have hplace : Position.start.after (t ++ [0x0a]) = Position.start.down (1 + t.count 0x0a) := by
    rw [Position.after_start, Position.past, count_append, reverse_append, Nat.add_comm (t.count _)]
    rfl
  rw [tokenize, tokenizeFrom_append rfl (.inl rfl) ht, hplace, tokenizeFrom_down hu]
  rfl

end Token

end LogicProgram
