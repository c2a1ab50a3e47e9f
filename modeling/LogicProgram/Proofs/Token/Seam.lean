import LogicProgram.Proofs.Token.Lexing
import Mathlib.Data.List.Find

/-!
# Texts one after the other

A text before white space has its tokens whatever comes then: no token that ends in the text could go
on there, and a comment only if it is open to the end of the line and the line does not end.
-/

namespace LogicProgram

open List

namespace Position

variable {k : Nat} {p : Position} {t u : Text}

theorem after_append : p.after (t ++ u) = (p.after t).after u := foldl_append

theorem after_cons {b : UInt8} : p.after (b :: t) = (p.advance b).after t := rfl

end Position

namespace Token

variable {b e : UInt8} {r t k inside : Text} {s : Segment} {p : Position}

/-- Whether what starts with a byte is a comment that only the end of a line could end. -/
def opensComment (b : UInt8) (r : Text) : Bool :=
  Text.isChar '%' b && !Text.isChar '*' (r.headD 0) && !r.contains 0x0a

/-- Whether a comment is still open at the end of a text. -/
def endsInComment : Text → Bool
  | [] => false
  | b :: r => opensComment b r ||
    match segment b r with
    | .error _ => false
    | .ok s => endsInComment (r.drop s.tailLength)
termination_by t => t.length
decreasing_by simp only [length_drop, length_cons]; omega

/-- Without a percent sign there is no comment. -/
theorem endsInComment_eq_false (h : t.all (!Text.isChar '%' ·) = true) : endsInComment t = false := by
  fun_induction endsInComment t with
  | case1 => rfl
  | case2 b r ih =>
    rw [all_cons, Bool.and_eq_true, Bool.not_eq_true'] at h
    rw [opensComment, h.1]
    cases segment b r with
    | error e => rfl
    | ok s => exact ih s (all_eq_true.mpr fun c hc => all_eq_true.mp h.2 c (mem_of_mem_drop hc))

/-- A string literal ends at its closing quote. -/
theorem literal_append {v : Text} {n : Nat} (h : literal t = some (v, n)) :
    literal (t ++ k) = some (v, n) ∧ n ≤ t.length := by
  obtain ⟨u, rest, hu, rfl, rfl⟩ := exists_inside h
  refine ⟨?_, by rw [length_append, length_cons]; omega⟩
  rw [append_assoc]
  exact hu.literal

/-- The first end of a comment. -/
theorem splitFirst?_close (h : ¬ [0x2a, 0x25] <:+: inside) :
    Text.splitFirst? [0x2a, 0x25] (inside ++ [0x2a, 0x25] ++ k) = some (inside, k) := by
  induction inside with
  | nil => rfl
  | cons b inside ih =>
    have hno : ¬ isPrefixOf [0x2a, 0x25] (b :: (inside ++ [0x2a, 0x25] ++ k)) = true := by
      intro hprefix
      obtain ⟨tail, heq⟩ := isPrefixOf_iff_prefix.mp hprefix
      cases inside with
      | nil => cases heq
      | cons c inside =>
        obtain ⟨rfl, htail⟩ := List.cons.inj heq
        obtain ⟨rfl, -⟩ := List.cons.inj htail
        exact h ⟨[], inside, rfl⟩
    rw [cons_append, cons_append, Text.splitFirst?, if_neg hno, ih fun hi => h (infix_cons hi)]
    rfl

theorem splitFirst?_cases (t : Text) : match Text.splitFirst? [0x2a, 0x25] t with
    | some (inside, k) => t = inside ++ [0x2a, 0x25] ++ k ∧ ¬ [0x2a, 0x25] <:+: inside
    | none => ¬ [0x2a, 0x25] <:+: t := by
  induction t with
  | nil => simp [Text.splitFirst?]
  | cons b t ih =>
    rw [Text.splitFirst?]
    split_ifs with hprefix
    · obtain ⟨tail, heq⟩ := isPrefixOf_iff_prefix.mp hprefix
      rw [← heq]
      exact ⟨rfl, by simp⟩
    · rw [ isPrefixOf_iff_prefix] at hprefix
      cases hsplit : Text.splitFirst? [0x2a, 0x25] t with
      | none =>
        rw [hsplit] at ih
        exact fun hi => (infix_cons_iff.mp hi).elim hprefix ih
      | some x =>
        rw [hsplit] at ih
        refine ⟨congrArg (b :: ·) ih.1, fun hi => (infix_cons_iff.mp hi).elim (fun hb => hprefix ?_) ih.2⟩
        rw [ih.1, append_assoc, ← cons_append]
        exact hb.trans (prefix_append _ _)

theorem comment_block (r : Text) : comment (0x2a :: r) = match Text.splitFirst? [0x2a, 0x25] r with
    | some (inside, _) => .ok (.skipped (inside.length + 3))
    | none => .error "block comment is not terminated" := rfl

/-- No word, number or symbol has a blank inside. -/
theorem isBlank_cases (b : UInt8) : isBlank b = true → isWordByte b = false ∧ Text.isDigit b = false ∧
    ∀ t ∈ symbolSpellings, b ∉ t := by
  revert b
  exact forall_byte (by decide +kernel)

/-- A run of bytes of a class ends where it ended before. -/
theorem takeWhile_append_cons {q : UInt8 → Bool} (h : q e = false ∨ ∃ c ∈ r, q c = false) :
    (r ++ e :: k).takeWhile q = r.takeWhile q := by
  induction r with
  | nil => exact takeWhile_cons_of_neg (by simpa using h)
  | cons b r ih =>
    rw [cons_append, takeWhile_cons, takeWhile_cons]
    cases hb : q b with
    | false => rfl
    | true =>
      rw [ih]
      refine h.imp_right fun hr => ?_
      obtain ⟨c, hc, hq⟩ := hr
      rcases mem_cons.mp hc with rfl | hc
      · rw [hb] at hq
        cases hq
      · exact ⟨c, hc, hq⟩

theorem length_takeWhile_le (q : UInt8 → Bool) : (r.takeWhile q).length ≤ r.length :=
  (takeWhile_sublist q).length_le

/-- A comment ends where it ended before. -/
theorem comment_append (he : e = 0x0a ∨ Text.isChar '*' (r.headD 0) = true ∨ 0x0a ∈ r)
    (h : comment r = .ok s) :
    comment (r ++ e :: k) = .ok s ∧ s.tailLength ≤ r.length := by
  cases r with
  | nil =>
    obtain rfl : e = 0x0a := he.resolve_right (by decide)
    obtain rfl := Except.ok.inj h
    exact ⟨rfl, Nat.le_refl 0⟩
  | cons c body =>
    by_cases hstar : Text.isChar '*' c = true
    · obtain rfl : c = 0x2a := beq_iff_eq.mp hstar
      have hbody := splitFirst?_cases body
      rw [comment_block] at h
      cases hsplit : Text.splitFirst? [0x2a, 0x25] body with
      | none =>
        rw [hsplit] at h
        cases h
      | some x =>
        rw [hsplit] at h hbody
        obtain rfl := Except.ok.inj h
        obtain ⟨hbody, hinside⟩ := hbody
        rw [hbody, cons_append, append_assoc _ x.2, comment_block, splitFirst?_close hinside]
        refine ⟨rfl, ?_⟩
        simp only [Segment.skipped, length_cons, length_append, length_nil]
        omega
    · simp only [comment, cons_append, if_neg hstar] at h ⊢
      obtain rfl := Except.ok.inj h
      have hends : (!Text.isChar '\n' e) = false ∨ ∃ x ∈ c :: body, (!Text.isChar '\n' x) = false := by
        rcases he with rfl | hc | hline
        · exact .inl (by decide)
        · exact absurd hc hstar
        · exact .inr ⟨0x0a, hline, by decide⟩
      have hline := takeWhile_append_cons (q := (!Text.isChar '\n' ·)) (k := k) hends
      rw [cons_append] at hline
      rw [hline]
      exact ⟨rfl, length_takeWhile_le _⟩

/-- No spelling of a symbol goes on after a byte that is in none. -/
theorem isPrefixOf_append_cons (he : ∀ t ∈ symbolSpellings, e ∉ t) {spelling : Text}
    (h : spelling ∈ symbolSpellings) :
    spelling.isPrefixOf (t ++ e :: k) = spelling.isPrefixOf t := by
  rw [Bool.eq_iff_iff, isPrefixOf_iff_prefix, isPrefixOf_iff_prefix]
  refine ⟨fun hprefix => ?_, fun hprefix => hprefix.trans (prefix_append _ _)⟩
  refine prefix_of_prefix_length_le hprefix (prefix_append _ _) (Nat.not_lt.mp fun hlt => ?_)
  have hwhole : t ++ [e] <+: t ++ e :: k := ⟨k, by simp⟩
  have hlonger : t ++ [e] <+: spelling := by
    refine prefix_of_prefix_length_le hwhole hprefix ?_
    rw [length_append]
    exact hlt
  exact he spelling h (hlonger.subset (mem_append_right t mem_cons_self))

/-- A segment that is no white space ends before white space. -/
theorem segment_append (he : isBlank e = true) (hopen : e = 0x0a ∨ opensComment b r = false)
    (hb : isBlank b = false) (h : segment b r = .ok s) :
    segment b (r ++ e :: k) = .ok s ∧ s.tailLength ≤ r.length := by
  obtain ⟨hword, hdigit, hsymbol⟩ := isBlank_cases e he
  have hword : (r ++ e :: k).takeWhile isWordByte = r.takeWhile isWordByte :=
    takeWhile_append_cons (.inl hword)
  have hdigit : (r ++ e :: k).takeWhile Text.isDigit = r.takeWhile Text.isDigit :=
    takeWhile_append_cons (.inl hdigit)
  have hfind : symbolSpellings.find? (·.isPrefixOf (b :: (r ++ e :: k))) =
      symbolSpellings.find? (·.isPrefixOf (b :: r)) :=
    find?_congr fun u hu => isPrefixOf_append_cons (t := b :: r) (k := k) hsymbol hu
  unfold segment at h ⊢
  rw [hb, if_neg Bool.false_ne_true] at h ⊢
  rw [hword, hdigit, hfind]
  have hrun : ∀ {kind : Kind} {value : Text} {q : UInt8 → Bool},
      Except.ok (ε := Text) (Segment.token kind value (r.takeWhile q).length) = .ok s →
        s.tailLength ≤ r.length := by
    intro kind value q hok
    obtain rfl := Except.ok.inj hok
    exact length_takeWhile_le q
  split_ifs at h ⊢ with hpercent
  · refine comment_append (hopen.imp_right fun hopen => ?_) h
    simpa [opensComment, hpercent, or_iff_not_imp_left] using hopen
  · exact ⟨h, hrun h⟩
  · exact ⟨h, hrun h⟩
  · exact ⟨h, hrun h⟩
  · dsimp only at h
    split_ifs at h with hempty
    exact ⟨if_neg hempty |>.trans h, hrun h⟩
  · cases hliteral : literal r with
    | none =>
      rw [hliteral] at h
      cases h
    | some x =>
      obtain ⟨hlonger, hlength⟩ := @literal_append r (e :: k) x.1 x.2 hliteral
      rw [hliteral] at h
      rw [hlonger]
      obtain rfl := Except.ok.inj h
      exact ⟨rfl, hlength⟩
  · refine ⟨h, ?_⟩
    split at h
    · next spelling hspelling =>
      have hprefix := find?_some hspelling
      have hlength := ( isPrefixOf_iff_prefix.mp hprefix).length_le
      obtain rfl := Except.ok.inj h
      exact Nat.sub_le_of_le_add hlength
    · cases h

/-- The first segment, and what comes after it. -/
theorem tokenizeFrom_cons (h : segment b r = .ok s) : tokenizeFrom p (b :: r) =
    (tokenizeFrom (p.after (b :: r.take s.tailLength)) (r.drop s.tailLength)).map fun tokens =>
      (s.content.map fun w => (⟨w.1, w.2, p⟩ : Token)).toList ++ tokens := by
  rw [tokenizeFrom, h]
  dsimp only
  cases tokenizeFrom (p.after (b :: r.take s.tailLength)) (r.drop s.tailLength) with
  | error e => rfl
  | ok tokens => cases s.content <;> rfl

theorem map_nil_append {ε : Type} (x : Except ε (List Token)) : x.map ([] ++ ·) = x := by
  cases x <;> rfl

theorem drop_blanks : r.drop (r.takeWhile isBlank).length = r.dropWhile isBlank := by
  have hsplit := congrArg (List.drop (r.takeWhile isBlank).length)
      (takeWhile_append_dropWhile (p := isBlank) (l := r))
  rwa [drop_left, eq_comm] at hsplit

/-- A run of white space is passed. -/
theorem tokenizeFrom_run (hb : isBlank b = true) : tokenizeFrom p (b :: r) =
    tokenizeFrom (p.after (b :: r.takeWhile isBlank)) (r.dropWhile isBlank) := by
  have hsegment : segment b r = .ok (.skipped (r.takeWhile isBlank).length) := if_pos hb
  rw [tokenizeFrom_cons hsegment]
  exact (map_nil_append _).trans (congrArg₂ (fun u v => tokenizeFrom (p.after (b :: u)) v)
    (take_takeWhile isBlank) drop_blanks)

/-- White space is passed byte by byte. -/
theorem tokenizeFrom_blank (hb : isBlank b = true) :
    tokenizeFrom p (b :: r) = tokenizeFrom (p.advance b) r := by
  rw [tokenizeFrom_run hb]
  cases r with
  | nil => rfl
  | cons c r =>
    cases hc : isBlank c with
    | false => rw [takeWhile_cons_of_neg (by simp [hc]), dropWhile_cons_of_neg (by simp [hc])]; rfl
    | true => rw [takeWhile_cons_of_pos hc, dropWhile_cons_of_pos hc, tokenizeFrom_run hc]; rfl

theorem tokenizeFrom_blanks (ht : ∀ c ∈ t, isBlank c = true) :
    tokenizeFrom p (t ++ r) = tokenizeFrom (p.after t) r := by
  induction t generalizing p with
  | nil => rfl
  | cons b t ih =>
    obtain ⟨hb, ht⟩ := forall_mem_cons.mp ht
    rw [cons_append, tokenizeFrom_blank hb, ih ht]
    rfl

theorem Splits.cons_blank {ws : List Word} (h : Splits t ws) (hb : isBlank b = true) :
    Splits (b :: t) ws := by
  intro p
  rw [tokenizeFrom_blank hb]
  exact h _

/-- The first segment is the same before white space. -/
theorem tokenizeFrom_cons_append (he : isBlank e = true) (hopen : e = 0x0a ∨ opensComment b r = false)
    (h : segment b r = .ok s) : tokenizeFrom p (b :: r ++ e :: k) =
    (tokenizeFrom (p.after (b :: r.take s.tailLength)) (r.drop s.tailLength ++ e :: k)).map fun tokens =>
      (s.content.map fun w => (⟨w.1, w.2, p⟩ : Token)).toList ++ tokens := by
  cases hb : isBlank b with
  | true =>
    obtain rfl : s = .skipped (r.takeWhile isBlank).length := Except.ok.inj (h.symm.trans (if_pos hb))
    have hblank : ∀ c ∈ b :: r.takeWhile isBlank, isBlank c = true :=
      forall_mem_cons.mpr ⟨hb, fun c hc => mem_takeWhile_imp hc⟩
    have hrest : b :: r ++ e :: k = (b :: r.takeWhile isBlank) ++ (r.dropWhile isBlank ++ e :: k) := by
      rw [cons_append, cons_append, ← append_assoc, takeWhile_append_dropWhile]
    rw [hrest, tokenizeFrom_blanks hblank]
    exact ((map_nil_append _).trans (congrArg₂
      (fun u v => tokenizeFrom (p.after (b :: u)) (v ++ e :: k)) (take_takeWhile isBlank)
      drop_blanks)).symm
  | false =>
    obtain ⟨hsegment, hlength⟩ := segment_append (k := k) he hopen hb h
    rw [cons_append, tokenizeFrom_cons hsegment, take_append_of_le_length hlength,
      drop_append_of_le_length hlength]

/-- The tokens of a text come before those of what comes after white space. -/
theorem tokenizeFrom_append {tokens : List Token} {last : Token} (he : isBlank e = true)
    (hopen : e = 0x0a ∨ endsInComment t = false) (h : tokenizeFrom p t = .ok (tokens ++ [last])) :
    tokenizeFrom p (t ++ e :: k) = (tokenizeFrom (p.after (t ++ [e])) k).map (tokens ++ ·) := by
  have hplace : ∀ {p : Position} {b : UInt8} {r : Text} {n : Nat},
      (p.after (b :: r.take n)).after (r.drop n ++ [e]) = p.after (b :: r ++ [e]) := by
    intro p b r n
    rw [← Position.after_append, cons_append, ← append_assoc, take_append_drop]
    rfl
  have hparts : ∀ {b : UInt8} {r : Text} {s : Segment}, segment b r = .ok s →
      (e = 0x0a ∨ endsInComment (b :: r) = false) → (e = 0x0a ∨ opensComment b r = false) ∧
        (e = 0x0a ∨ endsInComment (r.drop s.tailLength) = false) := by
    intro b r s hs hopen
    rw [endsInComment, hs, Bool.or_eq_false_iff] at hopen
    exact ⟨hopen.imp_right And.left, hopen.imp_right And.right⟩
  fun_induction tokenizeFrom p t generalizing tokens with
  | case1 p =>
    obtain rfl : tokens = [] := by
      have hlength := congrArg List.length (Except.ok.inj h)
      rw [length_append] at hlength
      exact length_eq_zero_iff.mp (Nat.add_right_cancel hlength).symm
    exact (tokenizeFrom_blank he).trans (map_nil_append _).symm
  | case2 => cases h
  | case3 => cases h
  | case4 p b r s hsegment rest hrest hcontent ih =>
    obtain rfl := Except.ok.inj h
    obtain ⟨hfirst, hopen⟩ := hparts hsegment hopen
    rw [tokenizeFrom_cons_append he hfirst hsegment, ih hopen hrest, hcontent, hplace]
    exact map_nil_append _
  | case5 p b r s hsegment rest hrest kind value hcontent ih =>
    obtain ⟨ts, last', rfl, -⟩ := tokenizeFrom_proper hrest
    have heq : (⟨kind, value, p⟩ :: ts) ++ [last'] = tokens ++ [last] := Except.ok.inj h
    obtain ⟨rfl, hlast⟩ := append_inj' heq rfl
    obtain rfl := head_eq_of_cons_eq hlast
    obtain ⟨hfirst, hopen⟩ := hparts hsegment hopen
    rw [tokenizeFrom_cons_append he hfirst hsegment, ih hopen hrest, hcontent, hplace]
    cases tokenizeFrom (p.after (b :: r ++ [e])) k <;> rfl

/-- A text before white space has its words before those of the rest. -/
theorem Splits.append_cons {ws vs : List Word} (ht : Splits t ws) (he : isBlank e = true)
    (hopen : e = 0x0a ∨ endsInComment t = false) (hk : Splits k vs) : Splits (t ++ e :: k) (ws ++ vs) := by
  intro p
  obtain ⟨ts, last, hts, rfl, -⟩ := ht p
  obtain ⟨us, last', hus, rfl, hlast⟩ := hk (p.after (t ++ [e]))
  refine ⟨ts ++ us, last', ?_, map_append, hlast⟩
  rw [tokenizeFrom_append he hopen hts, hus, append_assoc]
  rfl

end Token

end LogicProgram
