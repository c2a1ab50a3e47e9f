import LogicProgram.Proofs.Rule.Runs
import LogicProgram.Proofs.Token.Layout

/-!
# Programs one below the other

A rule ends with its full stop, and nothing after that is looked at: where the beginning
of a head is tried as a bound, no word is passed that ends a head or a rule.
-/

namespace LogicProgram.Rule

open List
open Token (mark isWord endWord Proper)

namespace Grammar

variable {t : Text} {rs : List Rule} {s' : ParserState Unit}

variable {n n' : Nat} {s : Stream} {more : List Token} {last : EndToken}

/-- The words of a text, read without returning to a place. -/
abbrev onward : Setting Unit := { onText with plain := True }

theorem loose_onText : onText.Loose := ⟨fun _ => trivial, id, fun _ => trivial, trivial⟩

theorem loose_onward : onward.Loose := ⟨fun _ => trivial, id, fun _ => trivial, trivial⟩

/-- What is known of a stream is known of it further on. -/
theorem alike_after {us : List Token} {s' : Stream} (hs : onText.Alike s s) (h : s.After us s') :
    onText.Alike s' s' ∧ (∀ t ∈ s'.ahead, t ∈ s.ahead) ∧ s'.remaining + us.length = s.remaining := by
  refine ⟨⟨forall₂_same.mpr fun _ _ => rfl, rfl, h.last ▸ hs.ended, h.beyond.trans hs.inside,
    h.beyond.trans hs.inside,
    fun t ht => hs.sound t ?_⟩, fun t ht => ?_, ?_⟩
  · exact h.ahead ▸ mem_append_right us ht
  · exact h.ahead ▸ mem_append_right us ht
  · rw [Stream.remaining, Stream.remaining, h.ahead, length_append, Nat.add_comm]

theorem outcome_isAt {s : ParserState Unit} : outcome (Parser.isAt t) s = (.ok (s.stream.peek.is t), s) := rfl

/-- A word that must come next does. -/
theorem returns_expect {s : ParserState Unit} : Returns (expect t) s () s' ↔
    s.stream.peek.is t = true ∧ s' = { s with stream := s.stream.advance } := by
  rw [Returns, expect, outcome_bind, Parser.outcome_accept, Stream.isAt]
  cases s.stream.peek.is t with
  | true => exact ⟨fun h => ⟨rfl, (Prod.mk.inj h).2.symm⟩, fun h => h.2 ▸ rfl⟩
  | false => exact iff_of_false (fun h => by cases (Prod.mk.inj h).1) fun h => by cases h.1

/-- What a rule is read from. -/
theorem returns_rule {r : Rule} : Returns (rule n) ⟨s, ()⟩ r s' ↔
    isForeignDirective s.peek = false ∧ ∃ o t x u, Returns (opening n) ⟨s, ()⟩ o t ∧
      Returns (parts n o) t x u ∧
      Returns (expect ".") u () s' ∧ r = ⟨x.1, x.2, s.peek.position.line⟩ := by
  have hpeek : outcome Parser.peek (⟨s, ()⟩ : ParserState Unit) = (.ok s.peek, ⟨s, ()⟩) := rfl
  rw [rule_eq, Returns, outcome_bind, hpeek]
  dsimp only
  cases isForeignDirective s.peek with
  | true => exact iff_of_false (fun h => by cases (Prod.mk.inj h).1) fun h => by cases h.1
  | false =>
    show Returns (opening n >>= ending n s.peek.position.line) ⟨s, ()⟩ r s' ↔ _
    simp only [ending, Returns.bind_iff, Returns.pure_iff]
    constructor
    · rintro ⟨o, t, ho, x, u, hx, v, w, hv, rfl, rfl⟩
      exact ⟨trivial, o, t, x, u, ho, hx, hv, rfl⟩
    · rintro ⟨-, o, t, x, u, ho, hx, hv, rfl⟩
      exact ⟨o, t, ho, x, u, hx, (), s', hv, rfl, rfl⟩

/-- The beginning of a rule does not depend on what comes after its head. -/
theorem outcome_opening_extend (hs : onText.Alike s s) (hn : s.remaining < n)
    (hn' : s.remaining < n') {t : Token}
    (ht : t ∈ s.ahead) (hstop : ¬ Inner t.word) :
      outcome (opening n') (ParserState.extend ⟨s, ()⟩ more last) =
      ((outcome (opening n) ⟨s, ()⟩).1, (outcome (opening n) ⟨s, ()⟩).2.extend more last) := by
  have hruns := runs_leftGuard (S := onText) hn hn'
  have hahead : (outcome (leftGuard n) ⟨s, ()⟩).2.stream.ahead ≠ [] := by
    obtain ⟨log, r, hrun, -, heach, -⟩ := hruns.same (c := ()) (fun _ _ => Eq.symm)
      (fun _ _ h => h.1) hs (Nat.le_refl _)
    obtain ⟨us, hafter, hpassed, -⟩ := hrun.moves
    rw [hrun.outcome_eq]
    have hmem : t ∈ us ++ r.2.stream.ahead := hafter.ahead ▸ ht
    exact ne_nil_of_mem ((mem_append.mp hmem).resolve_left fun hus => hstop (heach _ (hpassed t hus)))
  have hguard := hruns.outcome_before (c := ()) (fun _ _ => Eq.symm)
      (fun _ _ h => h.1) hs (Nat.le_refl _) trivial
    (.inl trivial) hahead more last
  have hpeek : (s.extend more last).peek = s.peek := Stream.peek_extend (ne_nil_of_mem ht)
  simp only [opening, outcome_bind, outcome_isAt, ParserState.extend, hpeek]
  cases s.peek.is ":-" with
  | true => rfl
  | false =>
    simp only [Bool.false_eq_true, if_false, outcome_bind, outcome_isAt, hpeek]
    cases s.peek.is "\x7b" with
    | true => rfl
    | false =>
      simp only [Bool.false_eq_true, if_false, outcome_bind, Parser.outcome_attempt]
      rw [show outcome (leftGuard n') ⟨s.extend more last, ()⟩ = _ from hguard]
      rcases outcome (leftGuard n) ⟨s, ()⟩ with ⟨e | _ | guard, s'⟩ <;> rfl

/-- One rule: it is read the same before further tokens. -/
theorem returns_rule_extend (more : List Token) (last : EndToken) {r : Rule} (hs : onText.Alike s s)
    (hn : s.remaining < n)
    (hn' : s.remaining < n') (h : Returns (rule n) ⟨s, ()⟩ r s') :
    Returns (rule n') (ParserState.extend ⟨s, ()⟩ more last) r (s'.extend more last) ∧
      onText.Alike s'.stream s'.stream ∧ s'.stream.remaining < s.remaining := by
  obtain ⟨hforeign, o, t, x, u, hopening, hparts, hexpect, rfl⟩ := returns_rule.mp h
  obtain ⟨hdot, rfl⟩ := returns_expect.mp hexpect
  obtain ⟨⟨us, hus⟩, -, ho⟩ := (runs_opening loose_onText hn hn id).returned (fun _ _ => Eq.symm)
    (fun _ _ h => h.1) hs
    (Nat.le_refl _) hopening
  obtain ⟨ht, hts, hlength⟩ := alike_after hs hus
  have hruns := @runs_parts onward t.stream.remaining n n' loose_onward (by omega) (by omega) o ho
  obtain ⟨⟨vs, hvs⟩, -⟩ := hruns.returned (fun _ _ => Eq.symm) (fun _ _ h => h.1) ht (Nat.le_refl _) hparts
  obtain ⟨hu, hus, hlength'⟩ := alike_after ht hvs
  -- The full stop stands ahead all the time.
  have hne : u.stream.ahead ≠ [] := hu.ahead_ne_nil fun hend => by rw [Token.is_eq, hend] at hdot; cases hdot
  obtain ⟨dot, rest, hahead⟩ := exists_cons_of_ne_nil hne
  have hmem : dot ∈ u.stream.ahead := hahead ▸ mem_cons_self
  have hstop : ¬ Inner dot.word := by
    rw [Stream.peek, hahead, Token.is_eq] at hdot
    exact fun hinner => hinner "." (by decide) ((hu.sound dot hmem).eq_spelled hdot)
  have hmem : dot ∈ s.ahead := hts dot (hus dot hmem)
  have hpeek : (s.extend more last).peek = s.peek := Stream.peek_extend (ne_nil_of_mem hmem)
  have hparts' : Returns (parts n' o) (t.extend more last) x (u.extend more last) := by
    have hbefore := hruns.outcome_before (c := ()) (fun _ _ => Eq.symm)
        (fun _ _ h => h.1) ht (Nat.le_refl _) trivial
      (.inr ⟨x, congrArg Prod.fst hparts⟩) (by rwa [show outcome (parts n o)
        ⟨t.stream, ()⟩ = _ from hparts]) more last
    rwa [show outcome (parts n o) ⟨t.stream, ()⟩ = _ from hparts] at hbefore
  have hopening' : Returns (opening n') (ParserState.extend ⟨s, ()⟩ more last) o (t.extend more last) :=
    (outcome_opening_extend hs hn hn' hmem hstop).trans
      (by rw [show outcome (opening n) ⟨s, ()⟩ = _ from hopening])
  have hexpect' : Returns (expect ".") (u.extend more last) ()
      (ParserState.extend { u with stream := u.stream.advance } more last) := by
    refine returns_expect.mpr ⟨?_, ?_⟩
    · rwa [ParserState.extend, Stream.peek_extend hne]
    · exact congrArg (ParserState.mk · ()) (Stream.advance_extend hne).symm
  obtain ⟨hadvanced, -, hlast⟩ := alike_after hu (.advance hahead)
  refine ⟨returns_rule.mpr ⟨?_, o, _, x, _, hopening', hparts', hexpect', ?_⟩, hadvanced, ?_⟩
  · rwa [hpeek]
  · rw [hpeek]
  · show u.stream.advance.remaining < _
    rw [length_singleton] at hlast
    omega

/-- Rules are read up to the end. -/
theorem returns_rules {rounds : Nat} :
    Returns (rules n (rounds + 1)) ⟨s, ()⟩ rs s' ↔ (s.atEnd = true ∧ rs = [] ∧ s' = ⟨s, ()⟩) ∨
      s.atEnd = false ∧ ∃ r t rs', Returns (rule n) ⟨s, ()⟩ r t ∧
        Returns (rules n rounds) t rs' s' ∧ rs = r :: rs' := by
  have hend : outcome Parser.atEnd (⟨s, ()⟩ : ParserState Unit) = (.ok s.atEnd, ⟨s, ()⟩) := rfl
  rw [rules, Returns, outcome_bind, hend]
  cases s.atEnd with
  | true =>
    refine Iff.trans ?_ (or_iff_left fun h => by cases h.1).symm
    exact Returns.pure_iff.trans (by rw [eq_comm, eq_comm (b := s')]; simp)
  | false =>
    refine Iff.trans ?_ (or_iff_right fun h => by cases h.1).symm
    show Returns (rule n >>= fun r => rules n rounds >>= fun rs => pure (r :: rs)) ⟨s, ()⟩ rs s' ↔ _
    simp only [Returns.bind_iff, Returns.pure_iff, true_and]
    constructor
    · rintro ⟨r, t, hr, rs', u, hrs, rfl, rfl⟩
      exact ⟨r, t, rs', hr, hrs, rfl⟩
    · rintro ⟨r, t, rs', hr, hrs, rfl⟩
      exact ⟨r, t, hr, rs', s', hrs, rfl, rfl⟩

/-- The words of a text are at the end if there are no more of them. -/
theorem ahead_of_atEnd (hs : onText.Alike s s) :
    (s.atEnd = true → s.ahead = []) ∧ (s.atEnd = false → s.ahead ≠ []) := by
  refine ⟨fun hend => ?_, fun hend hahead => ?_⟩
  · cases hahead : s.ahead with
    | nil => rfl
    | cons t ts =>
      have hproper : Proper t.word := hs.sound t (hahead ▸ mem_cons_self)
      rw [Stream.atEnd, Stream.peek, hahead, beq_iff_eq] at hend
      rw [show t.word = (.endOfInput, t.value) from congrArg (·, t.value) hend] at hproper
      exact hproper.elim
  · rw [Stream.atEnd, Stream.peek, hahead, headD_nil, s.last.2] at hend
    cases hend

/-- All rules are read the same before further tokens, which are then read. -/
theorem returns_rules_extend (more : List Token) (last : EndToken) {rounds : Nat} (n' rounds' : Nat)
    (hs : onText.Alike s s) (hn : s.remaining < n) (hrounds : s.remaining < rounds)
    (h : Returns (rules n rounds) ⟨s, ()⟩ rs s')
    (hn' : s.remaining < n') (hrounds' : s.remaining + more.length < rounds') :
    ∃ t rounds'', t.ahead = more ∧ t.last = last ∧ t.beyond = 0 ∧ more.length < rounds'' ∧ ∀ rs' t',
      Returns (rules n' rounds'') ⟨t, ()⟩ rs' t' →
        Returns (rules n' rounds') (ParserState.extend ⟨s, ()⟩ more last) (rs ++ rs') t' := by
  induction rounds generalizing s rs rounds' with
  | zero => exact absurd hrounds (Nat.not_lt_zero _)
  | succ rounds ih =>
    rcases returns_rules.mp h with ⟨hend, rfl, -⟩ | ⟨hend, r, t, rs, hr, hrs, rfl⟩
    · have hahead := (ahead_of_atEnd hs).1 hend
      refine ⟨s.extend more last, rounds', ?_, rfl, hs.inside, by omega, fun rs' t' h => h⟩
      rw [Stream.extend, hahead]
      rfl
    · obtain ⟨hr', ht, hlt⟩ := returns_rule_extend more last hs hn hn' hr
      obtain _ | rounds' := rounds'
      · exact absurd hrounds' (Nat.not_lt_zero _)
      obtain ⟨u, rounds'', hahead, hlast, hinside, hlength, hrest⟩ :=
        ih rounds' ht (by omega) (by omega) hrs (by omega) (by omega)
      refine ⟨u, rounds'', hahead, hlast, hinside, hlength, fun rs' t' h => returns_rules.mpr
        (.inr ⟨?_, r, _, _, hr', hrest rs' t' h, rfl⟩)⟩
      rwa [Stream.atEnd, Stream.peek_extend ((ahead_of_atEnd hs).2 hend)]

/-- The words of a text, read `k` lines further down. -/
abbrev below (k : Nat) : Setting Unit :=
  { onText with agree := fun t t' => t' = t.down k, word := fun h => h ▸ rfl }

theorem loose_below (k : Nat) : (below k).Loose := ⟨fun _ => trivial, id, fun _ => trivial, trivial⟩

end Grammar

open Grammar

/-- The rules that are read, and the tokens that they are read from. -/
theorem exists_tokens_of_parse (h : parse t = .ok rs) : ∃ (ts : List Token) (last : EndToken) (s : _),
    Token.tokenize t = .ok (ts ++ [last.val]) ∧ onText.Alike ⟨[], ts, last, 0⟩ ⟨[], ts, last, 0⟩ ∧
      Returns (rules (ts.length + 1) (ts.length + 1)) ⟨⟨[], ts, last, 0⟩, ()⟩ rs s := by
  rw [parse] at h
  split at h
  · cases h
  · cases h
  · next tokens htokens =>
    obtain ⟨ts, last, rfl, hlast, -⟩ := Token.tokenizeFrom_proper htokens
    obtain ⟨halike, -⟩ := Stream.alike_tokenize htokens
    rw [Stream.ofTokens_append hlast] at halike
    rw [ofTokens, Parser.runOn, Stream.ofTokens_append hlast, length_append] at h
    exact ⟨ts, ⟨last, congrArg Prod.fst hlast⟩, _, htokens, halike, Returns.of_ok h⟩

/-- Two programs with a line feed between them have the rules of both. Those of the second are further down by
as many lines as the first has. -/
theorem parse_line {a b : Text} {as bs : List Rule} (ha : parse a = .ok as) (hb : parse b = .ok bs) :
    parse (a ++ "\n" ++ b) = .ok (as ++ bs.map (down (1 + a.count 0x0a))) := by
  obtain ⟨ts, last, s, hts, halike, has⟩ := exists_tokens_of_parse ha
  obtain ⟨us, last', s', hus, halike', hbs⟩ := exists_tokens_of_parse hb
  have htext : a ++ "\n" ++ b = a ++ 0x0a :: b := append_assoc _ _ _
  have htokens := Token.tokenize_line hts hus
  generalize 1 + a.count 0x0a = k at htokens ⊢
  rw [map_append, ← append_assoc, map_singleton] at htokens
  -- The first program is read where it stands, and the second below it.
  obtain ⟨t, rounds, hahead, hlast, hinside, hlength, hfirst⟩ := returns_rules_extend (us.map (·.down k))
    ⟨last'.val.down k, last'.2⟩ (ts.length + us.length + 1) (ts.length + us.length + 1) halike
    (Nat.lt_succ_self _) (Nat.lt_succ_self _) has (Nat.lt_succ_of_le (Nat.le_add_right _ _)) (by simp [Stream.remaining])
  have hbelow : (below k).Alike ⟨[], us, last', 0⟩ t := by
    refine ⟨?_, congrArg Subtype.val hlast, halike'.ended, rfl, hinside, halike'.sound⟩
    rw [hahead, forall₂_map_right_iff]
    exact forall₂_same.mpr fun _ _ => rfl
  rw [length_map] at hlength
  obtain ⟨log, r, r', hrun, hrun', -, hmeet⟩ := runs_rules (loose_below k) (Nat.lt_succ_self _)
    (Nat.lt_succ_of_le (Nat.le_add_left us.length ts.length)) id (Nat.lt_succ_self _) hlength _ t () hbelow trivial (Nat.le_refl _)
  obtain rfl : (.ok bs, s') = r := hbs.symm.trans hrun.outcome_eq
  cases hmeet with
  | ok htwins =>
    have hall := hfirst _ _ hrun'.outcome_eq
    rw [down_of_twins (k := k) htwins fun _ _ h => h ▸ rfl] at hall
    rw [parse, htext, htokens]
    show (Parser.runOn _ _ ()).1 = _
    rw [Parser.runOn, @Stream.ofTokens_append _ (last'.val.down k) halike'.ended, length_append, length_append, length_map]
    exact congrArg Prod.fst hall

/-- A program that ends inside a comment, after one of two lines. -/
def upper : Text := "p :- q(\"%\"), not 1 < 2. %* \x7b\n. *% r(a..b). % the end"

/-- A program of a choice and a constraint. -/
def lower : Text := " 1 \x7bs(X) : t(X)\x7d 2 :- #count\x7bX\x7d > 1.\n:- #inf < s."

theorem parse_line_comments : ∃ as bs, parse upper = .ok as ∧ parse lower = .ok bs ∧ as.map (·.line) = [1, 2] ∧
    bs.map (·.line) = [1, 2] ∧ parse (upper ++ "\n" ++ lower) = .ok (as ++ bs.map (down 2)) := by
  have hupper : (parse upper).toOption.map (·.map (·.line)) = some [1, 2] := by decide +kernel
  have hlower : (parse lower).toOption.map (·.map (·.line)) = some [1, 2] := by decide +kernel
  cases ha : parse upper with
  | error e =>
    rw [ha] at hupper
    cases hupper
  | ok as =>
    cases hb : parse lower with
    | error e =>
      rw [hb] at hlower
      cases hlower
    | ok bs =>
      rw [ha] at hupper
      rw [hb] at hlower
      exact ⟨as, bs, rfl, rfl, Option.some.inj hupper, Option.some.inj hlower, parse_line ha hb⟩

end LogicProgram.Rule
