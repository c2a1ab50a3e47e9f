import LogicProgram.Proofs.Computation
import LogicProgram.Proofs.Token.Splitting
import LogicProgram.Token.Parser

/-!
# Reading words

A parser looks at what tokens say, and at where they stand only if it fails.
`Meets p c ws E Q` speaks of both ways in which it can end before some words: `Q` holds
if it succeeds, and `E` if it fails. With an `E` that nothing meets it says that the
parser succeeds, and `Reads p c ws a c' vs` says how. There is one rule for each way in
which parsers are put together.
-/

namespace LogicProgram

namespace Token

/-- The next of some words, which is the end if there is none. -/
def first (ws : List Word) : Word := ws.headD endWord

theorem first_append {ws : List Word} (h : ws ≠ []) (vs : List Word) : first (ws ++ vs) = first ws := by
  cases ws with
  | nil => exact absurd rfl h
  | cons w ws => rfl

/-- Whether a word is the symbol or identifier `t`. -/
def isWord (w : Word) (t : Text) : Bool := (w.1 == .symbol || w.1 == .identifier) && w.2 == t

theorem not_isWord {w : Word} {t : Text} (hsymbol : w ≠ mark t) (hidentifier : w ≠ (.identifier, t)) :
    isWord w t = false := by
  rw [Bool.eq_false_iff]
  intro hword
  obtain ⟨kind, value⟩ := w
  simp only [isWord, Bool.and_eq_true, Bool.or_eq_true, beq_iff_eq] at hword
  obtain ⟨rfl | rfl, rfl⟩ := hword
  · exact hsymbol rfl
  · exact hidentifier rfl

theorem is_eq (token : Token) (t : Text) : token.is t = isWord token.word t := rfl

/-- No identifier is a word that starts otherwise. -/
theorem IsIdentifier.isWord_eq_false {name t : Text} (h : IsIdentifier name)
    (ht : Text.isLower (t.headD 0) = false) : isWord (.identifier, name) t = false := by
  obtain ⟨b, r, rfl, hb, -⟩ := h
  rw [Bool.eq_false_iff]
  intro hword
  simp only [isWord, Bool.and_eq_true, beq_iff_eq] at hword
  rw [← hword.2, List.headD_cons, hb] at ht
  cases ht

end Token

open Token (word first isWord)

/-- The words that are still to come, seen by a stream that never left its list. -/
structure Stream.Shows (s : Stream) (ws : List Word) : Prop where
  ahead : s.ahead.map word = ws
  last : s.last.val.word = Token.endWord
  inside : s.beyond = 0

namespace Stream.Shows

variable {s : Stream} {w : Word} {ws : List Word}

theorem peek (h : s.Shows ws) : s.peek.word = first ws := by
  obtain ⟨rfl, hlast, -⟩ := h
  rw [Stream.peek]
  cases s.ahead with
  | nil => exact hlast
  | cons t ts => rfl

theorem isAt (h : s.Shows ws) (t : Text) : s.isAt t = isWord (first ws) t := h.peek ▸ rfl

theorem advance (h : s.Shows (w :: ws)) : s.advance.Shows ws := by
  obtain ⟨hahead, hlast, hinside⟩ := h
  obtain ⟨t, ts, hs, -, hts⟩ := List.map_eq_cons_iff.mp hahead
  rw [Stream.advance, hs]
  exact ⟨hts, hlast, hinside⟩

/-- The word after the next. -/
theorem peekAt_one (h : s.Shows ws) : (s.peekAt 1).word = first ws.tail := by
  obtain ⟨rfl, hlast, hinside⟩ := h
  rw [Stream.peekAt, hinside]
  rcases s.ahead with _ | ⟨t, _ | ⟨u, ts⟩⟩
  · exact hlast
  · exact hlast
  · rfl

end Stream.Shows

namespace Parser

variable {σ α β : Type}

theorem outcome_accept (t : Text) (s : ParserState σ) : outcome (accept t) s =
    if s.stream.isAt t then (.ok true, { s with stream := s.stream.advance }) else (.ok false, s) := by
  rw [accept, outcome_bind, show outcome (isAt t) s = (.ok (s.stream.isAt t), s) from rfl]
  cases h : s.stream.isAt t with
  | false => rfl
  | true =>
    rw [if_pos rfl, ← Stream.pass_eq_advance h]
    rfl

/-- An attempt never fails, and goes back if it has no result. -/
theorem outcome_attempt (p : Parser σ (Option α)) (s : ParserState σ) :
    outcome (attempt p) s =
      match outcome p s with
      | (.ok (some a), s') => (.ok (some a), s')
      | (_, s') => (.ok none, { s' with stream := s.stream }) := by
  rw [attempt, outcome_bind, outcome_get]
  rcases hrun : outcome p s with ⟨e | _ | a, s'⟩
  all_goals
    have hrun' : (p.run s : Except Error (Option α) × ParserState σ) = _ := hrun
    simp only [hrun']
    rfl

/-- Before the words `ws` and in the context `c`, a parser succeeds with a result, a context and
words left of which `Q` holds, or it fails with an error of which `E` holds. -/
def Meets (p : Parser σ α) (c : σ) (ws : List Word) (E : Error → Prop)
    (Q : α → σ → List Word → Prop) : Prop :=
  ∀ s : Stream, s.Shows ws →
    (∀ a s', Returns p ⟨s, c⟩ a s' → ∃ vs, s'.stream.Shows vs ∧ Q a s'.context vs) ∧
      ∀ e s', Fails p ⟨s, c⟩ e s' → E e

/-- No error. -/
def never (_ : Error) : Prop := False

/-- Any error. -/
def always (_ : Error) : Prop := True

namespace Meets

variable {p q : Parser σ α} {f : α → Parser σ β} {c c' : σ} {w : Word} {ws vs : List Word} {a : α}
  {b : Prop} {t : Text} {E E' : Error → Prop} {P : α → σ → List Word → Prop} {Q : β → σ → List Word → Prop}

theorem pure (h : P a c ws) : Meets (Pure.pure a) c ws E P := by
  refine fun s hs => ⟨fun b s' hreturns => ?_, fun e s' hfails => (Fails.pure_iff.mp hfails).elim⟩
  obtain ⟨rfl, rfl⟩ := Returns.pure_iff.mp hreturns
  exact ⟨ws, hs, h⟩

/-- The result, the context and the words left are known. -/
theorem done : Meets (Pure.pure a) c ws E fun b d us => b = a ∧ d = c ∧ us = ws := pure ⟨rfl, rfl, rfl⟩

theorem throw {e : Error} (h : E e) : Meets (MonadExcept.throw e) c ws E P := by
  refine fun s hs => ⟨fun b s' hreturns => (Returns.throw_iff.mp hreturns).elim, fun e' s' hfails => ?_⟩
  obtain ⟨rfl, -⟩ : e = e' ∧ _ := by simpa using (Prod.mk.inj hfails)
  exact h

theorem bind (hp : Meets p c ws E P) (hf : ∀ a c' vs, P a c' vs → Meets (f a) c' vs E Q) :
    Meets (p >>= f) c ws E Q := by
  intro s hs
  obtain ⟨hok, herror⟩ := hp s hs
  constructor
  · intro b s' hreturns
    obtain ⟨a, t, hfirst, hsecond⟩ := Returns.bind_iff.mp hreturns
    obtain ⟨vs, hvs, ha⟩ := hok a t hfirst
    exact (hf a t.context vs ha t.stream hvs).1 b s' hsecond
  · intro e s' hfails
    rcases Fails.bind_iff.mp hfails with hfirst | ⟨a, t, hfirst, hsecond⟩
    · exact herror e s' hfirst
    · obtain ⟨vs, hvs, ha⟩ := hok a t hfirst
      exact (hf a t.context vs ha t.stream hvs).2 e s' hsecond

theorem mono {P' : α → σ → List Word → Prop} (hp : Meets p c ws E P)
    (h : ∀ a c' vs, P a c' vs → P' a c' vs) : Meets p c ws E P' := by
  refine fun s hs => ⟨fun a s' hreturns => ?_, (hp s hs).2⟩
  obtain ⟨vs, hvs, ha⟩ := (hp s hs).1 a s' hreturns
  exact ⟨vs, hvs, h _ _ _ ha⟩

/-- Less may be said of the errors. -/
theorem mono_error (hp : Meets p c ws E P) (h : ∀ e, E e → E' e) : Meets p c ws E' P :=
  fun s hs => ⟨(hp s hs).1, fun e s' hfails => h e ((hp s hs).2 e s' hfails)⟩

theorem map {g : α → β} (hp : Meets p c ws E P) (h : ∀ a c' vs, P a c' vs → Q (g a) c' vs) :
    Meets (g <$> p) c ws E Q := hp.bind fun a c' vs ha => pure (h a c' vs ha)

/-- What comes after a failure does not matter. -/
theorem throw_bind {e : Error} (h : E e) : Meets (MonadExcept.throw e >>= f) c ws E Q :=
  (throw (P := fun _ _ _ => False) h).bind fun _ _ _ h => h.elim

theorem ite [Decidable b] (hp : b → Meets p c ws E P) (hq : ¬ b → Meets q c ws E P) :
    Meets (if b then p else q) c ws E P := by
  split
  · next h => exact hp h
  · next h => exact hq h

theorem ite_pos [Decidable b] (h : b) (hp : Meets p c ws E P) :
    Meets (if b then p else q) c ws E P := by
  rwa [if_pos h]

theorem ite_neg [Decidable b] (h : ¬ b) (hq : Meets q c ws E P) :
    Meets (if b then p else q) c ws E P := by
  rwa [if_neg h]

/-- A step that always succeeds and looks at words alone. -/
theorem step (hreturns : ∀ s : Stream, s.Shows ws → ∃ a s' vs, Returns p ⟨s, c⟩ a ⟨s', c⟩ ∧
    s'.Shows vs ∧ Meets (f a) c vs E Q) : Meets (p >>= f) c ws E Q := by
  intro s hs
  obtain ⟨a, s', vs, hp, hvs, hf⟩ := hreturns s hs
  constructor
  · intro b t hb
    obtain ⟨a', t', hfirst, hsecond⟩ := Returns.bind_iff.mp hb
    obtain ⟨rfl, rfl⟩ := hp.unique hfirst
    exact (hf s' hvs).1 b t hsecond
  · intro e t he
    rcases Fails.bind_iff.mp he with hfirst | ⟨a', t', hfirst, hsecond⟩
    · exact (hfirst.not_returns hp).elim
    · obtain ⟨rfl, rfl⟩ := hp.unique hfirst
      exact (hf s' hvs).2 e t hsecond

theorem pure_bind (hf : Meets (f a) c ws E Q) : Meets (Pure.pure a >>= f) c ws E Q :=
  step fun s hs => ⟨a, s, ws, rfl, hs, hf⟩

/-- What is done with the next token depends on its word. -/
theorem peek {f : Token → Parser σ β} (hf : ∀ t, t.word = first ws → Meets (f t) c ws E Q) :
    Meets (Parser.peek >>= f) c ws E Q :=
  step fun s hs => ⟨s.peek, s, ws, rfl, hs, hf s.peek hs.peek⟩

/-- The next token is at some place. -/
theorem peek_cons {f : Token → Parser σ β}
    (hf : ∀ position, Meets (f ⟨w.1, w.2, position⟩) c (w :: ws) E Q) :
    Meets (Parser.peek >>= f) c (w :: ws) E Q := by
  refine peek fun t ht => ?_
  obtain ⟨kind, value, position⟩ := t
  obtain ⟨rfl, rfl⟩ := Prod.mk.inj ht
  exact hf position

theorem advance {f : Unit → Parser σ β} (hf : Meets (f ()) c ws E Q) :
    Meets (Parser.advance >>= f) c (w :: ws) E Q :=
  step fun s hs => ⟨(), s.advance, ws, rfl, hs.advance, hf⟩

theorem next {f : Token → Parser σ β} (hf : ∀ t, t.word = w → Meets (f t) c ws E Q) :
    Meets (Parser.next >>= f) c (w :: ws) E Q :=
  step fun s hs => ⟨s.peek, s.advance, ws, rfl, hs.advance, hf s.peek hs.peek⟩

/-- What is done with the token after the next depends on its word. -/
theorem peekAt_one {f : Token → Parser σ β} (hf : ∀ t, t.word = first ws.tail → Meets (f t) c ws E Q) :
    Meets (Parser.peekAt 1 >>= f) c ws E Q :=
  step fun s hs => ⟨s.peekAt 1, s, ws, rfl, hs, hf _ hs.peekAt_one⟩

/-- The state can be looked at. -/
theorem get {f : ParserState σ → Parser σ β}
    (hf : ∀ s : Stream, s.Shows ws → Meets (f ⟨s, c⟩) c ws E Q) :
    Meets (MonadState.get >>= f) c ws E Q :=
  step fun s hs => ⟨⟨s, c⟩, s, ws, rfl, hs, hf s hs⟩

/-- The context can be changed. -/
theorem change {g : ParserState σ → ParserState σ} {f : Unit → Parser σ β} (c' : σ)
    (hg : ∀ s, g ⟨s, c⟩ = ⟨s, c'⟩) (hf : Meets (f ()) c' ws E Q) :
    Meets (modify g >>= f) c ws E Q := by
  have hmodify : Meets (modify g) c ws E fun _ c'' vs => c'' = c' ∧ vs = ws := by
    refine fun s hs => ⟨fun u s' hreturns => ?_, fun e s' hfails => (Fails.modify_iff.mp hfails).elim⟩
    obtain rfl := Returns.modify_iff.mp hreturns
    rw [hg s]
    exact ⟨ws, hs, rfl, rfl⟩
  exact hmodify.bind fun _ _ _ h => h.1 ▸ h.2 ▸ hf

theorem isAt {f : Bool → Parser σ β} {at? : Bool} (h : isWord (first ws) t = at?)
    (hf : Meets (f at?) c ws E Q) : Meets (Parser.isAt t >>= f) c ws E Q :=
  step fun s hs => ⟨_, s, ws, rfl, hs, by rwa [← h, ← hs.isAt] at hf⟩

/-- A word that is known to come next is accepted. -/
theorem accept_cons {f : Bool → Parser σ β} (h : isWord w t = true) (hf : Meets (f true) c ws E Q) :
    Meets (Parser.accept t >>= f) c (w :: ws) E Q := by
  refine step fun s hs => ⟨true, s.advance, ws, ?_, hs.advance, hf⟩
  rw [Returns, outcome_accept, hs.isAt, first, List.headD_cons, h]
  rfl

/-- A word that is known not to come next is not accepted. -/
theorem accept_not {f : Bool → Parser σ β} (h : isWord (first ws) t = false)
    (hf : Meets (f false) c ws E Q) : Meets (Parser.accept t >>= f) c ws E Q := by
  refine step fun s hs => ⟨false, s, ws, ?_, hs, hf⟩
  rw [Returns, outcome_accept, hs.isAt, h]
  rfl

theorem atEnd {f : Bool → Parser σ β} (hf : Meets (f ((first ws).1 == .endOfInput)) c ws E Q) :
    Meets (Parser.atEnd >>= f) c ws E Q := by
  refine step fun s hs => ⟨_, s, ws, rfl, hs, ?_⟩
  rw [← hs.peek] at hf
  exact hf

theorem failHere {fault : Fault} (h : ∀ position, E (.fault fault position)) :
    Meets (Parser.failHere fault) c ws E P :=
  peek fun _ _ => throw (h _)

/-- A parser that meets no error succeeds. -/
theorem returns (h : Meets p c ws never P) {s : Stream} (hs : s.Shows ws) :
    ∃ a s' vs, Returns p ⟨s, c⟩ a s' ∧ s'.stream.Shows vs ∧ P a s'.context vs := by
  rcases fails_or_returns p ⟨s, c⟩ with ⟨e, hfails⟩ | ⟨a, hreturns⟩
  · exact ((h s hs).2 e _ hfails).elim
  · obtain ⟨vs, hvs, ha⟩ := (h s hs).1 a _ hreturns
    exact ⟨a, _, vs, hreturns, hvs, ha⟩

end Meets

/-- A parser in the context `c` before the words `ws` returns `a`, and is then in the
context `c'` before the words `vs`. -/
abbrev Reads (p : Parser σ α) (c : σ) (ws : List Word) (a : α) (c' : σ) (vs : List Word) : Prop :=
  Meets p c ws never fun b d us => b = a ∧ d = c' ∧ us = vs

variable {p : Parser σ α} {f : α → Parser σ β} {c c' : σ} {w : Word} {ws vs : List Word}
  {a : α} {t : Text} {E : Error → Prop} {P : α → σ → List Word → Prop} {Q : β → σ → List Word → Prop}

/-- A parser of which it is known what it reads. -/
theorem Meets.of_reads (h : Reads p c ws a c' vs) (ha : P a c' vs) : Meets p c ws E P := by
  refine mono (mono_error h fun _ => False.elim) fun b d us hb => ?_
  obtain ⟨rfl, rfl, rfl⟩ := hb
  exact ha

theorem Meets.reads_bind (h : Reads p c ws a c' vs) (hf : Meets (f a) c' vs E Q) : Meets (p >>= f) c ws E Q :=
  (Meets.of_reads (P := fun b d us => b = a ∧ d = c' ∧ us = vs) h ⟨rfl, rfl, rfl⟩).bind fun b d us hb => by
    obtain ⟨rfl, rfl, rfl⟩ := hb
    exact hf

namespace Reads

theorem of_returns (h : ∀ s : Stream, s.Shows ws → ∃ s', Returns p ⟨s, c⟩ a ⟨s', c'⟩ ∧ s'.Shows vs) :
    Reads p c ws a c' vs := by
  intro s hs
  obtain ⟨s', hreturns, hs'⟩ := h s hs
  refine ⟨fun b t hb => ?_, fun e t he => he.not_returns hreturns⟩
  obtain ⟨rfl, rfl⟩ := hreturns.unique hb
  exact ⟨vs, hs', rfl, rfl, rfl⟩

theorem returns (h : Reads p c ws a c' vs) {s : Stream} (hs : s.Shows ws) :
    ∃ s', Returns p ⟨s, c⟩ a ⟨s', c'⟩ ∧ s'.Shows vs := by
  obtain ⟨_, s', _, hreturns, hvs, rfl, rfl, rfl⟩ := Meets.returns h hs
  exact ⟨s'.stream, hreturns, hvs⟩

theorem bind (h : Reads p c ws a c' vs) (hf : Meets (f a) c' vs E Q) : Meets (p >>= f) c ws E Q :=
  .reads_bind h hf

theorem map (hp : Reads p c ws a c' vs) (g : α → β) : Reads (g <$> p) c ws (g a) c' vs := hp.bind .done

theorem accepts (h : isWord w t = true) (c : σ) (ws : List Word) :
    Reads (Parser.accept t) c (w :: ws) true c ws :=
  bind_pure (Parser.accept t) ▸ .accept_cons h .done

theorem declines (h : isWord (first ws) t = false) (c : σ) : Reads (Parser.accept t) c ws false c ws :=
  bind_pure (Parser.accept t) ▸ .accept_not h .done

/-- An attempt without a result goes back to where it started. -/
theorem attempt_none {p : Parser Unit (Option α)}
    (hp : Meets p () ws always fun o _ _ => o = none) : Reads (Parser.attempt p) () ws none () ws := by
  refine of_returns fun s hs => ⟨s, ?_, hs⟩
  have hok := (hp s hs).1
  rw [Returns, outcome_attempt]
  rcases houtcome : outcome p ⟨s, ()⟩ with ⟨e | _ | a, s'⟩
  · rfl
  · rfl
  · obtain ⟨-, -, hnone⟩ := hok _ _ houtcome
    cases hnone

/-- One item, after which none follows. -/
theorem oneOrMore_one {item : Parser σ α} {more : Parser σ Bool} (h : Reads item c ws a c' vs)
    (hend : Reads more c' vs false c' vs) (rounds : Nat) :
    Reads (Parser.oneOrMore item more rounds) c ws [a] c' vs := by
  cases rounds with
  | zero => exact h.bind .done
  | succ rounds => exact h.bind (hend.bind .done)

/-- Items with a word between them, each before what `E` lets follow. -/
theorem separated {ξ : Type} {item : Parser σ α} {more : Parser σ Bool}
    {words : ξ → List Word} {value : ξ → α}
    {E : List Word → Prop} {x : ξ} {xs : List ξ}
    (hitem : ∀ y ∈ x :: xs, ∀ rest, E rest → Reads item c (words y ++ rest) (value y) c rest)
    (hmore : ∀ rest, Reads more c (w :: rest) true c rest) (hbetween : ∀ rest, E (w :: rest))
    {rest : List Word} (hrest : E rest) (hend : Reads more c rest false c rest) {rounds : Nat}
    (hrounds : xs.length ≤ rounds) : Reads (Parser.oneOrMore item more rounds) c
      (Token.joined w ((x :: xs).map words) ++ rest) ((x :: xs).map value) c rest := by
  induction xs generalizing x rounds with
  | nil => exact oneOrMore_one (hitem x List.mem_cons_self rest hrest) hend rounds
  | cons y ys ih =>
    cases rounds with
    | zero => exact absurd hrounds (Nat.not_succ_le_zero _)
    | succ rounds =>
      have hread := hitem x List.mem_cons_self (w :: (Token.joined w ((y :: ys).map words) ++ rest))
          (hbetween _)
      have htail := ih (fun z hz => hitem z (List.mem_cons_of_mem _ hz)) (Nat.le_of_succ_le_succ hrounds)
      have hwords : Token.joined w ((x :: y :: ys).map words) ++ rest =
          words x ++ (w :: (Token.joined w ((y :: ys).map words) ++ rest)) := by
        simp [Token.joined]
      rw [hwords]
      exact hread.bind ((hmore _).bind (htail.bind .done))

/-- A chain ends where there is no operator. -/
theorem chainLeft_end {operand : Parser σ α} {operator : Parser σ (Option (α → α → α))}
    (h : Reads operator c ws none c ws) (rounds : Nat) (left : α) :
    Reads (Parser.chainLeft operand operator rounds left) c ws left c ws := by
  cases rounds with
  | zero => exact .done
  | succ rounds => exact h.bind .done

end Reads

end Parser

theorem Stream.ofTokens_append {tokens : List Token} {last : Token} (hlast : last.word = Token.endWord) :
    Stream.ofTokens (tokens ++ [last]) = ⟨[], tokens, ⟨last, congrArg Prod.fst hlast⟩, 0⟩ := by
  have hkind : last.kind = .endOfInput := congrArg Prod.fst hlast
  rw [Stream.ofTokens, List.getLast?_concat]
  dsimp only
  rw [dif_pos hkind, List.dropLast_concat]

/-- The stream of a text shows its words. -/
theorem Stream.shows_ofTokens {tokens : List Token} {last : Token} (hlast : last.word = Token.endWord) :
    (Stream.ofTokens (tokens ++ [last])).Shows (tokens.map word) :=
  ofTokens_append hlast ▸ ⟨rfl, hlast, rfl⟩

end LogicProgram
