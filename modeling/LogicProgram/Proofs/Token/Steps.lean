import LogicProgram.Proofs.Token.Reading

/-!
# The steps of a parser

`Run D p s log r` says that a parser started in `s` ends in `r`, and how it moves along
the tokens on the way: which of them it looks at and passes, and which places it
remembers and returns to. A cursor that knows nothing of the parser can replay such a
log.
-/

namespace LogicProgram

open List
open Token (isWord)

/-- The stream after some tokens were passed. -/
structure Stream.After (us : List Token) (s s' : Stream) : Prop where
  ahead : s.ahead = us ++ s'.ahead
  behind : s'.behind = us.reverse ++ s.behind
  last : s'.last = s.last
  beyond : s'.beyond = s.beyond

namespace Stream.After

variable {us us' : List Token} {s s' s'' : Stream}

theorem refl (s : Stream) : s.After [] s := ⟨rfl, rfl, rfl, rfl⟩

theorem trans (h : s.After us s') (h' : s'.After us' s'') : s.After (us ++ us') s'' where
  ahead := by rw [h.ahead, h'.ahead, append_assoc]
  behind := by rw [h'.behind, h.behind, reverse_append, append_assoc]
  last := h'.last.trans h.last
  beyond := h'.beyond.trans h.beyond

theorem advance {t : Token} {ts : List Token} (h : s.ahead = t :: ts) : s.After [t] s.advance := by
  rw [Stream.advance, h]
  exact ⟨h, rfl, rfl, rfl⟩

theorem tokens (h : s.After us s') : s'.tokens = s.tokens := by
  rw [Stream.tokens, Stream.tokens, h.ahead, h.behind, reverse_append, reverse_reverse, append_assoc]

end Stream.After

namespace Parser

/-- What a parser does with the tokens. -/
inductive Step where
  /-- The current token is looked at. -/
  | look (atEnd : Bool)
  /-- A token further ahead is looked at. -/
  | far (atEnd : Bool)
  /-- The current token is not of those that may be passed. -/
  | refuse (test : Word → Bool) (atEnd : Bool)
  | pass (w : Word)
  /-- The current place is remembered. -/
  | mark
  /-- The place that was remembered last is returned to. -/
  | reset
  /-- The place that was remembered last is forgotten. -/
  | release

/-- A place among tokens, and the places that are remembered, the last one first. -/
structure Cursor where
  position : Nat
  marks : List Nat
deriving DecidableEq, Repr

/-- The cursor after a step along `size` tokens, of which the last is the end token. There is
none if it is outside of the tokens, if it would pass the end token, or if it would return to
a place that is not remembered. -/
def Cursor.after (size : Nat) (c : Cursor) : Step → Option Cursor
  | .look _ | .far _ | .refuse _ _ => if c.position < size then some c else none
  | .pass _ => if c.position + 1 < size then some { c with position := c.position + 1 } else none
  | .mark => some { c with marks := c.position :: c.marks }
  | .reset => match c.marks with
    | [] => none
    | place :: marks => some ⟨place, marks⟩
  | .release => match c.marks with
    | [] => none
    | _ :: marks => some { c with marks }

variable {σ α β : Type}

/-- A parser that does not touch the tokens. -/
def onContext (f : σ → Except Error α × σ) : Parser σ α :=
  ExceptT.mk fun s => ((f s.context).1, { s with context := (f s.context).2 })

/-- Passes the current token if a test says what it stands for, and gives `d` otherwise. -/
def select (test : Word → Option α) (d : α) : Parser σ α := do
  match test (← peek).word with
  | none => return d
  | some a => do
    advance
    return a

theorem outcome_select (test : Word → Option α) (d : α) (s : ParserState σ) :
    outcome (select test d) s = match test s.stream.peek.word with
      | none => (.ok d, s)
      | some a => (.ok a, { s with stream := s.stream.advance }) := by
  rw [select, outcome_bind, show outcome peek s = (.ok s.stream.peek, s) from rfl]
  dsimp only
  split <;> rfl

/-- The test for any of several symbols or identifiers. -/
def oneOf (ts : List Text) (w : Word) : Option Bool := if ts.any (isWord w ·) then some true else none

theorem eq_true_of_oneOf {ts : List Text} {w : Word} {b : Bool} (h : oneOf ts w = some b) : b = true := by
  rw [oneOf] at h
  split at h
  · exact (Option.some.inj h).symm
  · cases h

theorem is_eq_false_of_oneOf {t : Text} {u : Token} (h : oneOf [t] u.word = none) : u.is t = false := by
  rw [oneOf, any_cons, any_nil, Bool.or_false] at h
  split at h
  · cases h
  · next hword => exact Bool.eq_false_iff.mpr hword

theorem accept_eq (t : Text) : (accept t : Parser σ Bool) = select (oneOf [t]) false := by
  funext s
  refine (outcome_accept t s).trans (Eq.trans ?_ (outcome_select (oneOf [t]) false s).symm)
  rw [oneOf, any_cons, any_nil, Bool.or_false, ← Token.is_eq, Stream.isAt]
  cases s.stream.peek.is t <;> rfl

/-- A result of what stands ahead. -/
def foresee (test : Stream → α) : Parser σ α := return test (← get).stream

/-- The errors for a bound on nesting that is too small. -/
def outOfDepth (e : Error) : Prop := ∃ detail, e = .fault (.logic detail) .unknown

/-- The parser `p` started in `s` takes the steps `log` and ends in `r`. What it does to its
context is related by `D`, and no bound on nesting is too small for it. -/
inductive Run (D : σ → σ → Prop) : {α : Type} → Parser σ α → ParserState σ → List Step →
    Except Error α × ParserState σ → Prop where
  | context {α : Type} {f : σ → Except Error α × σ} {s : ParserState σ}
      (hchange : D s.context (f s.context).2) (hdepth : ∀ e, (f s.context).1 = .error e → ¬ outOfDepth e) :
      Run D (onContext f) s [] ((f s.context).1, { s with context := (f s.context).2 })
  | bind {α β : Type} {p : Parser σ α} {f : α → Parser σ β}
      {s s' : ParserState σ} {a : α} {log log' : List Step}
      {r : Except Error β × ParserState σ} (hp : Run D p s log (.ok a, s')) (hf : Run D (f a) s' log' r) :
      Run D (p >>= f) s (log ++ log') r
  | bind_error {α β : Type} {p : Parser σ α} {f : α → Parser σ β} {s s' : ParserState σ} {e : Error}
      {log : List Step} (hp : Run D p s log (.error e, s')) : Run D (p >>= f) s log (.error e, s')
  | peek (s : ParserState σ) : Run D peek s [.look s.stream.ahead.isEmpty] (.ok s.stream.peek, s)
  | peekAt (n : Nat) (s : ParserState σ) :
      Run D (peekAt n) s [.far (s.stream.remaining ≤ n)] (.ok (s.stream.peekAt n), s)
  | take {α : Type} {test : Word → Option α} {d a : α} {s : ParserState σ} {t : Token} {ts : List Token}
      (hs : s.stream.ahead = t :: ts) (ha : test t.word = some a) :
      Run D (select test d) s [.pass t.word] (.ok a, { s with stream := s.stream.advance })
  | leave {α : Type} {test : Word → Option α} {d : α} {s : ParserState σ}
      (hd : test s.stream.peek.word = none) :
      Run D (select test d) s [.refuse (fun w => (test w).isSome) s.stream.ahead.isEmpty] (.ok d, s)
  | advance {s : ParserState σ} {t : Token} {ts : List Token} (hs : s.stream.ahead = t :: ts) :
      Run D advance s [.pass t.word] (.ok (), { s with stream := s.stream.advance })
  | stay {s : ParserState σ} (hs : s.stream.ahead = []) : Run D advance s [.look true] (.ok (), s)
  | attempt {α : Type} {p : Parser σ (Option α)} {s s' : ParserState σ} {a : α} {log : List Step}
      (hp : Run D p s log (.ok (some a), s')) :
      Run D (attempt p) s (.mark :: (log ++ [.release])) (.ok (some a), s')
  | attempt_none {α : Type} {p : Parser σ (Option α)} {s s' : ParserState σ} {r : Except Error (Option α)}
      {log : List Step} (hp : Run D p s log (r, s')) (hr : ∀ a, r ≠ .ok (some a)) :
      Run D (attempt p) s (.mark :: (log ++ [.reset])) (.ok none, { s' with stream := s.stream })
  | foresee {α : Type} {p : Parser σ α} {test : Stream →
      α} {s : ParserState σ} {s' : Stream} {log : List Step}
      (hp : Run D p s log (.ok (test s.stream), ⟨s', s.context⟩)) :
      Run D (foresee test) s (.mark :: (log ++ [.reset])) (.ok (test s.stream), s)

namespace Run

variable {D : σ → σ → Prop} {p : Parser σ α} {s : ParserState σ} {log : List Step}
  {r : Except Error α × ParserState σ}

/-- The parser does what the steps say. -/
theorem outcome_eq (h : Run D p s log r) : outcome p s = r := by
  induction h with
  | context | peek | peekAt | foresee => rfl
  | bind _ _ ihp ihf => rw [outcome_bind, ihp, ← ihf]
  | bind_error _ ihp => rw [outcome_bind, ihp]
  | @take _ test d a s t ts hs ha =>
    have hpeek : test s.stream.peek.word = some a := by rwa [Stream.peek, hs]
    rw [outcome_select, hpeek]
  | leave hd => rw [outcome_select, hd]
  | advance => rfl
  | @stay s hs =>
    have hstream : s.stream.advance = s.stream := by rw [Stream.advance, hs]
    show ((.ok (), { s with stream := s.stream.advance }) : Except Error Unit × ParserState σ) = _
    rw [hstream]
  | attempt _ ih => rw [outcome_attempt, ih]
  | @attempt_none _ p s s' r log _ hr ih =>
    rw [outcome_attempt, ih]
    rcases r with e | _ | a
    · rfl
    · rfl
    · exact absurd rfl (hr a)

/-- The parser moves along the tokens, and a cursor replays its steps. -/
theorem moves (h : Run D p s log r) : ∃ us, s.stream.After us r.2.stream ∧ (∀ t ∈ us, .pass t.word ∈ log) ∧
    ∀ marks, log.foldlM (Cursor.after (s.stream.tokens.length + 1)) ⟨s.stream.behind.length, marks⟩ =
      some ⟨r.2.stream.behind.length, marks⟩ := by
  -- A cursor before a token can pass it, and so may look at it.
  have hinside : ∀ s : Stream, s.behind.length < s.tokens.length + 1 := fun s => by
    rw [Stream.tokens, length_append, length_reverse]
    omega
  have hlook : ∀ (s : Stream) (marks : List Nat) (step : Step),
      (∀ size c, Cursor.after size c step = if c.position < size then some c else none) →
      [step].foldlM (Cursor.after (s.tokens.length + 1))
        ⟨s.behind.length, marks⟩ = some ⟨s.behind.length, marks⟩ := by
    intro s marks step hstep
    simp [hstep, hinside s]
  have hpass : ∀ (s : Stream) (t : Token) ts, s.ahead = t :: ts → s.After [t] s.advance ∧
      (∀ u ∈ [t], Step.pass u.word ∈ [Step.pass t.word]) ∧ ∀ marks,
      [Step.pass t.word].foldlM (Cursor.after (s.tokens.length + 1)) ⟨s.behind.length, marks⟩ =
        some ⟨s.advance.behind.length, marks⟩ := by
    intro s t ts hs
    refine ⟨.advance hs, by simp, fun marks => ?_⟩
    have hlength : s.behind.length + 1 < s.tokens.length + 1 := by
      rw [Stream.tokens, length_append, length_reverse, hs, length_cons]
      omega
    simp [Cursor.after, hlength, (Stream.After.advance hs).behind]
  induction h with
  | context => exact ⟨[], .refl _, by simp, fun _ => rfl⟩
  | bind _ _ ihp ihf =>
    obtain ⟨us, hus, hlog, hcursor⟩ := ihp
    obtain ⟨us', hus', hlog', hcursor'⟩ := ihf
    refine ⟨us ++ us', hus.trans hus', fun t ht => ?_, fun marks => ?_⟩
    · rcases mem_append.mp ht with ht | ht
      · exact mem_append_left _ (hlog t ht)
      · exact mem_append_right _ (hlog' t ht)
    · rw [foldlM_append, hcursor marks, ← hus.tokens]
      exact hcursor' marks
  | bind_error _ ihp => exact ihp
  | peek s | peekAt n s => exact ⟨[], .refl _, by simp, fun marks => hlook s.stream marks _ fun _ _ => rfl⟩
  | take hs ha => exact ⟨_, hpass _ _ _ hs⟩
  | leave hd => exact ⟨[], .refl _, by simp, fun marks => hlook _ marks _ fun _ _ => rfl⟩
  | advance hs => exact ⟨_, hpass _ _ _ hs⟩
  | stay hs => exact ⟨[], .refl _, by simp, fun marks => hlook _ marks _ fun _ _ => rfl⟩
  | attempt _ ih =>
    obtain ⟨us, hus, hlog, hcursor⟩ := ih
    refine ⟨us, hus, fun t ht => mem_cons_of_mem _ (mem_append_left _ (hlog t ht)), fun marks => ?_⟩
    simp [Cursor.after, hcursor]
  | attempt_none _ _ ih | foresee _ ih =>
    obtain ⟨us, hus, hlog, hcursor⟩ := ih
    refine ⟨[], .refl _, by simp, fun marks => ?_⟩
    simp [Cursor.after, hcursor]

/-- What happens to the context is what `D` allows. -/
theorem changes (h : Run D p s log r) (hrefl : ∀ c, D c c)
    (htrans : ∀ {c c' c''}, D c c' → D c' c'' → D c c'') :
    D s.context r.2.context := by
  induction h with
  | context hchange => exact hchange
  | bind _ _ ihp ihf => exact htrans ihp ihf
  | bind_error _ ih | attempt _ ih | attempt_none _ _ ih => exact ih
  | _ => exact hrefl _

end Run

/-- Whether the end token is looked at. -/
def Step.atEnd : Step → Bool
  | .look atEnd | .far atEnd | .refuse _ atEnd => atEnd
  | _ => false

/-- A step that stays the same if the word `w` comes after all tokens. -/
def Step.Tolerates (w : Word) : Step → Prop
  | .look atEnd | .far atEnd => atEnd = false
  | .refuse test atEnd => atEnd = true → test w = false
  | .pass _ | .mark | .release => True
  | .reset => False

end Parser

/-- The stream with further tokens and another end. -/
def Stream.extend (s : Stream) (more : List Token) (last : EndToken) : Stream :=
  { s with ahead := s.ahead ++ more, last := last }

theorem Stream.advance_extend {s : Stream} {more : List Token} {last : EndToken} (h : s.ahead ≠ []) :
    (s.extend more last).advance = s.advance.extend more last := by
  obtain ⟨t, ts, hs⟩ := exists_cons_of_ne_nil h
  simp [Stream.extend, Stream.advance, hs]

theorem Stream.peek_extend {s : Stream} {more : List Token} {last : EndToken} (h : s.ahead ≠ []) :
    (s.extend more last).peek = s.peek := by
  obtain ⟨t, ts, hs⟩ := exists_cons_of_ne_nil h
  simp [Stream.extend, Stream.peek, hs]

/-- The state with further tokens and another end. -/
def ParserState.extend {σ : Type} (s : ParserState σ) (more : List Token) (last : EndToken) : ParserState σ :=
  { s with stream := s.stream.extend more last }

namespace Parser.Run

variable {σ α : Type} {D : σ → σ → Prop} {p : Parser σ α} {s : ParserState σ} {log : List Step}
  {r : Except Error α × ParserState σ}

/-- Steps that tolerate the next of further tokens are taken before them too. -/
theorem outcome_extend (h : Run D p s log r) (hs : s.stream.beyond = 0) {more : List Token} {last : EndToken}
    (hlog : ∀ e ∈ log, e.Tolerates (more.headD last.val).word) :
    outcome p (s.extend more last) = (r.1, r.2.extend more last) := by
  induction h with
  | context => rfl
  | bind hp hf ihp ihf =>
    obtain ⟨hlog, hlog'⟩ := forall_mem_append.mp hlog
    obtain ⟨us, hafter, -⟩ := hp.moves
    rw [outcome_bind, ihp hs hlog]
    exact ihf (hafter.beyond.trans hs) hlog'
  | bind_error hp ihp => rw [outcome_bind, ihp hs hlog]
  | peek s =>
    have hne : s.stream.ahead.isEmpty = false := hlog _ mem_cons_self
    have hpeek : (s.extend more last).stream.peek = s.stream.peek := Stream.peek_extend (by simpa using hne)
    show ((.ok _, _) : Except Error Token × ParserState σ) = _
    rw [hpeek]
  | peekAt n s =>
    have hlt : n < s.stream.ahead.length := Nat.not_le.mp (of_decide_eq_false (hlog _ mem_cons_self))
    have hpeek : (s.extend more last).stream.peekAt n = s.stream.peekAt n := by
      simp only [ParserState.extend, Stream.extend, Stream.peekAt, hs, Int.add_zero]
      rw [getElem?_append_left hlt]
      simp [hlt]
    show ((.ok _, _) : Except Error Token × ParserState σ) = _
    rw [hpeek]
  | @take _ test d a s u us hahead ha =>
    have hadvance := @Stream.advance_extend s.stream more last (hahead ▸ cons_ne_nil u us)
    rw [(@take _ D _ test d a (s.extend more last) u (us ++ more)
      (congrArg (· ++ more) hahead) ha).outcome_eq]
    exact congrArg (fun stream => (_, ParserState.mk stream s.context)) hadvance
  | @leave _ test d s hd =>
    refine (@leave _ D _ test d (s.extend more last) ?_).outcome_eq
    rcases hahead : s.stream.ahead with _ | ⟨u, us⟩
    · have htest : (test (more.headD last.val).word).isSome = false := by
        simpa [Step.Tolerates, hahead] using hlog _ mem_cons_self
      simpa [ParserState.extend, Stream.extend, Stream.peek, hahead] using htest
    · simpa [ParserState.extend, Stream.extend, Stream.peek, hahead] using hd
  | @advance s u us hahead =>
    exact congrArg (fun stream => (_, ParserState.mk stream s.context))
      (Stream.advance_extend (hahead ▸ cons_ne_nil u us))
  | stay => cases hlog _ mem_cons_self
  | attempt hp ih =>
    have hlog := (forall_mem_append.mp (forall_mem_cons.mp hlog).2).1
    rw [outcome_attempt, ih hs hlog]
  | attempt_none | foresee => exact (hlog .reset (by simp)).elim

/-- A parser that stops before the end has not seen the end. -/
theorem not_atEnd (h : Run D p s log r) (hlog : ∀ e ∈ log, e ≠ .reset ∧ e ≠ .far true)
    (hne : r.2.stream.ahead ≠ []) : ∀ e ∈ log, e.atEnd = false := by
  induction h with
  | context => simp
  | bind hp hf ihp ihf =>
    obtain ⟨hlog, hlog'⟩ := forall_mem_append.mp hlog
    refine forall_mem_append.mpr ⟨ihp hlog ?_, ihf hlog' hne⟩
    obtain ⟨us, hafter, -⟩ := hf.moves
    rw [hafter.ahead]
    exact append_ne_nil_of_right_ne_nil us hne
  | bind_error _ ihp => exact ihp hlog hne
  | peek | leave => simpa [Step.atEnd] using hne
  | peekAt n s => simpa [Step.atEnd] using (hlog _ mem_cons_self).2
  | take | advance => simp [Step.atEnd]
  | stay hs => exact absurd hs hne
  | attempt _ ih =>
    have hlog := (forall_mem_append.mp (forall_mem_cons.mp hlog).2).1
    exact forall_mem_cons.mpr ⟨rfl, forall_mem_append.mpr ⟨ih hlog hne, forall_mem_singleton.mpr rfl⟩⟩
  | attempt_none | foresee => exact absurd rfl (hlog .reset (by simp)).1

/-- Such a parser does the same before further tokens. -/
theorem outcome_before (h : Run D p s log r) (hs : s.stream.beyond = 0)
    (hlog : ∀ e ∈ log, e ≠ .reset ∧ e ≠ .far true)
    (hne : r.2.stream.ahead ≠ []) (more : List Token) (last : EndToken) :
    outcome p (s.extend more last) = (r.1, r.2.extend more last) := by
  refine h.outcome_extend hs fun e he => ?_
  have hend := h.not_atEnd hlog hne e he
  cases e with
  | look b | far b => exact hend
  | refuse test b => exact fun hb => Bool.noConfusion (hb.symm.trans hend)
  | reset => exact absurd rfl (hlog _ he).1
  | _ => trivial

end Parser.Run

end LogicProgram
