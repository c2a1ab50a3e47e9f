import LogicProgram.Proofs.Token.Lexing
import LogicProgram.Proofs.Token.Steps

/-!
# Two runs side by side

A parser takes the same steps if it is given another bound on nesting and repetition, or the
same words at other places. `S.Runs k m p q R` says so of two parsers with at most `k` tokens
before them: their results are related by `R`, and come after at least `m` tokens were passed.
There is one rule for each way in which parsers are put together. A bound is never reached
because every further round passes a token.
-/

namespace LogicProgram

open List
open Token (Proper endWord isWord)
open LogicProgram.Parser (Step Run outOfDepth select)

namespace Parser

variable {a : α} {c : σ} {s : Stream}

variable {σ : Type}

/-- Accepting one of two words is one selection. -/
theorem accept_or_eq (t u : Text) :
    (do if ← accept t then return true
        accept u : Parser σ Bool) = select (oneOf [t, u]) false := by
  funext s
  have hselect : ∀ ts, outcome (select (oneOf ts) false) s = if ts.any
      (isWord s.stream.peek.word ·) then
      (.ok true, { s with stream := s.stream.advance }) else (.ok false, s) := by
    intro ts
    rw [outcome_select, oneOf]
    cases ts.any (isWord s.stream.peek.word ·) <;> rfl
  refine Eq.trans ?_ (hselect [t, u]).symm
  show outcome (accept t >>= fun b => if b then pure true else accept u) s = _
  rw [outcome_bind, accept_eq, accept_eq, hselect]
  by_cases ht : isWord s.stream.peek.word t = true
  · simp [ht]
    rfl
  · simpa [ht] using hselect [u]

end Parser

/-- Streams at the same place of tokens that agree. -/
structure Stream.Alike (agree : Token → Token → Prop) (sound : Token → Prop) (s s' : Stream) :
    Prop where
  ahead : Forall₂ agree s.ahead s'.ahead
  last : agree s.last.val s'.last.val
  ended : s.last.val.word = endWord
  inside : s.beyond = 0
  inside' : s'.beyond = 0
  sound : ∀ t ∈ s.ahead, sound t

namespace Stream.Alike

variable {agree : Token → Token → Prop} {sound : Token → Prop} {s s' : Stream}

theorem peek (h : Alike agree sound s s') : agree s.peek s'.peek := by
  have hahead := h.ahead
  rw [Stream.peek, Stream.peek]
  generalize s.ahead = ts, s'.ahead = ts' at hahead
  cases hahead with
  | nil => exact h.last
  | cons ht _ => exact ht

theorem isEmpty (h : Alike agree sound s s') : s'.ahead.isEmpty = s.ahead.isEmpty := by
  have hahead := h.ahead
  generalize s.ahead = ts, s'.ahead = ts' at hahead
  cases hahead <;> rfl

/-- A token that is not the end stands ahead. -/
theorem ahead_ne_nil (h : Alike agree sound s s') (hne : s.peek.word ≠ endWord) : s.ahead ≠ [] :=
  fun hs =>
  hne (by rw [Stream.peek, hs]; exact h.ended)

/-- What is known of the current token. -/
theorem sound_peek (h : Alike agree sound s s') (hne : s.peek.kind ≠ .endOfInput) :
    sound s.peek := by
  obtain ⟨t, ts, hs⟩ := exists_cons_of_ne_nil
    (h.ahead_ne_nil fun hend => hne (congrArg Prod.fst hend))
  rw [Stream.peek, hs]
  exact h.sound t (hs ▸ mem_cons_self)

theorem peekAt (h : Alike agree sound s s') (n : Nat) : agree (s.peekAt n) (s'.peekAt n) := by
  have hlast := h.last
  have hahead := h.ahead
  simp only [Stream.peekAt, h.inside, h.inside', Int.add_zero]
  generalize s.ahead = ts, s'.ahead = ts' at hahead
  induction hahead generalizing n with
  | nil => exact hlast
  | cons ht _ ih =>
    cases n with
    | zero => exact ht
    | succ n => exact ih n

end Stream.Alike

/-- What two runs have in common, and what they do not do. -/
structure Setting (σ : Type) where
  /-- What may happen to the context. -/
  change : σ → σ → Prop
  refl : ∀ c, change c c
  /-- The tokens that the two runs see at the same time. -/
  agree : Token → Token → Prop
  word : ∀ {t t'}, agree t t' → t'.word = t.word
  /-- What is known of all tokens. -/
  sound : Token → Prop
  /-- The words that may be passed. -/
  passes : Word → Prop := fun _ => True
  /-- No place is returned to. -/
  plain : Prop := False
  /-- Only the current token is looked at. -/
  near : Prop := False
  /-- The tests that the end may fail on the way to a result. -/
  ends : (Word → Bool) → Prop := fun _ => True
  /-- The end may be looked at on the way to a result. -/
  looks : Prop := True

namespace Setting

variable {σ α β : Type}

/-- The steps that may be taken. -/
def Each (S : Setting σ) : Step → Prop
  | .pass w => S.passes w
  | .reset => ¬ S.plain
  | .far _ => ¬ S.near
  | _ => True

/-- The steps that may be taken on the way to a result. -/
def Good (S : Setting σ) : Step → Prop
  | .look true => S.looks
  | .refuse test true => S.ends test
  | .far true => ¬ S.plain
  | _ => True

/-- Streams at the same place of the tokens. -/
abbrev Alike (S : Setting σ) (s s' : Stream) : Prop := Stream.Alike S.agree S.sound s s'

/-- A stream that is not at the end can move on together with the other. -/
theorem alike_advance {S : Setting σ} {s' : Stream} (h : S.Alike s s') (hne : s.ahead ≠ []) :
    ∃ t ts t' ts', s.ahead = t :: ts ∧ s'.ahead = t' :: ts' ∧ s.peek = t ∧ t'.word = t.word ∧
      S.Alike s.advance s'.advance ∧ s.remaining = s.advance.remaining + 1 := by
  obtain ⟨hahead, hlast, hended, hinside, hinside', hsound⟩ := h
  obtain ⟨behind, ahead, last, beyond⟩ := s
  obtain ⟨behind', ahead', last', beyond'⟩ := s'
  cases hahead with
  | nil => exact absurd rfl hne
  | @cons t t' ts ts' ht hts =>
    exact ⟨t, ts, t', ts', rfl, rfl, rfl, S.word ht, ⟨hts, hlast, hended, hinside, hinside',
      fun u hu => hsound u (mem_cons_of_mem t hu)⟩, rfl⟩

/-- How two runs from `s` end together. -/
inductive Meet (S : Setting σ) (R : α → α → Prop) (m : Nat) (s : Stream) (log : List Step) :
    Except Error α × ParserState σ → Except Error α × ParserState σ → Prop where
  | ok {a a' : α} {t t' : Stream} {c : σ} (hresult : R a a') (halike : S.Alike t t')
      (hgood : ∀ e ∈ log, S.Good e) (hpassed : t.remaining + m ≤ s.remaining) :
      Meet S R m s log (.ok a, ⟨t, c⟩) (.ok a', ⟨t', c⟩)
  | error {e e' : Error} {t t' : Stream} {c : σ} (halike : S.Alike t t')
      (herror : (∀ t t', S.agree t t' → t' = t) → e' = e) :
      Meet S R m s log (.error e, ⟨t, c⟩) (.error e', ⟨t', c⟩)

/-- Before at most `k` tokens, of which `A` holds of the first, the parsers `p` and `q` take the same
steps. Where they succeed they pass at least `m` tokens and their results are related by `R`. -/
def RunsAt (S : Setting σ) (A : Token → Prop) (k m : Nat) (p q : Parser σ α)
    (R : α → α → Prop) : Prop :=
  ∀ (s s' : Stream) (c : σ), S.Alike s s' → A s.peek → s.remaining ≤ k →
    ∃ log r r', Run S.change p ⟨s, c⟩ log r ∧ Run S.change q ⟨s', c⟩ log r' ∧
      (∀ e ∈ log, S.Each e) ∧
      S.Meet R m s log r r'

/-- Before at most `k` tokens the parsers `p` and `q` take the same steps. -/
abbrev Runs (S : Setting σ) (k m : Nat) (p q : Parser σ α) (R : α → α → Prop) : Prop :=
  S.RunsAt (fun _ => True) k m p q R

/-- The same result, of which `P` holds. -/
def Same (P : α → Prop) (a a' : α) : Prop := a' = a ∧ P a

/-- The two parsers have the same result, and `P` holds of it. -/
abbrev Gives (S : Setting σ) (k m : Nat) (p q : Parser σ α) (P : α → Prop) : Prop :=
  S.Runs k m p q (Same P)

/-- The setting for what comes before further tokens. -/
def inner (S : Setting σ) : Setting σ := { S with ends := fun _ => True, looks := True }

/-- A test for words that may be passed, after which at least `m` tokens are passed in all. -/
structure Selects (S : Setting σ) (m : Nat) (test : Word → Option α) : Prop where
  /-- The end stands for nothing. -/
  last : test endWord = none
  passes : ∀ w a, test w = some a → S.passes w
  /-- The end may be tested if nothing has to be passed. -/
  ends : 0 < m ∨ S.ends fun w => (test w).isSome

/-- A parser that passes a separator if one comes next. -/
def Separates (S : Setting σ) (more : Parser σ Bool) : Prop :=
  ∃ test, more = select test false ∧ S.Selects 0 test

/-- A parser that passes an operator if one comes next, which keeps a property of operands. -/
def Combines (S : Setting σ) (operator : Parser σ (Option (α → α → α))) (P : α → Prop) : Prop :=
  ∃ test, operator = select test none ∧ S.Selects 0 test ∧
    ∀ w combine, test w = some (some combine) → ∀ a b, P a → P b → P (combine a b)

namespace RunsAt

variable {S : Setting σ} {A : Token → Prop} {k m : Nat} {p q : Parser σ α} {f g : α → Parser σ β}
  {R : α → α → Prop} {R' : β → β → Prop} {P : α → Prop} {Q : β → Prop}

theorem mono {m' : Nat} {R' : α → α → Prop} (h : S.RunsAt A k m p q R) (hm : m' ≤ m)
    (hR : ∀ a a', R a a' → R' a a') : S.RunsAt A k m' p q R' := by
  intro s s' c hs hA hk
  obtain ⟨log, r, r', hp, hq, heach, hmeet⟩ := h s s' c hs hA hk
  refine ⟨log, r, r', hp, hq, heach, ?_⟩
  cases hmeet with
  | ok hresult halike hgood hpassed => exact .ok (hR _ _ hresult) halike hgood (by omega)
  | error halike herror => exact .error halike herror

/-- Nothing has to be passed. -/
theorem weaken (h : S.RunsAt A k m p q R) : S.RunsAt A k 0 p q R := h.mono (Nat.zero_le m)
    fun _ _ h => h

theorem restrict {A' : Token → Prop} {j : Nat} (h : S.RunsAt A k m p q R) (hA : ∀ t, A' t → A t)
    (hj : j ≤ k) :
    S.RunsAt A' j m p q R :=
  fun s s' c hs hs' hk => h s s' c hs (hA _ hs') (Nat.le_trans hk hj)

theorem shrink {j : Nat} (h : S.RunsAt A k m p q R) (hj : j ≤ k) : S.RunsAt A j m p q R :=
  h.restrict (fun _ h => h) hj

/-- Runs before any token are runs before some. -/
theorem anywhere (h : S.Runs k m p q R) (A : Token → Prop) : S.RunsAt A k m p q R :=
  h.restrict (fun _ _ => trivial) (Nat.le_refl k)

/-- More may be allowed. -/
theorem relax {passes : Word → Prop} {plain near : Prop} {ends : (Word → Bool) → Prop}
    {looks : Prop}
    (h : S.RunsAt A k m p q R) (hpasses : ∀ w, S.passes w → passes w) (hplain : plain → S.plain)
      (hnear : near → S.near)
    (hends : ∀ test, S.ends test → ends test) (hlooks : S.looks → looks) :
    ({ S with passes, plain, near, ends, looks } : Setting σ).RunsAt A k m p q R := by
  intro s s' c hs hA hk
  obtain ⟨log, r, r', hp, hq, heach, hmeet⟩ := h s s' c hs hA hk
  refine ⟨log, r, r', hp, hq, fun e he => ?_, ?_⟩
  · have := heach e he
    cases e with
    | pass w => exact hpasses w this
    | reset => exact fun h => this (hplain h)
    | far => exact fun h => this (hnear h)
    | _ => trivial
  cases hmeet with
  | error halike herror => exact .error halike herror
  | ok hresult halike hgood hpassed =>
    refine .ok hresult halike (fun e he => ?_) hpassed
    have := hgood e he
    cases e with
    | look b =>
      cases b with
      | true => exact hlooks this
      | false => trivial
    | refuse test b =>
      cases b with
      | true => exact hends test this
      | false => trivial
    | far b =>
      cases b with
      | true => exact fun h => this (hplain h)
      | false => trivial
    | _ => trivial

/-- Before further tokens less is asked for. -/
theorem toInner (h : S.RunsAt A k m p q R) : S.inner.RunsAt A k m p q R :=
  h.relax (fun _ h => h) id id (fun _ _ => trivial) fun _ => trivial

theorem pure {a' : α} (h : R a a') : S.RunsAt A k 0 (Pure.pure a) (Pure.pure a') R := by
  intro s s' c hs _ _
  have hrun : ∀ (a : α) (s : Stream), Run S.change (Pure.pure a) ⟨s, c⟩ [] (.ok a, ⟨s, c⟩) :=
    fun a s => @Run.context σ S.change α (fun c => (.ok a, c)) ⟨s, c⟩ (S.refl c) nofun
  exact ⟨[], _, _, hrun a s, hrun a' s', nofun,
    .ok h hs (nofun) (Nat.le_refl _)⟩

theorem throw {e e' : Error} (he : ¬ outOfDepth e) (he' : ¬ outOfDepth e')
    (h : (∀ t t', S.agree t t' → t' = t) → e' = e) :
    S.RunsAt A k m (MonadExcept.throw e) (MonadExcept.throw e' : Parser σ α) R := by
  intro s s' c hs _ _
  have hrun : ∀ (e : Error) (s : Stream), ¬ outOfDepth e →
      Run S.change (MonadExcept.throw e : Parser σ α) ⟨s, c⟩ [] (.error e, ⟨s, c⟩) := fun e s he =>
    @Run.context σ S.change α (fun c => (.error e, c)) ⟨s, c⟩ (S.refl c) fun e' h => by
      obtain rfl := Except.error.inj h
      exact he
  exact ⟨[], _, _, hrun e s he, hrun e' s' he', nofun, .error hs h⟩

/-- One parser after another. -/
theorem bind_of_le {m₁ m₂ : Nat} (hp : S.RunsAt A k m₁ p q R)
    (hf : ∀ a a', R a a' → m₁ ≤ k → S.Runs (k - m₁) m₂ (f a) (g a') R') (hm : m ≤ m₁ + m₂) :
    S.RunsAt A k m (p >>= f) (q >>= g) R' := by
  intro s s' c hs hA hk
  obtain ⟨log, r, r', hp, hq, heach, hmeet⟩ := hp s s' c hs hA hk
  cases hmeet with
  | error halike herror => exact ⟨log, _, _, .bind_error hp, .bind_error hq, heach,
      .error halike herror⟩
  | @ok a a' t t' c' hresult halike hgood hpassed =>
    obtain ⟨log', r, r', hf, hg, heach', hmeet⟩ :=
      hf a a' hresult (by omega) t t' c' halike trivial (by omega)
    refine ⟨log ++ log', r, r', .bind hp hf, .bind hq hg, forall_mem_append.mpr ⟨heach, heach'⟩, ?_⟩
    cases hmeet with
    | error halike herror => exact .error halike herror
    | ok hresult halike hgood' hpassed' =>
      exact .ok hresult halike (forall_mem_append.mpr ⟨hgood, hgood'⟩) (by omega)

theorem bind (hp : S.RunsAt A k 0 p q R) (hf : ∀ a a', R a a' → S.Runs k m (f a) (g a') R') :
    S.RunsAt A k m (p >>= f) (q >>= g) R' :=
  hp.bind_of_le (fun a a' ha _ => hf a a' ha) (Nat.le_add_left m 0)

/-- The same result goes on. -/
theorem bind_same (hp : S.RunsAt A k 0 p q (Same P)) (hf : ∀ a, P a → S.Runs k m (f a) (g a) R') :
    S.RunsAt A k m (p >>= f) (q >>= g) R' :=
  hp.bind fun a _ ha => ha.1 ▸ hf a ha.2

/-- The same result goes on, and the first parser passes the tokens. -/
theorem first (hp : S.RunsAt A k m p q (Same P)) (hf : ∀ a, P a → S.Runs k 0 (f a) (g a) R') :
    S.RunsAt A k m (p >>= f) (q >>= g) R' :=
  hp.bind_of_le (fun a _ ha _ => by rw [ha.1]; exact (hf a ha.2).shrink (Nat.sub_le k m))
    (Nat.le_refl m)

theorem map {h : α → β} (hp : S.RunsAt A k m p q (Same P)) (hP : ∀ a, P a → Q (h a)) :
    S.RunsAt A k m (h <$> p) (h <$> q) (Same Q) :=
  hp.first fun a ha => pure ⟨rfl, hP a ha⟩

/-- Both runs take the same branch. -/
theorem ite {b : Prop} [Decidable b] {p' q' : Parser σ α} (hp : b → S.RunsAt A k m p q R)
    (hq : ¬ b → S.RunsAt A k m p' q' R) : S.RunsAt A k m (if b then p else p')
      (if b then q else q') R := by
  split
  · next h => exact hp h
  · next h => exact hq h

/-- What comes before a token that is passed does not see the end. -/
theorem inner_bind (hplain : S.plain) (hp : S.inner.RunsAt A k 0 p q (Same P)) (hm : 0 < m)
    (hf : ∀ a, P a → S.Runs k m (f a) (g a) R') : S.RunsAt A k m (p >>= f) (q >>= g) R' := by
  intro s s' c hs hA hk
  obtain ⟨log, r, r', hp, hq, heach, hmeet⟩ := hp s s' c hs hA hk
  have heach : ∀ e ∈ log, S.Each e := heach
  cases hmeet with
  | error halike herror =>
    exact ⟨log, _, _, .bind_error hp, .bind_error hq, heach,
      .error halike herror⟩
  | @ok a a' t t' c' hresult halike hgood hpassed =>
    obtain ⟨rfl, ha⟩ := hresult
    obtain ⟨log', r, r', hf, hg, heach', hmeet⟩ := hf _ ha t t' c'
      halike trivial (by omega)
    refine ⟨log ++ log', r, r', .bind hp hf, .bind hq hg, forall_mem_append.mpr ⟨heach, heach'⟩, ?_⟩
    cases hmeet with
    | error halike herror => exact .error halike herror
    | ok hresult halike hgood' hpassed' =>
      refine .ok hresult halike (forall_mem_append.mpr ⟨fun e he => ?_, hgood'⟩) (by omega)
      have hne : t.ahead ≠ [] := ne_nil_of_length_pos
          (by rw [Stream.remaining, Stream.remaining] at hpassed'; omega)
      have hend := hp.not_atEnd (fun e he => ⟨fun h => ?_, fun h => ?_⟩) hne e he
      · cases e with
        | look b | far b | refuse test b =>
          obtain rfl : b = false := hend
          trivial
        | _ => trivial
      · exact (h ▸ heach e he : S.Each .reset) hplain
      · exact (h ▸ hgood e he : S.inner.Good (.far true)) hplain

/-- A single step, after which the parsers go on from `t` and `t'`. -/
theorem step (h : ∀ (s s' : Stream) (c : σ), S.Alike s s' → A s.peek → s.remaining ≤ k →
    ∃ e a a' t t' m',
      Run S.change p ⟨s, c⟩ [e] (.ok a, ⟨t, c⟩) ∧ Run S.change q ⟨s', c⟩ [e] (.ok a', ⟨t', c⟩) ∧
        S.Each e ∧
      (S.Good e ∨ t.remaining < m') ∧ S.Alike t t' ∧ t.remaining + m ≤ s.remaining + m' ∧
      S.RunsAt (· = t.peek) t.remaining m' (f a) (g a') R') :
        S.RunsAt A k m (p >>= f) (q >>= g) R' := by
  intro s s' c hs hA hk
  obtain ⟨e, a, a', t, t', m', hp, hq, heach, hgood, ht, hm, hf⟩ := h s s' c hs hA hk
  obtain ⟨log, r, r', hf, hg, heach', hmeet⟩ := hf t t' c ht rfl (Nat.le_refl _)
  refine ⟨e :: log, r, r', .bind hp hf, .bind hq hg, forall_mem_cons.mpr ⟨heach, heach'⟩, ?_⟩
  cases hmeet with
  | error halike herror => exact .error halike herror
  | ok hresult halike hgood' hpassed =>
    refine .ok hresult halike (forall_mem_cons.mpr ⟨hgood.resolve_right ?_, hgood'⟩) (by omega)
    omega

/-- What is done with the current token depends on its word. -/
theorem peek {f g : Token → Parser σ β} (hm : 0 < m ∨ S.looks)
    (hf : ∀ kind value x x', A ⟨kind, value, x⟩ → S.agree ⟨kind, value, x⟩ ⟨kind, value, x'⟩ →
      (kind ≠ .endOfInput → S.sound ⟨kind, value, x⟩) →
      S.RunsAt (·.word = (kind, value)) k m (f ⟨kind, value, x⟩) (g ⟨kind, value, x'⟩) R') :
    S.RunsAt A k m (Parser.peek >>= f) (Parser.peek >>= g) R' := by
  refine step fun s s' c hs hA hk => ?_
  obtain ⟨⟨kind, value, x⟩, htoken⟩ : ∃ t, s.peek = t := ⟨_, rfl⟩
  obtain ⟨⟨kind', value', x'⟩, htoken'⟩ : ∃ t, s'.peek = t := ⟨_, rfl⟩
  have hagree := hs.peek
  rw [htoken, htoken'] at hagree
  obtain ⟨rfl, rfl⟩ := Prod.mk.inj (S.word hagree)
  have hsound := hs.sound_peek
  rw [htoken] at hsound hA
  refine ⟨.look s.ahead.isEmpty, s.peek, s'.peek, s, s', m, .peek _, hs.isEmpty ▸ .peek _, trivial,
    ?_, hs, by omega, ?_⟩
  · cases hahead : s.ahead with
    | cons => exact .inl trivial
    | nil => exact hm.symm.imp id fun h => by rwa [Stream.remaining, hahead]
  · rw [htoken, htoken']
    exact (hf kind' value' x x' hA hagree hsound).restrict (fun t ht => ht ▸ rfl) hk

theorem next {f g : Token → Parser σ β} (hm : 0 < m ∨ S.looks)
    (hf : ∀ kind value x x', S.agree ⟨kind, value, x⟩ ⟨kind, value, x'⟩ →
      S.RunsAt (·.word = (kind, value)) k m
      (Parser.advance >>= fun _ => f ⟨kind, value, x⟩)
        (Parser.advance >>= fun _ => g ⟨kind, value, x'⟩) R') :
    S.RunsAt A k m (Parser.next >>= f) (Parser.next >>= g) R' :=
  (peek hm fun kind value x x' _ hagree _ => hf kind value x x' hagree : S.RunsAt A k m
    (Parser.peek >>= fun t => Parser.advance >>= fun _ => f t)
      (Parser.peek >>= fun t => Parser.advance >>= fun _ => g t) R')

theorem peekAt {f g : Token → Parser σ β} (n : Nat) (hnear : ¬ S.near) (hplain : ¬ S.plain ∨ n < m)
    (hf : ∀ t t', S.agree t t' → S.RunsAt A k m (f t) (g t') R') :
    S.RunsAt A k m (Parser.peekAt n >>= f) (Parser.peekAt n >>= g) R' := by
  refine step fun s s' c hs hA hk => ?_
  have hremaining : s'.remaining = s.remaining := hs.ahead.length_eq.symm
  refine ⟨.far (s.remaining ≤ n), _, _, s, s', m, .peekAt n _, hremaining ▸ .peekAt n _, hnear, ?_,
    hs, by omega,
    (hf _ _ (hs.peekAt n)).restrict (fun _ ht => ht ▸ hA) hk⟩
  by_cases hle : s.remaining ≤ n
  · rw [decide_eq_true hle]
    exact hplain.imp id (Nat.lt_of_le_of_lt hle)
  · rw [decide_eq_false hle]
    exact .inl trivial

/-- A token that is known not to be the end is passed. -/
theorem advance {f g : Unit → Parser σ β} {w : Word} (hw : w.1 ≠ .endOfInput) (hpasses : S.passes w)
    (hf : ∀ j < k, S.Runs j (m - 1) (f ()) (g ()) R') :
    S.RunsAt (·.word = w) k m (Parser.advance >>= f) (Parser.advance >>= g) R' := by
  refine step fun s s' c hs ht hk => ?_
  subst ht
  obtain ⟨t, ts, t', ts', hahead, hahead', hpeek, hword, hnext, hlength⟩ :=
    S.alike_advance hs (hs.ahead_ne_nil fun h => hw (congrArg Prod.fst h))
  exact ⟨.pass t.word, (), (), s.advance, s'.advance, m - 1, .advance hahead,
    hword ▸ .advance hahead', hpeek ▸ hpasses,
    .inl trivial, hnext, by omega, (hf _ (by omega)).restrict (fun _ _ => trivial) (Nat.le_refl _)⟩

/-- Failing at a token does not say that a bound was too small. -/
theorem failHere {fault : Fault} (hfault : ∀ detail, fault ≠ .logic detail) :
    S.RunsAt A k m (Parser.failHere fault) (Parser.failHere fault : Parser σ α) R := by
  have hdepth : ∀ x : Position, ¬ outOfDepth (.fault fault x) := fun x ⟨detail, h⟩ =>
    hfault detail (Error.fault.inj h).1
  -- It does not matter whether the end is looked at, since there is no result.
  have hthrow : (S.inner).RunsAt A k (m + 1) (Parser.failHere fault)
      (Parser.failHere fault : Parser σ α) R :=
    peek (.inl (Nat.succ_pos m)) fun kind value x x' _ hagree _ => throw (hdepth x) (hdepth x')
      fun h => by
      rw [Token.mk.inj (h _ _ hagree) |>.2.2]
  intro s s' c hs hA hk
  obtain ⟨log, r, r', hp, hq, heach, hmeet⟩ := hthrow s s' c hs hA hk
  refine ⟨log, r, r', hp, hq, heach, ?_⟩
  cases hmeet with
  | error halike herror => exact .error halike herror
  | ok => cases hp.outcome_eq

/-- What comes after a failure does not matter. -/
theorem failHere_bind {fault : Fault} (hfault : ∀ detail, fault ≠ .logic detail) :
    S.RunsAt A k m (Parser.failHere fault >>= f) (Parser.failHere fault >>= g) R' :=
  (failHere (R := Same fun _ => False) (m := m) hfault).first fun _ h => h.elim

/-- A word that may be passed. -/
theorem select {test : Word → Option α} {d : α} (h : S.Selects m test)
    (hyes : ∀ w a, test w = some a → ∀ j < k, S.Runs j (m - 1) (f a) (g a) R')
    (hno : ∀ t, A t → test t.word = none → S.Runs k m (f d) (g d) R') :
    S.RunsAt A k m (Parser.select test d >>= f) (Parser.select test d >>= g) R' := by
  refine step fun s s' c hs hA hk => ?_
  have hword := S.word hs.peek
  cases htest : test s.peek.word with
  | some a =>
    obtain ⟨t, ts, t', ts', hahead, hahead', hpeek, heq, hnext, hlength⟩ :=
      S.alike_advance hs (hs.ahead_ne_nil fun hend => by rw [hend, h.last] at htest; cases htest)
    rw [hpeek] at htest
    exact ⟨.pass t.word, a, a, s.advance, s'.advance, m - 1, .take hahead htest,
      heq ▸ .take hahead' (heq ▸ htest),
      h.passes _ a htest, .inl trivial, hnext, by omega,
      (hyes _ a htest _ (by omega)).restrict (fun _ _ => trivial) (Nat.le_refl _)⟩
  | none =>
    refine ⟨.refuse (fun w => (test w).isSome) s.ahead.isEmpty, d, d, s, s', m, .leave htest,
      hs.isEmpty ▸ .leave (hword ▸ htest), trivial, ?_, hs, by omega,
      (hno _ hA htest).restrict (fun _ _ => trivial) hk⟩
    cases hahead : s.ahead with
    | cons => exact .inl trivial
    | nil => exact h.ends.symm.imp id fun h => by rwa [Stream.remaining, hahead]

/-- A symbol or identifier that may be passed. -/
theorem accept {t : Text} {f g : Bool → Parser σ β} (h : S.Selects m (Parser.oneOf [t]))
    (hyes : ∀ j < k, S.Runs j (m - 1) (f true) (g true) R')
    (hno : ∀ u, A u → u.is t = false → S.Runs k m (f false) (g false) R') :
    S.RunsAt A k m (Parser.accept t >>= f) (Parser.accept t >>= g) R' := by
  rw [Parser.accept_eq]
  refine select h (fun w b hw => ?_) fun u hu htest => hno u hu (Parser.is_eq_false_of_oneOf htest)
  obtain rfl := Parser.eq_true_of_oneOf hw
  exact hyes

/-- Items with separators between them, in enough rounds. -/
theorem oneOrMore {more : Parser σ Bool} {n n' : Nat} (hmore : S.Separates more)
    (hp : S.Gives k m p q P)
    (hn : k < n) (hn' : k < n') : S.Gives k m (Parser.oneOrMore p more n)
      (Parser.oneOrMore q more n')
      fun as => as ≠ [] ∧ ∀ a ∈ as, P a := by
  obtain ⟨test, rfl, hmore⟩ := hmore
  induction n generalizing k n' with
  | zero => exact absurd hn (Nat.not_lt_zero k)
  | succ n ih =>
    obtain _ | n' := n'
    · exact absurd hn' (Nat.not_lt_zero k)
    have hone : ∀ {j : Nat} {a : α}, P a → S.Gives j 0 (Pure.pure [a]) (Pure.pure [a])
        fun as => as ≠ [] ∧ ∀ a ∈ as, P a :=
      fun ha => pure ⟨rfl, cons_ne_nil _ _, forall_mem_singleton.mpr ha⟩
    refine hp.first fun a ha => select hmore (fun w b _ j hj => ?_) fun _ _ _ => hone ha
    cases b with
    | false => exact hone ha
    | true =>
      refine (ih (hp.shrink (Nat.le_of_lt hj)) (by omega) (by omega)).weaken.bind_same
        fun as has => pure ⟨rfl, cons_ne_nil _ _, forall_mem_cons.mpr ⟨ha, has.2⟩⟩

/-- Operands with operators between them, in enough rounds. -/
theorem chainLeft {operator : Parser σ (Option (α → α → α))} {n n' : Nat}
    (hoperator : S.Combines operator P)
    (hp : S.Gives k m p q P) (hn : k < n) (hn' : k < n') (ha : P a) :
    S.Gives k 0 (Parser.chainLeft p operator n a) (Parser.chainLeft q operator n' a) P := by
  obtain ⟨test, rfl, hoperator, htest⟩ := hoperator
  induction n generalizing k n' a with
  | zero => exact absurd hn (Nat.not_lt_zero k)
  | succ n ih =>
    obtain _ | n' := n'
    · exact absurd hn' (Nat.not_lt_zero k)
    refine select hoperator (fun w combine hw j hj => ?_) fun _ _ _ => pure ⟨rfl, ha⟩
    cases combine with
    | none => exact pure ⟨rfl, ha⟩
    | some combine =>
      have hp := hp.shrink (Nat.le_of_lt hj)
      refine hp.weaken.bind_same fun b hb => ?_
      exact ih hp (by omega) (by omega) (htest w combine hw a b ha hb)

/-- An attempt gives what the parser gives, or nothing. -/
theorem attempt {p q : Parser σ (Option α)} (hS : ∀ e, S.Each e ∧ S.Good e)
    (hp : S.RunsAt A k m p q (Same fun o => ∀ a ∈ o, P a)) :
    S.RunsAt A k 0 (Parser.attempt p) (Parser.attempt q) (Same fun o => ∀ a ∈ o, P a) := by
  intro s s' c hs hA hk
  obtain ⟨log, r, r', hp, hq, -, hmeet⟩ := hp s s' c hs hA hk
  have hnone : ∀ {r r' : Except Error (Option α)} {t t' : Stream} {c' : σ},
      Run S.change p ⟨s, c⟩ log (r, ⟨t, c'⟩) →
      Run S.change q ⟨s', c⟩ log (r', ⟨t', c'⟩) → (∀ a, r ≠ .ok (some a)) →
        (∀ a, r' ≠ .ok (some a)) →
      ∃ log r r', Run S.change (Parser.attempt p) ⟨s, c⟩ log r ∧
        Run S.change (Parser.attempt q) ⟨s', c⟩ log r' ∧
        (∀ e ∈ log, S.Each e) ∧ S.Meet (Same fun o => ∀ a ∈ o, P a) 0 s log r r' :=
          fun hp hq hr hr' =>
    ⟨_, _, _, .attempt_none hp hr, .attempt_none hq hr', fun e _ => (hS e).1,
      .ok ⟨rfl, nofun⟩ hs (fun e _ => (hS e).2) (Nat.le_refl _)⟩
  cases hmeet with
  | error => exact hnone hp hq nofun nofun
  | @ok o o' t t' c' hresult halike hgood hpassed =>
    obtain ⟨rfl, ho⟩ := hresult
    cases o' with
    | none => exact hnone hp hq nofun nofun
    | some a =>
      exact ⟨_, _, _, .attempt hp, .attempt hq, fun e _ => (hS e).1, .ok ⟨rfl, ho⟩ halike
        (fun e _ => (hS e).2) (by omega)⟩

/-- Two runs along the same tokens end in the same way. -/
theorem same (h : S.Runs k m p q R) (hagree : ∀ t t', S.agree t t' → t' = t)
    (hR : ∀ a a', R a a' → a' = a) (hs : S.Alike s s) (hk : s.remaining ≤ k) :
    ∃ log r, Run S.change p ⟨s, c⟩ log r ∧ Run S.change q ⟨s, c⟩ log r ∧ (∀ e ∈ log, S.Each e) ∧
      ∀ a, r.1 = .ok a → R a a ∧ ∀ e ∈ log, S.Good e := by
  obtain ⟨log, r, r', hp, hq, heach, hmeet⟩ := h s s c hs trivial hk
  obtain ⟨us, hus, -⟩ := hp.moves
  obtain ⟨us', hus', -⟩ := hq.moves
  have hstream : ∀ {t t' : Stream}, s.After us t → s.After us' t' → S.Alike t t' → t' = t := by
    intro t t' ht ht' halike
    have hahead : t.ahead = t'.ahead := forall₂_eq_eq_eq ▸ halike.ahead.imp
        fun _ _ h => (hagree _ _ h).symm
    obtain rfl : us = us' := append_cancel_right (ht.ahead.symm.trans (hahead ▸ ht'.ahead))
    obtain ⟨_, _, _, _⟩ := t
    obtain ⟨_, _, _, _⟩ := t'
    cases hahead
    cases ht.behind
    cases ht'.behind
    cases ht.last
    cases ht'.last
    cases ht.beyond
    cases ht'.beyond
    rfl
  cases hmeet with
  | error halike herror =>
    obtain rfl := hstream hus hus' halike
    exact ⟨log, _, hp, herror hagree ▸ hq, heach, nofun⟩
  | ok hresult halike hgood =>
    obtain rfl := hstream hus hus' halike
    obtain rfl := hR _ _ hresult
    refine ⟨log, _, hp, hq, heach, fun a ha => ?_⟩
    obtain rfl := Except.ok.inj ha
    exact ⟨hresult, hgood⟩

/-- Where a parser that returns stops, and what holds of its result. -/
theorem returned {t : ParserState σ} (h : S.Runs k m p q R)
    (hagree : ∀ t t', S.agree t t' → t' = t) (hR : ∀ a a', R a a' → a' = a) (hs : S.Alike s s)
      (hk : s.remaining ≤ k)
    (hreturns : Returns p ⟨s, c⟩ a t) : (∃ us, s.After us t.stream) ∧ R a a := by
  obtain ⟨log, r, hp, -, -, hr⟩ := h.same (c := c) hagree hR hs hk
  obtain rfl : (.ok a, t) = r := hreturns.symm.trans hp.outcome_eq
  exact ⟨hp.moves.imp fun _ h => h.1, (hr a rfl).1⟩

/-- What stops before the end and never goes back ignores further tokens. -/
theorem outcome_before (h : S.Runs k m p q R) (hagree : ∀ t t', S.agree t t' → t' = t)
    (hR : ∀ a a', R a a' → a' = a) (hs : S.Alike s s) (hk : s.remaining ≤ k) (hplain : S.plain)
    (hfar : S.near ∨ ∃ a, (outcome p ⟨s, c⟩).1 = .ok a)
      (hne : (outcome p ⟨s, c⟩).2.stream.ahead ≠ [])
    (more : List Token) (last : EndToken) : outcome q (ParserState.extend ⟨s, c⟩ more last) =
      ((outcome p ⟨s, c⟩).1, (outcome p ⟨s, c⟩).2.extend more last) := by
  obtain ⟨log, r, hp, hq, heach, hgood⟩ := h.same (c := c) hagree hR hs hk
  rw [hp.outcome_eq] at hfar hne ⊢
  refine hq.outcome_before hs.inside (fun e he => ⟨?_, ?_⟩) hne more last
  · rintro rfl
    exact heach _ he hplain
  · rintro rfl
    rcases hfar with hnear | ⟨a, ha⟩
    · exact heach _ he hnear
    · exact (hgood a ha).2 _ he hplain

end RunsAt

/-- A setting that forbids nothing but to return. -/
structure Loose (S : Setting σ) : Prop where
  passes : ∀ w, S.passes w
  /-- Tokens further ahead may be looked at. -/
  far : ¬ S.near
  ends : ∀ test, S.ends test
  looks : S.looks

namespace Loose

variable {S : Setting σ} (hS : S.Loose) {k m : Nat}

include hS

/-- Everything is allowed in a loose setting that is not plain. -/
theorem free (hplain : ¬ S.plain) (e : Step) : S.Each e ∧ S.Good e := by
  cases e with
  | look b | refuse test b =>
    cases b with
    | true => exact ⟨trivial, by first | exact hS.looks | exact hS.ends _⟩
    | false => exact ⟨trivial, trivial⟩
  | far b =>
    cases b with
    | true => exact ⟨hS.far, hplain⟩
    | false => exact ⟨hS.far, trivial⟩
  | pass w => exact ⟨hS.passes w, trivial⟩
  | reset => exact ⟨hplain, trivial⟩
  | _ => exact ⟨trivial, trivial⟩

theorem selects {test : Word → Option α} (h : test endWord = none) : S.Selects m test :=
  ⟨h, fun w _ _ => hS.passes w, .inr (hS.ends _)⟩

theorem accept (t : Text) : S.Gives k 0 (Parser.accept t) (Parser.accept t) fun _ => True := by
  rw [← bind_pure (Parser.accept t)]
  exact .accept (hS.selects rfl) (fun _ _ => .pure ⟨rfl, trivial⟩) fun _ _ _ => .pure ⟨rfl, trivial⟩

theorem separates (t : Text) : S.Separates (Parser.accept t) :=
  ⟨_, Parser.accept_eq t, hS.selects rfl⟩

theorem isAt (t : Text) : S.Gives k 0 (Parser.isAt t) (Parser.isAt t) fun _ => True :=
  .peek (.inr hS.looks) fun _ _ _ _ _ _ _ => .pure ⟨rfl, trivial⟩

theorem atEnd : S.Gives k 0 Parser.atEnd Parser.atEnd fun _ => True :=
  (.peek (.inr hS.looks) fun _ _ _ _ _ _ _ => .pure ⟨rfl, trivial⟩ : S.Runs k 0
    (Parser.peek >>= fun t => pure (t.kind == .endOfInput))
      (Parser.peek >>= fun t => pure (t.kind == .endOfInput)) _)

theorem advance : S.Gives k 0 Parser.advance Parser.advance fun _ => True := by
  intro s s' c hs _ _
  cases hahead : s.ahead with
  | nil =>
    have hahead' : s'.ahead = [] := by simpa [hahead] using hs.isEmpty
    exact ⟨[.look true], _, _, .stay hahead, .stay hahead', by simp [Each],
      .ok ⟨rfl, trivial⟩ hs (by simpa [Good] using hS.looks) (Nat.le_refl _)⟩
  | cons =>
    obtain ⟨t, ts, t', ts', hahead, hahead', -, hword, hnext, hlength⟩ :=
      S.alike_advance hs (by simp [hahead])
    exact ⟨[.pass t.word], _, _, .advance hahead,
      hword ▸ .advance hahead', by simpa [Each] using hS.passes _,
      .ok ⟨rfl, trivial⟩ hnext (by simp [Good]) (hlength ▸ Nat.le_succ _)⟩

end Loose

end Setting

/-- The tokens of a text are words, and the last is the end. -/
theorem Stream.alike_tokenize {t : Text} {tokens : List Token} (h : Token.tokenize t = .ok tokens) :
    Alike Eq (fun token => Proper token.word) (ofTokens tokens) (ofTokens tokens) ∧
      (ofTokens tokens).remaining < tokens.length ∧ (ofTokens tokens).behind = [] ∧
      (ofTokens tokens).tokens.length + 1 = tokens.length := by
  obtain ⟨ts, last, rfl, hlast, hts, -⟩ := Token.tokenizeFrom_proper h
  rw [ofTokens_append hlast]
  exact ⟨⟨forall₂_same.mpr fun _ _ => rfl, rfl, hlast, rfl, rfl, hts⟩, by simp [remaining],
    rfl, by simp [Stream.tokens]⟩

end LogicProgram
