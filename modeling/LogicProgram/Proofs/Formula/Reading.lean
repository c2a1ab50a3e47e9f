import LogicProgram.Proofs.Registry
import LogicProgram.Proofs.Token.Input
import LogicProgram.Proofs.Token.Steps
import LogicProgram.Formula.Parser

/-!
# Steps of reading formulas

Functions, predicates and variables are declared as they are read. Nothing else happens to
the registry, whether or not the text turns out to be well formed. `Passes p c ws P` says of
parsers with different bounds on nesting and repetition that they take the same steps before
some words, and what holds of the words that they pass. There is one rule for each way in
which parsers are put together.
-/

namespace LogicProgram

open List
open Token (Proper Input first isWord spelled)
open LogicProgram.Parser (Run Meets outOfDepth foresee always onContext accept oneOf)

variable {α : Type} {e : Error} {s : Stream} {ws : List Word} {c : FormulaContext}

/-- A relation between registries that holds of everything that a single
declaration does. -/
structure Registry.Declaring (R : Registry → Registry → Prop) : Prop where
  refl : ∀ r, R r r
  trans : ∀ {r r' r''}, R r r' → R r' r'' → R r r''
  newVariable : ∀ r name domain, R r (r.addVariables #[⟨name, some domain⟩])
  function : ∀ r f, R r (r.declareFunction f)
  predicate : ∀ r p, R r (r.declarePredicate p)
  /-- What is known of a function changes. -/
  updateFunction : ∀ r f change, (∀ d, (change d).symbol = d.symbol) →
    R r (r.updateFunction f change)
  /-- What is known of a predicate changes. -/
  updatePredicate : ∀ r p change, (∀ d, (change d).symbol = d.symbol) →
    R r (r.updatePredicate p change)

/-- No declaration is lost. -/
theorem Registry.declaring_grows : Declaring Grows where
  refl := Grows.refl
  trans := Grows.trans
  newVariable := fun r _ _ => r.grows_addVariables _
  function := grows_declareFunction
  predicate := grows_declarePredicate
  updateFunction := fun _ _ _ _ => .of_eq rfl rfl
  updatePredicate := fun r p _ hchange => r.grows_updatePredicate p hchange

/-- A new variable has its domain from the start. -/
theorem Registering.returns_newVariable (r : Registry) (name : Text) (domain : Domain) :
    Returns (do
      let v ← namedVariable name
      assignDomain v (some domain)
      return v) r r.variableTable.size (r.addVariables #[⟨name, some domain⟩]) := by
  simp only [Returns.bind_iff, namedVariable_iff, assignDomain_iff, Returns.pure_iff]
  exact ⟨_, _, ⟨rfl, rfl⟩, ⟨⟩, _, r.assignDomain_last name _, rfl, rfl⟩

/-- A step on the registry leaves the rest alone. -/
theorem FormulaParser.register_iff {step : Registering α} {a : α}
    {s s' : ParserState FormulaContext} : Returns (register step) s a s' ↔
      ∃ r, Returns step s.context.registry a r ∧
        { s with context := { s.context with registry := r } } = s' := by
  rw [@Returns.within_iff _ _ _ _ s s' _ _ step _ s.context.registry
    (fun r => { s with context := { s.context with registry := r } }) (fun a _ => a)]
  · simp
  all_goals
    intro _ r hrun
    simp only [register, outcome_bind, outcome_get, hrun]
    rfl

namespace FormulaParser

/-- What happens to the registry are declarations. -/
def Changes (c c' : FormulaContext) : Prop := ∀ R, Registry.Declaring R → R c.registry c'.registry

theorem changes_of_eq {c' : FormulaContext} (h : c'.registry = c.registry) : Changes c c' :=
  fun _ hR => h ▸ hR.refl _

variable {α β : Type}

/-- A parser that does not touch the tokens. -/
def Quiet (p : FormulaParser α) : Prop := ∀ s, ∃ r, Run Changes p s [] r

namespace Quiet

variable {p : FormulaParser α} {f : α → FormulaParser β}

theorem context {f : FormulaContext → Except Error α × FormulaContext} (hf : ∀ c, Changes c (f c).2)
    (he : ∀ c e, (f c).1 = .error e → ¬ outOfDepth e) : Quiet (onContext f) :=
  fun s => ⟨_, .context (hf s.context) (he s.context)⟩

/-- What does not fail. -/
theorem onContext_ok {g : FormulaContext → α} {h : FormulaContext → FormulaContext}
    (hh : ∀ c, Changes c (h c)) :
    Quiet (onContext fun c => (.ok (g c), h c)) :=
  context hh fun c e he => by cases he

theorem pure (a : α) : Quiet (Pure.pure a) :=
  @onContext_ok _ (fun _ => a) id fun _ => changes_of_eq rfl

theorem throw (he : ¬ outOfDepth e) : Quiet (MonadExcept.throw e : FormulaParser α) :=
  @context _ (fun c => (.error e, c)) (fun _ => changes_of_eq rfl)
    fun _ _ h => Except.error.inj h ▸ he

theorem bind (hp : Quiet p) (hf : ∀ a, Quiet (f a)) : Quiet (p >>= f) := by
  intro s
  obtain ⟨⟨e | a, s'⟩, hp⟩ := hp s
  · exact ⟨_, .bind_error hp⟩
  · obtain ⟨r, hf⟩ := hf a s'
    exact ⟨r, .bind hp hf⟩

/-- Declarations. -/
theorem register {step : Registering α} (h : ∀ r R, Registry.Declaring R → R r (outcome step r).2)
    (he : ∀ r e, (outcome step r).1 = .error e → ¬ outOfDepth e) :
      Quiet (FormulaParser.register step) := by
  have heq : FormulaParser.register step = onContext fun c =>
      ((outcome step c.registry).1, { c with registry := (outcome step c.registry).2 }) := by
    funext s
    have hstep : outcome (FormulaParser.register step) s = ((outcome step s.context.registry).1,
        { s with
          context := { s.context with registry := (outcome step s.context.registry).2 } }) := by
      rcases hrun : outcome step s.context.registry with ⟨e | a, r⟩
      all_goals
        have hrun' : (step.run s.context.registry : Except Error α × Registry) = _ := hrun
        simp only [FormulaParser.register, outcome_bind, outcome_get, hrun']
        rfl
    exact hstep
  rw [heq]
  exact context (fun c => h c.registry) fun c => he c.registry

/-- Declarations that do not fail. -/
theorem declare {f : Registry → Registry} (h : ∀ r R, Registry.Declaring R → R r (f r)) :
    Quiet (FormulaParser.register (modify f)) := register h nofun

theorem newVariable (name : Text) : Quiet (FormulaParser.newVariable name) := by
  rw [FormulaParser.newVariable]
  split
  · next e he =>
    refine throw fun ⟨detail, hdepth⟩ => ?_
    subst hdepth
    rw [Domain.ofVariableName] at he
    split at he
    · cases he
    · split at he
      · cases he
      · split at he <;> cases he
  · next domain _ =>
    have hreturns := fun r => Registering.returns_newVariable r name domain
    refine register (fun r R hR => ?_) fun r e he => ?_
    · rw [hreturns r]
      exact hR.newVariable r name domain
    · rw [hreturns r] at he
      cases he

/-- What depends on the context alone. -/
theorem get {f : ParserState FormulaContext → FormulaParser β} (hf : ∀ s, Quiet (f s))
    (hcontext : ∀ s s', s.context = s'.context → f s = f s') : Quiet (MonadState.get >>= f) := by
  intro s
  have heq : MonadState.get >>= f = onContext (fun c => (.ok c, c)) >>= fun c => f ⟨s.stream, c⟩ :=
    funext fun t => congrFun (hcontext t ⟨s.stream, t.context⟩ rfl) t
  rw [heq]
  exact bind (onContext_ok fun _ => changes_of_eq rfl) (fun c => hf _) s

theorem resolve (name : Text) : Quiet (FormulaParser.resolve name) := by
  rw [FormulaParser.resolve]
  refine get (fun s => ?_) fun s s' h => by simp only [h]
  dsimp only
  split
  · exact pure _
  · split
    · exact pure _
    · refine (newVariable name).bind fun v => bind ?_ fun _ => pure v
      exact @onContext_ok _ (fun _ => ()) (fun c => { c with free := c.free ++ [(name, v)] })
        fun _ => changes_of_eq rfl

end Quiet

/-- Before the words `ws` and in the context `c`, the parsers `p` take the same steps and end in the
same way. Where they succeed, `P` holds of the words that they pass and those that are left. -/
def Passes (p : Nat → FormulaParser α) (c : FormulaContext) (ws : List Word)
    (P : α → FormulaContext → List Word → List Word → Prop) : Prop :=
  ∀ s : Stream, s.Shows ws → ∃ log r, (∀ i, Run Changes (p i) ⟨s, c⟩ log r) ∧
    ∀ a s', r = (.ok a, s') → ∃ us vs, ws = us ++ vs ∧ s'.stream.Shows vs ∧ P a s'.context us vs

namespace Passes

variable {p q : Nat → FormulaParser α} {f : Nat → α → FormulaParser β}
  {c : FormulaContext} {w : Word} {ws vs : List Word}
  {a : α} {t : Text} {P : α → FormulaContext → List Word → List Word → Prop}
  {Q : β → FormulaContext → List Word → List Word → Prop}

/-- What is said of successes. -/
theorem meets (h : Passes p c ws P) (i : Nat) :
    Meets (p i) c ws always fun a c' vs => ∃ us, ws = us ++ vs ∧ P a c' us vs := by
  refine fun s hs => ⟨fun a s' hreturns => ?_, fun _ _ _ => trivial⟩
  obtain ⟨log, r, hrun, hP⟩ := h s hs
  obtain ⟨us, vs, hws, hvs, ha⟩ := hP a s' ((hrun i).outcome_eq.symm.trans hreturns)
  exact ⟨vs, hvs, us, hws, ha⟩

/-- Whatever the words are, only declarations happen to the registry. -/
theorem declares (h : Passes p c ws P) (hs : s.Shows ws) (i : Nat) :
    Changes c (outcome (p i) ⟨s, c⟩).2.context := by
  obtain ⟨log, r, hrun, -⟩ := h s hs
  rw [(hrun i).outcome_eq]
  exact (hrun i).changes (fun _ => changes_of_eq rfl) fun h h' R hR => hR.trans (h R hR) (h' R hR)

theorem grows (h : Passes p c ws P) : Passes p c ws
    fun a c' us vs => P a c' us vs ∧ c.registry.Grows c'.registry := by
  intro s hs
  obtain ⟨log, r, hrun, hP⟩ := h s hs
  refine ⟨log, r, hrun, fun a s' hr => ?_⟩
  obtain ⟨us, vs, hws, hvs, ha⟩ := hP a s' hr
  have hchange := h.declares hs 0 _ Registry.declaring_grows
  rw [(hrun 0).outcome_eq, hr] at hchange
  exact ⟨us, vs, hws, hvs, ha, hchange⟩

theorem mono {P' : α → FormulaContext → List Word → List Word → Prop} (hp : Passes p c ws P)
    (h : ∀ a c' us vs, ws = us ++ vs → P a c' us vs → P' a c' us vs) : Passes p c ws P' := by
  intro s hs
  obtain ⟨log, r, hrun, hP⟩ := hp s hs
  refine ⟨log, r, hrun, fun a s' hr => ?_⟩
  obtain ⟨us, vs, hws, hvs, ha⟩ := hP a s' hr
  exact ⟨us, vs, hws, hvs, h _ _ _ _ hws ha⟩

/-- A parser that passes no words. -/
theorem of_quiet {p : FormulaParser α} {E : Error → Prop} {R : α → FormulaContext → Prop}
    (hp : Quiet p)
    (h : Meets p c ws E fun a c' vs => vs = ws ∧ R a c') : Passes (fun _ => p) c ws
      fun a c' us _ => us = [] ∧ R a c' := by
  intro s hs
  obtain ⟨r, hrun⟩ := hp ⟨s, c⟩
  refine ⟨[], r, fun _ => hrun, fun a s' hr => ?_⟩
  obtain ⟨vs, hvs, rfl, ha⟩ := (h s hs).1 a s' (hrun.outcome_eq.trans hr)
  exact ⟨[], vs, rfl, hvs, rfl, ha⟩

theorem pure (h : P a c [] ws) : Passes (fun _ => Pure.pure a) c ws P :=
  (of_quiet (R := fun b c' => b = a ∧ c' = c) (.pure a)
    (Meets.pure (E := always) ⟨rfl, rfl, rfl⟩)).mono
    fun b c' us vs hws hb => by
      obtain ⟨rfl, rfl, rfl⟩ := hb
      obtain rfl : ws = vs := hws
      exact h

theorem throw (he : ¬ outOfDepth e := by rintro ⟨_, h⟩; cases h) :
    Passes (fun _ => (MonadExcept.throw e : FormulaParser α)) c ws P :=
  (of_quiet (E := always) (R := fun _ _ => False) (.throw he) (.throw trivial)).mono
    fun _ _ _ _ _ h => h.2.elim

theorem bind (hp : Passes p c ws P) (hf : ∀ a c' us vs, ws = us ++ vs → P a c' us vs →
    Passes (fun i => f i a) c' vs fun b c'' us' vs' => Q b c'' (us ++ us') vs') : Passes
      (fun i => p i >>= f i) c ws Q := by
  intro s hs
  obtain ⟨log, ⟨e | a, s'⟩, hrun, hP⟩ := hp s hs
  · exact ⟨log, _, fun i => .bind_error (hrun i), nofun⟩
  · obtain ⟨us, vs, rfl, hvs, ha⟩ := hP a s' rfl
    obtain ⟨log', r, hf, hQ⟩ := hf a s'.context us vs rfl ha s'.stream hvs
    refine ⟨log ++ log', r, fun i => .bind (hrun i) (hf i), fun b t hr => ?_⟩
    obtain ⟨us', vs', rfl, hvs', hb⟩ := hQ b t hr
    exact ⟨us ++ us', vs', (append_assoc _ _ _).symm, hvs', hb⟩

theorem map {g : α → β} (hp : Passes p c ws P)
    (h : ∀ a c' us vs, ws = us ++ vs → P a c' us vs → Q (g a) c' us vs) :
    Passes (fun i => g <$> p i) c ws Q :=
  hp.bind fun a c' us vs hws ha => pure (by simpa using h a c' us vs hws ha)

/-- What comes after a failure does not matter. -/
theorem throw_bind (he : ¬ outOfDepth e := by rintro ⟨_, h⟩; cases h) :
    Passes (fun i => (MonadExcept.throw e : FormulaParser α) >>= f i) c ws Q :=
  (throw (P := fun _ _ _ _ => False) he).bind fun _ _ _ _ _ h => h.elim

theorem pure_bind (hf : Passes (fun i => f i a) c ws Q) : Passes
    (fun i => Pure.pure a >>= f i) c ws Q := hf

theorem ite {b : Prop} [Decidable b] (hp : b → Passes p c ws P) (hq : ¬ b → Passes q c ws P) :
    Passes (fun i => if b then p i else q i) c ws P := by
  split
  · next h => exact hp h
  · next h => exact hq h

/-- A step after which the parsers go on. -/
theorem step {p : FormulaParser α} (h : ∀ s, s.Shows ws → ∃ log a s' us vs,
    Run Changes p ⟨s, c⟩ log (.ok a, ⟨s', c⟩) ∧
      ws = us ++ vs ∧ s'.Shows vs ∧ Passes (fun i => f i a) c vs
        fun b c' us' vs' => Q b c' (us ++ us') vs') :
    Passes (fun i => p >>= f i) c ws Q := by
  intro s hs
  obtain ⟨log, a, s', us, vs, hp, rfl, hvs, hf⟩ := h s hs
  obtain ⟨log', r, hf, hQ⟩ := hf s' hvs
  refine ⟨log ++ log', r, fun i => .bind hp (hf i), fun b t hr => ?_⟩
  obtain ⟨us', vs', rfl, hvs', hb⟩ := hQ b t hr
  exact ⟨us ++ us', vs', (append_assoc _ _ _).symm, hvs', hb⟩

/-- What is done with the next token depends on its word. -/
theorem peek {f : Nat → Token → FormulaParser β}
    (hf : ∀ t, t.word = first ws → Passes (fun i => f i t) c ws Q) :
    Passes (fun i => Parser.peek >>= f i) c ws Q :=
  step fun s hs => ⟨_, s.peek, s, [], ws, .peek _, rfl, hs, hf s.peek hs.peek⟩

theorem atEnd {f : Nat → Bool → FormulaParser β}
    (hf : Passes (fun i => f i ((first ws).1 == .endOfInput)) c ws Q) :
    Passes (fun i => Parser.atEnd >>= f i) c ws Q :=
  (peek fun t ht => show Passes (fun i => f i (t.word.1 == .endOfInput)) c ws Q from ht ▸ hf :
    Passes (fun i => Parser.peek >>= fun t => f i (t.kind == .endOfInput)) c ws Q)

theorem failHere {fault : Fault} (hfault : ∀ detail, fault ≠ .logic detail) :
    Passes (fun _ => (Parser.failHere fault : FormulaParser α)) c ws P :=
  peek fun _ _ => throw fun ⟨detail, h⟩ => hfault detail (Error.fault.inj h).1

theorem failHere_bind {fault : Fault} (hfault : ∀ detail, fault ≠ .logic detail) :
    Passes (fun i => (Parser.failHere fault : FormulaParser α) >>= f i) c ws Q :=
  (failHere (P := fun _ _ _ _ => False) hfault).bind fun _ _ _ _ _ h => h.elim

theorem advance {f : Nat → Unit → FormulaParser β}
    (hf : Passes (fun i => f i ()) c ws fun b c' us vs => Q b c' (w :: us) vs) :
    Passes (fun i => Parser.advance >>= f i) c (w :: ws) Q := by
  refine step fun s hs => ?_
  obtain ⟨t, ts, ht, -, -⟩ := map_eq_cons_iff.mp hs.ahead
  exact ⟨_, (), s.advance, [w], ws, .advance ht, rfl, hs.advance, hf⟩

/-- The next token is passed, if there is one. -/
theorem skip {f : Nat → Unit → FormulaParser β} (hf : ∀ us vs, ws = us ++ vs →
    Passes (fun i => f i ()) c vs fun b c' us' vs' => Q b c' (us ++ us') vs') :
    Passes (fun i => Parser.advance >>= f i) c ws Q := by
  cases ws with
  | nil => exact step fun s hs => ⟨_, (), s, [], [], .stay (map_eq_nil_iff.mp hs.ahead), rfl, hs,
      hf [] [] rfl⟩
  | cons w ws => exact advance (hf [w] ws rfl)

theorem next {f : Nat → Token → FormulaParser β}
    (hf : ∀ t, t.word = w → Passes (fun i => f i t) c ws fun b c' us vs => Q b c' (w :: us) vs) :
    Passes (fun i => Parser.next >>= f i) c (w :: ws) Q :=
  (peek fun t ht => advance (hf t ht) : Passes
    (fun i => Parser.peek >>= fun t => Parser.advance >>= fun _ => f i t) c (w :: ws) Q)

/-- A symbol or identifier that is accepted is passed. -/
theorem accept {n : Nat → Nat} {f : Nat → Bool → FormulaParser β} (hws : Input n ws)
    (hyes : ∀ vs, ws = spelled t :: vs → Passes (fun i => f i true) c vs
      fun b c' us vs => Q b c' (spelled t :: us) vs)
    (hno : isWord (first ws) t = false → Passes (fun i => f i false) c ws Q) :
    Passes (fun i => accept t >>= f i) c ws Q := by
  rw [Parser.accept_eq]
  refine step fun s hs => ?_
  have htest : ∀ w, oneOf [t] w = if isWord w t then some true else none := fun w => by simp [oneOf]
  cases hword : isWord (first ws) t with
  | false =>
    have hleave : oneOf [t] s.peek.word = none := by rw [htest, hs.peek, hword]; rfl
    exact ⟨_, false, s, [], ws, .leave hleave, rfl, hs, hno hword⟩
  | true =>
    cases ws with
    | nil => cases hword
    | cons w vs =>
      obtain rfl := (hws.proper w mem_cons_self).eq_spelled hword
      obtain ⟨u, us, hu, hw, -⟩ := map_eq_cons_iff.mp hs.ahead
      have htake : oneOf [t] u.word = some true := by rw [htest, hw]; exact if_pos hword
      exact ⟨_, true, s.advance, [_], vs, .take hu htake, rfl, hs.advance, hyes vs rfl⟩

/-- The context is read. -/
theorem ask {g : FormulaContext → α} (hf : Passes (fun i => f i (g c)) c ws Q) :
    Passes (fun i => (onContext fun c => (.ok (g c), c)) >>= f i) c ws Q :=
  step fun s hs => ⟨[], g c, s, [], ws, .context (changes_of_eq rfl) nofun, rfl, hs, hf⟩

/-- The context is changed. -/
theorem alter {g : FormulaContext → FormulaContext} {f : Nat → Unit → FormulaParser β}
    (hg : (g c).registry = c.registry)
    (hf : Passes (fun i => f i ()) (g c) ws Q) :
    Passes (fun i => (onContext fun c => (.ok (), g c)) >>= f i) c ws Q := by
  intro s hs
  obtain ⟨log, r, hf, hQ⟩ := hf s hs
  have halter : Run Changes (onContext fun c => (.ok (), g c)) ⟨s, c⟩ [] (.ok (), ⟨s, g c⟩) :=
    .context (changes_of_eq hg) nofun
  exact ⟨log, r, fun i => .bind halter (hf i), hQ⟩

end Passes

/-- Passes the tokens up to the parenthesis that closes `depth + 1` open ones. -/
def skipGroup : (rounds depth : Nat) → FormulaParser Unit
  | 0, _ => return ()
  | rounds + 1, depth => do
    if ← Parser.atEnd then return ()
    let t ← Parser.peek
    Parser.advance
    if t.is "(" then skipGroup rounds (depth + 1)
    else if t.is ")" then
      match depth with
      | 0 => return ()
      | depth + 1 => skipGroup rounds depth
    else skipGroup rounds depth

/-- Passes the identifier, application or group that comes next, and says whether a term goes on after it. -/
def scan (n : Nat) : FormulaParser Bool := do
  let t ← Parser.peek
  Parser.advance
  let more ← do
    if t.kind == .identifier then accept "(" else pure true
  if more then skipGroup n 0
  return continuesTerm (← Parser.peek)

/-- A stream before a token. -/
theorem shows_cons {t : Token} {ts : List Token} (hs : s.Shows ws) (h : s.ahead = t :: ts) :
    s.peek = t ∧ s.advance.ahead = ts ∧ s.advance.last = s.last ∧ ∃ vs, ws = t.word :: vs ∧
      s.advance.Shows vs := by
  have hws : ws = t.word :: ts.map (·.word) := by rw [← hs.ahead, h, map_cons]
  exact ⟨by rw [Stream.peek, h]; rfl, by rw [Stream.advance, h], by rw [Stream.advance, h], _, hws,
    (hws ▸ hs).advance⟩

/-- What is skipped is a group of tokens. -/
theorem outcome_skipGroup {n : Nat} (depth : Nat) (c : FormulaContext) (hs : s.Shows ws)
    (hws : ∀ w ∈ ws, Proper w) (hn : ws.length ≤ n) :
      ∃ t, outcome (skipGroup n depth) ⟨s, c⟩ = (.ok (), ⟨t, c⟩) ∧
      t.ahead = afterGroup depth s.ahead ∧ t.last = s.last := by
  induction n generalizing s ws depth with
  | zero =>
    have hahead : s.ahead = [] := map_eq_nil_iff.mp
        (hs.ahead.trans (length_eq_zero_iff.mp (Nat.le_zero.mp hn)))
    exact ⟨s, rfl, by rw [hahead, afterGroup], rfl⟩
  | succ n ih =>
    rcases hahead : s.ahead with _ | ⟨t, ts⟩
    · have hend : s.atEnd = true := by
        rw [Stream.atEnd, Stream.peek, hahead]
        exact beq_iff_eq.mpr (congrArg Prod.fst hs.last)
      refine ⟨s, ?_, by rw [hahead, afterGroup], rfl⟩
      show outcome (if s.atEnd = true then Pure.pure () else _) _ = _
      rw [if_pos hend]
      rfl
    · obtain ⟨hpeek, hts, hlast, vs, rfl, hvs⟩ := shows_cons hs hahead
      have hend : s.atEnd = false := by
        have hproper : Proper t.word := hws _ mem_cons_self
        rw [Stream.atEnd, hpeek]
        obtain ⟨kind, value, x⟩ := t
        cases kind with
        | endOfInput => exact hproper.elim
        | _ => rfl
      have hskip : ∀ depth', ∃ t', outcome (skipGroup n depth') ⟨s.advance, c⟩ = (.ok (), ⟨t', c⟩) ∧
          t'.ahead = afterGroup depth' ts ∧ t'.last = s.last := fun depth' => by
        have h := ih depth' hvs (fun w hw => hws w (mem_cons_of_mem _ hw))
            (Nat.le_of_succ_le_succ hn)
        rwa [hts, hlast] at h
      have hstep : outcome (skipGroup (n + 1) depth) ⟨s, c⟩ =
          outcome (if t.is "(" then skipGroup n (depth + 1)
          else if t.is ")" then
            match depth with
            | 0 => return ()
            | depth + 1 => skipGroup n depth
          else skipGroup n depth) ⟨s.advance, c⟩ := by
        show outcome (if s.atEnd = true then Pure.pure () else _) _ = _
        rw [hend, ← hpeek]
        rfl
      rw [hstep, afterGroup.eq_def]
      dsimp only
      by_cases hopen : t.is "(" = true
      · rw [if_pos hopen, if_pos hopen]
        exact hskip _
      rw [if_neg hopen, if_neg hopen]
      by_cases hclose : t.is ")" = true
      · rw [if_pos hclose, if_pos hclose]
        cases depth with
        | zero => exact ⟨s.advance, rfl, hts, hlast⟩
        | succ depth => exact hskip depth
      · rw [if_neg hclose, if_neg hclose]
        exact hskip depth

/-- The scan finds out whether a term starts. -/
theorem outcome_scan {n : Nat} (c : FormulaContext) (hs : s.Shows ws)
    (hws : ∀ w ∈ ws, Proper w) (hn : ws.length ≤ n) :
      ∃ t, outcome (scan n) ⟨s, c⟩ = (.ok (startsTerm s), ⟨t, c⟩) := by
  have hskip : ∀ {s' : Stream} {vs : List Word}, s'.Shows vs → vs <:+ ws →
      ∃ t, outcome (do skipGroup n 0; return continuesTerm (← Parser.peek)) ⟨s', c⟩ =
        (.ok (continuesTerm ((afterGroup 0 s'.ahead).headD s'.last)), ⟨t, c⟩) := by
    intro s' vs hs' hvs
    obtain ⟨t, ht, hahead, hlast⟩ := outcome_skipGroup 0 c hs'
      (fun w hw => hws w (hvs.subset hw)) (Nat.le_trans hvs.length_le hn)
    refine ⟨t, ?_⟩
    rw [outcome_bind, ht, ← hahead, ← hlast]
    rfl
  have haccept : ∀ s' : Stream, outcome (do
      if ← accept "(" then skipGroup n 0
      return continuesTerm (← Parser.peek)) ⟨s', c⟩ = if s'.peek.is "(" then
        outcome (do skipGroup n 0; return continuesTerm (← Parser.peek)) ⟨s'.advance, c⟩
      else (.ok (continuesTerm s'.peek), ⟨s', c⟩) := by
    intro s'
    rw [outcome_bind, Parser.outcome_accept, Stream.isAt]
    cases s'.peek.is "(" <;> rfl
  have hstep : outcome (scan n) ⟨s, c⟩ = outcome (if s.peek.kind == .identifier then do
      if ← accept "(" then skipGroup n 0
      return continuesTerm (← Parser.peek)
    else do
      skipGroup n 0
      return continuesTerm (← Parser.peek)) ⟨s.advance, c⟩ := by
    show outcome (if s.peek.kind == .identifier then _ else _)
      (⟨s.advance, c⟩ : ParserState FormulaContext) = _
    cases s.peek.kind == .identifier <;> rfl
  rw [hstep]
  rcases hahead : s.ahead with _ | ⟨t, ts⟩
  · have hkind : s.peek.kind = .endOfInput := by
      rw [Stream.peek, hahead]
      exact congrArg Prod.fst hs.last
    have hadvance : s.advance = s := by rw [Stream.advance, hahead]
    have hstarts : startsTerm s = continuesTerm s.last := by rw [startsTerm, hahead]; rfl
    rw [hkind, hadvance, hstarts]
    have h := hskip hs (suffix_refl ws)
    rw [hahead, afterGroup] at h
    exact h
  · obtain ⟨hpeek, hts, hlast, vs, rfl, hvs⟩ := shows_cons hs hahead
    rw [hpeek, startsTerm, hahead]
    dsimp only
    by_cases hname : (t.kind == .identifier) = true
    · rw [if_pos hname, if_pos hname, haccept]
      rcases hts' : ts with _ | ⟨u, us⟩
      · have hpeek' : s.advance.peek = s.last := by rw [Stream.peek, hts, hlast, hts']; rfl
        have hclosed : ¬ s.advance.peek.is "(" = true := by
          rw [hpeek', Token.is_eq, hs.last]
          decide
        rw [if_neg hclosed, hpeek']
        exact ⟨_, rfl⟩
      · obtain ⟨hpeek', hus, hlast', vs', rfl, hvs'⟩ := shows_cons hvs (hts.trans hts')
        rw [hpeek']
        dsimp only
        split
        · rw [← hus, ← hlast, ← hlast']
          exact hskip hvs' ((suffix_cons _ _).trans (suffix_cons _ _))
        · exact ⟨_, rfl⟩
    · rw [if_neg hname, if_neg hname, ← hts, ← hlast]
      exact hskip hvs (suffix_cons _ _)

theorem passes_skipGroup (rounds depth : Nat) :
    Passes (fun _ => skipGroup rounds depth) c ws fun _ c' _ _ => c' = c := by
  induction rounds generalizing depth ws with
  | zero => exact .pure rfl
  | succ rounds ih =>
    refine .atEnd (.ite (fun _ => .pure rfl) fun _ => .peek fun t _ => .skip fun us vs _ => .ite
      (fun _ => ih _) fun _ =>
      .ite (fun _ => ?_) fun _ => ih _)
    cases depth with
    | zero => exact .pure rfl
    | succ depth => exact ih depth

/-- What stands ahead is scanned, and then returned to. -/
theorem Passes.lookahead {f : Nat → Bool → FormulaParser β}
    {Q : β → FormulaContext → List Word → List Word → Prop} (hws : ∀ w ∈ ws, Proper w)
    (hf : ∀ isTerm, Passes (fun i => f i isTerm) c ws Q) : Passes
      (fun i => foresee startsTerm >>= f i) c ws Q := by
  have hlook : ∀ {ws}, Passes (fun _ => do return continuesTerm (← Parser.peek)) c ws
      fun _ c' _ _ => c' = c :=
    peek fun _ _ => pure rfl
  have hskip : ∀ n {ws}, Passes (fun _ => do skipGroup n 0; return continuesTerm (← Parser.peek)) c ws
      fun _ c' _ _ => c' = c :=
    fun n _ => (passes_skipGroup n 0).bind fun _ _ _ _ _ h => h ▸ hlook
  refine step fun s hs => ?_
  have hscan : Passes (fun _ => scan ws.length) c ws fun _ c' _ _ => c' = c := by
    refine peek fun t _ => skip fun us vs hvs => ite (fun _ => ?_) fun _ => hskip _
    exact accept (n := fun _ => vs.length + 1)
      ⟨fun w hw => hws w (hvs ▸ mem_append_right us hw), fun _ => Nat.lt_succ_self _⟩
      (fun _ _ => hskip _) fun _ => hlook
  obtain ⟨log, r, hrun, -⟩ := hscan s hs
  obtain ⟨t, ht⟩ := outcome_scan c hs hws (Nat.le_refl _)
  obtain rfl := (hrun 0).outcome_eq.symm.trans ht
  exact ⟨_, startsTerm s, s, [], ws, .foresee (hrun 0), rfl, hs, hf _⟩

/-- A text does to the registry what the parser does on its tokens. -/
theorem outcome_onText {p : Nat → FormulaParser α} {t : Text} {tokens : List Token}
    (ht : Token.tokenize t = .ok tokens) (registry : Registry) : outcome (onText p t) registry =
      ((outcome (p tokens.length) ⟨Stream.ofTokens tokens, ⟨registry, [], []⟩⟩).1,
        (outcome (p tokens.length) ⟨Stream.ofTokens tokens,
          ⟨registry, [], []⟩⟩).2.context.registry) := by
  rw [onText, ht]
  rcases hparse : outcome (p tokens.length) ⟨Stream.ofTokens tokens,
    ⟨registry, [], []⟩⟩ with ⟨e | a, s⟩
  all_goals
    have hparse' : Parser.runOn (p tokens.length) tokens ⟨registry, [], []⟩ = _ := hparse
    simp only [outcome_bind, outcome_get, hparse']
    rfl

/-- Before the tokens of a text the parsers take the same steps. -/
theorem runs_onText {p : Nat → FormulaParser α}
    {P : α → FormulaContext → List Word → List Word → Prop} {r : Registry}
    (hp : ∀ {n ws}, Input n ws → Passes (fun i => p (n i))
      ⟨r, [], []⟩ ws P) {t : Text} {tokens : List Token}
    (ht : Token.tokenize t = .ok tokens) : ∃ log r',
      ∀ n, tokens.length ≤ n → Run Changes (p n) ⟨.ofTokens tokens, ⟨r, [], []⟩⟩ log r' := by
  obtain ⟨ts, last, rfl, hlast, hts, -⟩ := Token.tokenizeFrom_proper ht
  have hinput : Input (fun i => (ts ++ [last]).length + i) (ts.map (·.word)) := by
    refine ⟨fun w hw => ?_, fun i => ?_⟩
    · obtain ⟨token, htoken, rfl⟩ := mem_map.mp hw
      exact hts token htoken
    · rw [length_map, length_append, length_singleton]
      omega
  obtain ⟨log, r', hrun, -⟩ := hp hinput _ (Stream.shows_ofTokens hlast)
  exact ⟨log, r', fun n hn => Nat.add_sub_cancel' hn ▸ hrun (n - (ts ++ [last]).length)⟩

end FormulaParser

/-- Reading a text makes declarations only. -/
theorem Registry.Declaring.onText {R : Registry → Registry → Prop}
    (hR : Declaring R) {p : Nat → FormulaParser α}
    {P : α → FormulaContext → List Word → List Word → Prop}
    (hp : ∀ {r n ws}, Input n ws → FormulaParser.Passes (fun i => p (n i)) ⟨r, [], []⟩ ws P)
      (t : Text) :
    Always R (FormulaParser.onText p t) := by
  intro r
  cases ht : Token.tokenize t with
  | ok tokens =>
    obtain ⟨log, r', hrun⟩ := FormulaParser.runs_onText (r := r) hp ht
    have hrun := hrun _ (Nat.le_refl _)
    rw [FormulaParser.outcome_onText ht, hrun.outcome_eq]
    exact hrun.changes (fun _ => FormulaParser.changes_of_eq rfl)
      (fun h h' R hR => hR.trans (h R hR) (h' R hR)) R hR
  | error e =>
    rw [FormulaParser.onText, ht]
    cases e <;> exact hR.refl r

end LogicProgram
