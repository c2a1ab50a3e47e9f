import LogicProgram.Proofs.Phrase.Scoping
import LogicProgram.Specification

/-!
# Specifications as they are written

The statements of a specification as phrases. What is read of a specification is a list
of such statements, whose formulas are closed; and a statement with a formula that is
not closed is refused with the names that no quantifier lists.
-/

namespace LogicProgram

open List
open Token (mark joined first isWord Ends Admissible Input spelled)
open LogicProgram.Parser (Meets never)
open FormulaParser (Passes)

variable {t : Text} {α : Type} {r : Registry} {s : StatementPhrase}

/-- A declaration as it is written. -/
inductive DeclarationPhrase where
  | predicate (name digits : Text)
  /-- A constant, possibly with its domain. -/
  | constant (name : Text) (domain : Option Domain)

namespace DeclarationPhrase

/-- The words of a declaration. -/
def words : DeclarationPhrase → List Word
  | .predicate name digits => [(.identifier, name), mark "/", (.number, digits)]
  | .constant name none => [(.identifier, name)]
  | .constant name (some domain) => [(.identifier, name), mark "->", (.identifier, Domain.text (some domain))]

/-- The declarations that the language has. -/
def Formed : DeclarationPhrase → Prop
  | .predicate _ digits => Text.toNat digits ≤ Specification.Grammar.maxArity
  | .constant _ _ => True

/-- Whether a predicate is declared. -/
def isPredicate : DeclarationPhrase → Bool
  | .predicate _ _ => true
  | .constant _ _ => false

end DeclarationPhrase

/-- A statement as it is written. -/
inductive StatementPhrase where
  | input (declarations : List DeclarationPhrase)
  | output (declarations : List DeclarationPhrase)
  /-- A formula after a keyword and possibly parentheses, with the name of a direction or without. -/
  | formula (keyword : Text) (direction : Option (Option Text)) (x : FormulaPhrase)

namespace StatementPhrase

/-- The words for a direction. -/
def directionWords : Option (Option Text) → List Word
  | none => []
  | some none => [mark "(", mark ")"]
  | some (some name) => [mark "(", (.identifier, name), mark ")"]

/-- The words of a list of declarations after its keyword. -/
def listWords (ds : List DeclarationPhrase) : List Word :=
  mark ":" :: joined (mark ",") (ds.map (·.words)) ++ [mark "."]

/-- The words of a statement. -/
def words : StatementPhrase → List Word
  | .input ds => (.identifier, "input") :: listWords ds
  | .output ds => (.identifier, "output") :: listWords ds
  | .formula keyword direction x =>
    (.identifier, keyword) :: directionWords direction ++ mark ":" :: x.words ++ [mark "."]

/-- The formula of a statement, if it has one. -/
def formula? : StatementPhrase → Option FormulaPhrase
  | .formula _ _ x => some x
  | .input _ | .output _ => none

/-- The statements that the language has. -/
def Formed : StatementPhrase → Prop
  | .input ds => ds ≠ [] ∧ ∀ d ∈ ds, d.Formed
  | .output ds => ds ≠ [] ∧ ∀ d ∈ ds, d.Formed ∧ d.isPredicate = true
  | .formula keyword direction x => x.Formed ∧ ∃ kind, Specification.Grammar.kindOf? keyword = some kind ∧
      (direction = none ∨ kind = .auxiliary ∧ ∀ name, direction = some (some name) →
        (Direction.ofText? name).isSome)

theorem words_ne_nil (s : StatementPhrase) : s.words ≠ [] := by
  cases s <;> exact cons_ne_nil _ _

end StatementPhrase

theorem Token.joined_append {w : Word} {wss vss : List (List Word)} (hws : wss ≠ []) (hvs : vss ≠ []) :
    joined w (wss ++ vss) = joined w wss ++ w :: joined w vss := by
  induction wss with
  | nil => exact absurd rfl hws
  | cons ws wss ih =>
    cases wss with
    | nil =>
      cases vss with
      | nil => exact absurd rfl hvs
      | cons vs vss => rfl
    | cons us wss =>
      have hrest := ih (cons_ne_nil _ _)
      simp only [cons_append, joined] at hrest ⊢
      simp [hrest]

namespace Specification.Grammar

variable {c : FormulaContext} {ws rest : List Word} {n : Nat → Nat}

/-- A step on the registry leaves the scopes alone. -/
theorem passes_register {step : Registering Unit} (h : ∀ r R, Registry.Declaring R → R r (outcome step r).2)
    (he : ∀ r e, (outcome step r).1 ≠ .error e := by nofun) :
    Passes (fun _ => FormulaParser.register step) c ws
      fun _ c' us _ => us = [] ∧ ∃ r, c' = { c with registry := r } := by
  refine .of_quiet (E := Parser.always) (.register h fun r e hr => absurd hr (he r e)) fun s hs =>
    ⟨fun a s' hreturns => ?_, fun _ _ _ => trivial⟩
  obtain ⟨r, -, rfl⟩ := FormulaParser.register_iff.mp hreturns
  exact ⟨ws, hs, rfl, r, rfl⟩

theorem passes_name : Passes (fun _ => name) c ws fun t c' us _ => c' = c ∧ us = [(.identifier, t)] := by
  refine .peek fun t ht => .ite (fun hkind => ?_) fun _ => ?_
  · obtain ⟨vs, rfl⟩ := Token.eq_cons_of_first ht (beq_iff_eq.mp hkind) (by decide)
    exact .advance (.pure ⟨rfl, rfl⟩)
  · exact Passes.failHere_bind nofun

theorem passes_arity? (hws : Input n ws) : Passes (fun _ => arity?) c ws fun arity c' us _ => c' = c ∧
    ((arity = none ∧ us = []) ∨ ∃ digits, arity = some (Text.toNat digits) ∧ Text.toNat digits ≤ maxArity ∧
      us = [mark "/", (.number, digits)]) := by
  refine .accept hws (fun vs hvs => .peek fun t ht => .ite (fun h => ?_) fun _ => ?_)
    fun _ => .pure ⟨rfl, .inl ⟨rfl, rfl⟩⟩
  · rw [Bool.and_eq_true, beq_iff_eq, decide_eq_true_eq] at h
    obtain ⟨rest, rfl⟩ := Token.eq_cons_of_first ht h.1 (by decide)
    exact .advance (.pure ⟨rfl, .inr ⟨t.value, rfl, h.2, rfl⟩⟩)
  · exact Passes.failHere_bind nofun

/-- The words for the domain of a constant. -/
def domainWords : Option Domain → List Word
  | none => []
  | some domain => [mark "->", (.identifier, Domain.text (some domain))]

theorem passes_domain (hws : Input n ws) : Passes (fun _ => domain) c ws fun _ c' us _ => c' = c ∧
    ∃ d, us = domainWords d := by
  refine .accept hws (fun vs hvs => .peek fun t ht => .ite (fun hkind => ?_) fun _ => .failHere_bind nofun) fun _ =>
    .pure ⟨rfl, none, rfl⟩
  obtain ⟨rest, rfl⟩ := Token.eq_cons_of_first ht (beq_iff_eq.mp hkind) (by decide)
  refine .ite (fun hinteger => .pure_bind (.advance (.pure ⟨rfl, some .integer, ?_⟩))) fun _ =>
    .ite (fun hprogram => .pure_bind (.advance (.pure ⟨rfl, some .program, ?_⟩))) fun _ => .failHere_bind nofun
  · rw [beq_iff_eq.mp hinteger]
    rfl
  · rw [beq_iff_eq.mp hprogram]
    rfl

/-- A parser reads declarations of a sort. -/
def PassesDeclarations (n : Nat → Nat) (C : DeclarationPhrase → Prop) (one : FormulaParser Unit) : Prop :=
  ∀ c ws, Input n ws → Passes (fun _ => one) c ws fun _ c' us _ => (∃ r, c' = { c with registry := r }) ∧
    ∃ d, C d ∧ d.words = us

theorem passes_input : PassesDeclarations n DeclarationPhrase.Formed input := by
  intro c ws hws
  refine passes_name.bind fun name c' us vs hvs h => ?_
  obtain ⟨rfl, rfl⟩ := h
  have hvs := (hvs ▸ hws).suffix
  refine (passes_arity? hvs).bind fun arity c'' us' vs' hvs' h => ?_
  obtain ⟨rfl, ⟨rfl, rfl⟩ | ⟨digits, rfl, hle, rfl⟩⟩ := h
  · refine (passes_domain (hvs' ▸ hvs).suffix).bind
      fun domain c₂ us₂ vs₂ _ h => .mono (passes_register fun r R hR =>
      hR.trans (hR.function r ⟨name, 0⟩) (hR.updateFunction _ _ _ fun _ => rfl)) fun _ c₃ us₃ _ _ h₃ => ?_
    obtain ⟨rfl, d, rfl⟩ := h
    obtain ⟨rfl, hr⟩ := h₃
    refine ⟨hr, .constant name d, trivial, ?_⟩
    cases d <;> rfl
  · refine .mono (passes_register fun r R hR =>
      hR.trans (hR.predicate r ⟨name, _⟩) (hR.updatePredicate _ _ _ fun _ => rfl)) fun _ c₃ us₃ _ _ h₃ => ?_
    obtain ⟨rfl, hr⟩ := h₃
    exact ⟨hr, .predicate name digits, hle, rfl⟩

theorem passes_output : PassesDeclarations n (fun d => d.Formed ∧ d.isPredicate = true) output := by
  intro c ws hws
  refine passes_name.bind fun name c' us vs hvs h => ?_
  obtain ⟨rfl, rfl⟩ := h
  refine (passes_arity? (hvs ▸ hws).suffix).bind fun arity c'' us' vs' hvs' h => ?_
  obtain ⟨rfl, ⟨rfl, rfl⟩ | ⟨digits, rfl, hle, rfl⟩⟩ := h
  · exact .failHere nofun
  · refine .mono (passes_register fun r R hR =>
      hR.trans (hR.predicate r ⟨name, _⟩) (hR.updatePredicate _ _ _ fun _ => rfl)) fun _ c₃ us₃ _ _ h₃ => ?_
    obtain ⟨rfl, hr⟩ := h₃
    exact ⟨hr, .predicate name digits, ⟨hle, rfl⟩, rfl⟩

/-- A symbol that has to come next. -/
theorem passes_required {fault : Fault} {f : Nat → Unit → FormulaParser α}
    {Q : α → FormulaContext → List Word → List Word → Prop} (hws : Input n ws)
    (hf : ∀ vs, ws = spelled t :: vs → Passes (fun i => f i ()) c vs
      fun b c' us vs => Q b c' (spelled t :: us) vs)
    (hfault : ∀ detail, fault ≠ .logic detail := by nofun) :
    Passes (fun i => (do unless ← Parser.accept t do Parser.failHere fault) >>= f i) c ws Q := by
  have hpasses : Passes (fun _ => do unless ← Parser.accept t do Parser.failHere fault) c ws
      fun _ c' us _ => c' = c ∧ us = [spelled t] :=
    .accept hws (fun vs hvs => .pure ⟨rfl, rfl⟩) fun _ => .failHere hfault
  refine hpasses.bind fun _ c' us vs hvs h => ?_
  obtain ⟨rfl, rfl⟩ := h
  exact hf vs hvs

/-- Declarations with commas between them. -/
theorem passes_declarations {C : DeclarationPhrase → Prop} {one : FormulaParser Unit}
    (hone : PassesDeclarations n C one) (hws : Input n ws) :
    Passes (fun i => declarations (n i) one) c ws fun _ c' us _ => (∃ r, c' = { c with registry := r }) ∧
      ∃ ds, ds ≠ [] ∧ (∀ d ∈ ds, C d) ∧ StatementPhrase.listWords ds = us := by
  refine passes_required hws fun vs hvs => ?_
  have hvs := (hvs ▸ hws).tail
  refine (FormulaParser.passes_oneOrMore
    (R := fun us c (_ : List Unit) c' => (∃ r, c' = { c with registry := r }) ∧
    ∃ ds : List DeclarationPhrase, ds ≠ [] ∧ (∀ d ∈ ds, C d) ∧ joined (mark ",") (ds.map (·.words)) = us)
    ?_ ?_ c vs hvs hvs).bind fun _ c' us rest hrest h => ?_
  · refine fun c ws hws => (hone c ws hws).mono fun _ c' us _ _ h => ?_
    obtain ⟨hr, d, hd, hwords⟩ := h
    exact ⟨hr, [d], cons_ne_nil _ _, forall_mem_singleton.mpr hd, hwords⟩
  · rintro us us' c c' c'' _ _ ⟨⟨r, rfl⟩, ds, hne, hds, rfl⟩ ⟨⟨r', rfl⟩, ds', hne', hds', rfl⟩
    refine ⟨⟨r', rfl⟩, ds ++ ds', by simp [hne], forall_mem_append.mpr ⟨hds, hds'⟩, ?_⟩
    rw [map_append, Token.joined_append (by simpa using hne) (by simpa using hne')]
    rfl
  · obtain ⟨hr, ds, hne, hds, rfl⟩ := h
    have hterminator : Passes (fun _ => terminator) c' rest fun _ c'' us _ => c'' = c' ∧ us = [mark "."] :=
      .accept (hrest ▸ hvs).suffix (fun vs hvs => .pure ⟨rfl, rfl⟩) fun _ => .failHere nofun
    refine hterminator.mono fun _ c'' us _ _ h => ?_
    obtain ⟨rfl, rfl⟩ := h
    exact ⟨hr, ds, hne, hds, rfl⟩

theorem passes_direction (hws : Input n ws) : Passes (fun _ => direction) c ws fun _ c' us _ => c' = c ∧
    ∃ name : Option Text, (∀ t, name = some t → (Direction.ofText? t).isSome) ∧
      StatementPhrase.directionWords (some name) = mark "(" :: us := by
  have hclose : ∀ (d : Direction) {ws : List Word}, Input n ws → Passes (fun _ => do
      unless ← Parser.accept ")" do Parser.failHere .unmatchedParenthesis
      return d) c ws fun _ c' us _ => c' = c ∧ us = [mark ")"] := fun d ws hws =>
    .accept hws (fun vs hvs => .pure ⟨rfl, rfl⟩) fun _ => .failHere_bind nofun
  refine .peek fun t ht => .ite (fun hkind => ?_)
    fun _ => .pure_bind ((hclose _ hws).mono fun _ c' us _ _ h => ?_)
  · obtain ⟨vs, rfl⟩ := Token.eq_cons_of_first ht (beq_iff_eq.mp hkind) (by decide)
    split
    · exact .failHere_bind nofun
    · next d hd =>
      refine .advance (.pure_bind ((hclose d hws.tail).mono fun _ c' us _ _ h => ?_))
      obtain ⟨rfl, rfl⟩ := h
      refine ⟨rfl, some t.value, fun u hu => ?_, rfl⟩
      rw [← Option.some.inj hu, hd]
      rfl
  · obtain ⟨rfl, rfl⟩ := h
    exact ⟨rfl, none, (fun _ h => nomatch h), rfl⟩

/-- What is read of a statement, for which its formula has its scopes. -/
def Says (r : Registry) (s : StatementPhrase) (item : Option Item) : Prop :=
  Option.Rel (fun x item => x.Scopes r item.formula) s.formula? item

/-- A formula after a keyword. -/
theorem passes_assertion {keyword : Text} {kind : StatementKind} (direction : Option (Option Text))
    (hkind : kindOf? keyword = some kind)
    (hdirection : direction = none ∨ kind = .auxiliary ∧ ∀ name, direction = some (some name) →
      (Direction.ofText? name).isSome) (hws : Input n ws) (d : Direction) (line : Nat) :
    Passes (fun i => do
      colon
      let formula ← FormulaParser.closedFormula (n i)
      terminator
      return some (⟨kind, d, formula, line⟩ : Item)) ⟨r, [], []⟩ ws fun item c' us _ =>
        (∃ r', c' = ⟨r', [], []⟩) ∧ ∃ s : StatementPhrase, s.Formed ∧
          s.words = (.identifier, keyword) :: StatementPhrase.directionWords direction ++ us ∧
          Says c'.registry s item := by
  refine passes_required hws fun vs hvs => ?_
  have hvs := (hvs ▸ hws).tail
  refine (FormulaParser.passes_closedFormula hvs).bind fun f c' us rest hrest h => passes_required
    (hrest ▸ hvs).suffix fun vs' hvs' => .pure ?_
  obtain ⟨r', rfl, -, -, x, rfl, hx⟩ := h
  refine ⟨⟨r', rfl⟩, .formula keyword direction x, ⟨hx.formed, kind, hkind, hdirection⟩, ?_, .some hx⟩
  simp [StatementPhrase.words, spelled]
  decide

/-- A statement passes the words of a phrase and says what it does. -/
theorem passes_statement (hws : Input n ws) : Passes (fun i => statement (n i)) ⟨r, [], []⟩ ws
    fun item c' us _ =>
    (∃ r', c' = ⟨r', [], []⟩) ∧ ∃ s : StatementPhrase, s.Formed ∧ s.words = us ∧ Says c'.registry s item := by
  refine .peek fun t ht => .ite (fun hkind => ?_) fun _ => .failHere_bind nofun
  obtain ⟨vs, rfl⟩ := Token.eq_cons_of_first ht (beq_iff_eq.mp hkind) (by decide)
  refine .ite (fun hinput => .advance ((passes_declarations passes_input hws.tail).bind
    fun _ c' us _ _ h => .pure ?_))
    fun _ => .ite (fun houtput => .advance ((passes_declarations passes_output hws.tail).bind
      fun _ c' us _ _ h => .pure ?_)) fun _ => ?_
  · obtain ⟨hr, ds, hne, hds, rfl⟩ := h
    refine ⟨hr, .input ds, ⟨hne, hds⟩, ?_, .none⟩
    rw [beq_iff_eq.mp hinput, append_nil]
    rfl
  · obtain ⟨hr, ds, hne, hds, rfl⟩ := h
    refine ⟨hr, .output ds, ⟨hne, hds⟩, ?_, .none⟩
    rw [beq_iff_eq.mp houtput, append_nil]
    rfl
  · split
    · exact .failHere nofun
    · next kind hword =>
      have hplain := fun d => passes_assertion (r := r) none hword (.inl rfl) hws.tail d t.position.line
      refine .advance (.ite (fun hlemma => .accept hws.tail (fun rest hrest => ?_)
        fun _ => .pure_bind (hplain _))
        fun _ => .pure_bind (hplain _))
      have hrest := (hrest ▸ hws.tail).tail
      refine (passes_direction hrest).bind fun d c' us vs' hvs' h => ?_
      obtain ⟨rfl, name, hname, hwords⟩ := h
      refine (passes_assertion (r := r) (some name) hword (.inr ⟨beq_iff_eq.mp hlemma, fun u hu => ?_⟩)
        (hvs' ▸ hrest).suffix d t.position.line).mono fun item c'' us' _ _ h => ?_
      · exact hname u (Option.some.inj hu)
      · obtain ⟨hr, s, hs, hswords, hsaid⟩ := h
        refine ⟨hr, s, hs, ?_, hsaid⟩
        rw [hswords, hwords]
        rfl

/-- The statements of a specification as they are written, between the same words. -/
structure Spelled (r : Registry) (ss : List StatementPhrase) (ws : List Word) (items : List Item) : Prop where
  formed : ∀ s ∈ ss, s.Formed
  words : ss.flatMap (·.words) = ws
  scopes : Forall₂ (fun x item => x.Scopes r item.formula) (ss.filterMap (·.formula?)) items

theorem Spelled.cons {r r' : Registry} {s : StatementPhrase} {ss : List StatementPhrase} {vs : List Word}
    {item : Option Item} {items : List Item} (h : Spelled r' ss vs items) (hs : s.Formed)
      (hsaid : Says r s item)
    (hr : r.Grows r') : Spelled r' (s :: ss) (s.words ++ vs) (item.toList ++ items) where
  formed := forall_mem_cons.mpr ⟨hs, h.formed⟩
  words := by rw [flatMap_cons, h.words]
  scopes := by
    rw [Says] at hsaid
    rw [filterMap_cons]
    generalize s.formula? = x at hsaid
    cases hsaid with
    | none => exact h.scopes
    | some hx => exact .cons (hx.grows hr) h.scopes

/-- The statements of a specification are phrases with closed formulas. -/
theorem passes_statements {rounds : Nat → Nat} (hrounds : Input rounds ws) (hws : Input n ws) :
    Passes (fun i => statements (n i) (rounds i)) ⟨r, [], []⟩ ws fun items c' us vs =>
      vs = [] ∧ ∃ ss, Spelled c'.registry ss us items := by
  have hnil : ∀ r, Spelled r [] [] [] := fun r => ⟨nofun, rfl, .nil⟩
  induction rounds, ws, hrounds using Input.rounds generalizing r with
  | step rounds ws hrounds ih =>
    refine .atEnd (.ite (fun hend => .pure ⟨hws.eq_nil hend, [], hnil _⟩) fun _ => (passes_statement hws).bind
      fun item c' us vs hvs h => ?_)
    subst hvs
    obtain ⟨⟨r', rfl⟩, s, hs, rfl, hsaid⟩ := h
    obtain ⟨w, us, hwords⟩ := exists_cons_of_ne_nil s.words_ne_nil
    rw [hwords] at hrounds
    have hrest := (ih (r := r') vs hrounds.next.suffix hws.suffix).grows
    cases item with
    | none =>
      refine hrest.mono fun items c'' us _ _ h => ?_
      obtain ⟨⟨rfl, ss, hss⟩, hgrows⟩ := h
      exact ⟨rfl, s :: ss, hss.cons hs hsaid hgrows⟩
    | some item =>
      refine hrest.bind fun items c'' us _ _ h => .pure ?_
      obtain ⟨⟨rfl, ss, hss⟩, hgrows⟩ := h
      rw [append_nil]
      exact ⟨rfl, s :: ss, hss.cons hs hsaid hgrows⟩

variable {n : Nat}

theorem consumes_name (t : Text) (ws : List Word) :
    FormulaParser.Consumes name c [(.identifier, t)] ws fun _ _ => True :=
  .peek_cons fun _ => .ite_pos rfl (.advance (.pure ⟨rfl, trivial⟩))

theorem meets_arity? {digits : Text} {k : Option Nat → FormulaParser α} {E : Error → Prop}
    {Q : α → FormulaContext → List Word → Prop} (hdigits : Text.toNat digits ≤ maxArity)
    (hk : Meets (k (some (Text.toNat digits))) c ws E Q) :
    Meets (arity? >>= k) c (mark "/" :: (.number, digits) :: ws) E Q := by
  have hread : Meets arity? c (mark "/" :: (.number, digits) :: ws) E fun arity c' vs =>
      arity = some (Text.toNat digits) ∧ c' = c ∧ vs = ws :=
    .accept_cons rfl (.peek_cons fun _ => .ite_pos (decide_eq_true hdigits)
      (.advance (.pure ⟨rfl, rfl, rfl⟩)))
  refine hread.bind fun arity c' vs h => ?_
  obtain ⟨rfl, rfl, rfl⟩ := h
  exact hk

theorem consumes_input {d : DeclarationPhrase} (hd : d.Formed) (hrest : Ends 9 rest) :
    FormulaParser.Consumes input c d.words rest fun _ _ => True := by
  cases d with
  | predicate t digits =>
    refine (consumes_name t (mark "/" :: (.number, digits) :: rest)).bind fun u c' _ => meets_arity? hd ?_
    exact .of_reads (.register (by rfl) rest) ⟨rfl, trivial⟩
  | constant t domain =>
    have hdomain : ∀ c, FormulaParser.Consumes Grammar.domain c (domainWords domain) rest
        fun _ _ => True := by
      intro c
      cases domain with
      | none => exact .accept_not (hrest.isWord_eq_false (by decide) (by decide)) (.pure ⟨rfl, trivial⟩)
      | some domain => cases domain with
        | program => exact .accept_cons rfl (.peek_cons fun _ => .ite_pos rfl (.ite_neg Bool.false_ne_true
            (.ite_pos rfl (.pure_bind (.advance (.pure ⟨rfl, trivial⟩))))))
        | integer => exact .accept_cons rfl (.peek_cons fun _ => .ite_pos rfl (.ite_pos rfl
            (.pure_bind (.advance (.pure ⟨rfl, trivial⟩)))))
    have hwords : (DeclarationPhrase.constant t domain).words = [(.identifier, t)] ++ domainWords domain := by
      cases domain <;> rfl
    have hslash : isWord (first (domainWords domain ++ rest)) "/" = false := by
      cases domain with
      | none => exact hrest.isWord_eq_false (by decide) (by decide)
      | some domain => rfl
    rw [FormulaParser.Consumes, hwords, append_assoc]
    refine (consumes_name t _).bind fun _ c' _ => .reads_bind (.accept_not hslash .done) ?_
    exact (hdomain c').bind fun d c'' _ => .of_reads (.register (by rfl) rest) ⟨rfl, trivial⟩

theorem consumes_output {d : DeclarationPhrase} (hd : d.Formed) (hpredicate : d.isPredicate = true) :
    FormulaParser.Consumes output c d.words rest fun _ _ => True := by
  cases d with
  | predicate t digits =>
    refine (consumes_name t (mark "/" :: (.number, digits) :: rest)).bind fun u c' _ => meets_arity? hd ?_
    exact .of_reads (.register (by rfl) rest) ⟨rfl, trivial⟩
  | constant t domain => cases hpredicate

theorem meets_declarations (c : FormulaContext) (rest : List Word) {one : FormulaParser Unit}
    {ds : List DeclarationPhrase} (hne : ds ≠ [])
    (hone : ∀ d ∈ ds, ∀ c rest, Ends 9 rest → FormulaParser.Consumes one c d.words rest fun _ _ => True)
    (hn : (StatementPhrase.listWords ds).length ≤ n) :
    Meets (declarations n one) c (StatementPhrase.listWords ds ++ rest) never fun _ _ vs => vs = rest := by
  have hcount := Token.length_le_length_joined (w := mark ",") (ds.map (·.words))
  rw [length_map] at hcount
  simp only [StatementPhrase.listWords, cons_append, length_cons, length_append,
    length_nil] at hn
  rw [StatementPhrase.listWords, cons_append, cons_append, append_assoc]
  refine .reads_bind (.accept_cons rfl .done) ?_
  refine (FormulaParser.consumes_oneOrMore (E := Ends 9) (R := fun _ _ _ _ => True) hone
    (fun _ _ => trivial) rfl
    (fun _ => Token.ends_cons (by decide)) (Token.ends_cons (by decide)) rfl hne (by omega)).bind fun _ c' _ => ?_
  exact .of_reads (.accept_cons rfl .done) rfl

theorem meets_direction {name : Option Text} (hname : ∀ t, name = some t → (Direction.ofText? t).isSome)
    {k : Direction → FormulaParser α} {E : Error → Prop} {Q : α → FormulaContext → List Word → Prop}
    (hk : ∀ d, Meets (k d) c ws E Q) :
    Meets (Parser.accept "(" >>= fun b => if b = true then direction >>= k else pure .both >>= k) c
      (StatementPhrase.directionWords (some name) ++ ws) E Q := by
  have hclose : ∀ d : Direction, Meets (do
      unless ← Parser.accept ")" do Parser.failHere .unmatchedParenthesis
      return d) c (mark ")" :: ws) E fun _ c' vs => c' = c ∧ vs = ws :=
    fun d => .accept_cons rfl (.pure ⟨rfl, rfl⟩)
  have hdirection : ∀ vs, StatementPhrase.directionWords (some name) ++ ws = mark "(" :: vs →
      Meets direction c vs E fun _ c' vs => c' = c ∧ vs = ws := by
    intro vs hvs
    cases name with
    | none =>
      obtain rfl : _ = vs := (List.cons.inj hvs).2
      exact .peek_cons fun _ => .ite_neg Bool.false_ne_true (.pure_bind (hclose _))
    | some t =>
      obtain rfl : _ = vs := (List.cons.inj hvs).2
      obtain ⟨d, hd⟩ := Option.isSome_iff_exists.mp (hname t rfl)
      refine .peek_cons fun _ => .ite_pos rfl ?_
      dsimp only
      rw [hd]
      exact .advance (.pure_bind (hclose d))
  obtain ⟨vs, hvs⟩ : ∃ vs, StatementPhrase.directionWords (some name) ++ ws = mark "(" :: vs := by
    cases name <;> exact ⟨_, rfl⟩
  rw [hvs]
  refine .accept_cons rfl (.ite_pos rfl ((hdirection vs hvs).bind fun d c' vs' h => ?_))
  obtain ⟨rfl, rfl⟩ := h
  exact hk d

/-- A statement is accepted if closed, and else refused with its free names. -/
theorem meets_statement (hs : s.Formed) (hadmissible : Admissible s.words)
    (hn : s.words.length ≤ n) : Meets (statement n) c (s.words ++ rest)
      (fun e => ∃ x, s.formula? = some x ∧ x.freeNames ≠ [] ∧ e = Fault.notClosed x.freeNames.eraseDups)
      fun _ _ vs => (∀ x, s.formula? = some x → x.freeNames = []) ∧ vs = rest := by
  cases s with
  | input ds =>
    obtain ⟨hne, hds⟩ := hs
    have hlist := meets_declarations c rest hne
      (fun d hd c rest hrest => consumes_input (hds d hd) hrest) (Nat.le_of_succ_le hn)
    refine .peek_cons fun _ => .ite_pos rfl (.ite_pos rfl (.advance ((hlist.mono_error fun _ h => h.elim).bind
      fun _ c' vs h => .pure ⟨(fun _ h => nomatch h), h⟩)))
  | output ds =>
    obtain ⟨hne, hds⟩ := hs
    have hlist := meets_declarations c rest hne
      (fun d hd c rest _ => consumes_output (hds d hd).1 (hds d hd).2) (Nat.le_of_succ_le hn)
    refine .peek_cons fun _ => .ite_pos rfl (.ite_neg Bool.false_ne_true (.ite_pos rfl
      (.advance ((hlist.mono_error fun _ h => h.elim).bind
        fun _ c' vs h => .pure ⟨(fun _ h => nomatch h), h⟩))))
  | formula keyword direction x =>
    obtain ⟨hx, kind, hkind, hdirection⟩ := hs
    have hwords : (StatementPhrase.formula keyword direction x).words ++ rest = (.identifier, keyword) ::
        (StatementPhrase.directionWords direction ++ mark ":" :: (x.words ++ mark "." :: rest)) := by
      simp [StatementPhrase.words]
    have hlength : x.words.length ≤ n := by
      refine Nat.le_trans ?_ hn
      simp only [StatementPhrase.words, cons_append, length_cons, length_append]
      omega
    have hxadmissible : Admissible x.words := by
      refine hadmissible.mono fun w hw => mem_append_left _ (mem_append_right _ ?_)
      exact mem_cons_of_mem _ hw
    have hne : ∀ {t : Text}, kindOf? t = none → ¬ (keyword == t) = true := by
      intro t ht heq
      rw [beq_iff_eq.mp heq, ht] at hkind
      cases hkind
    have hassertion : ∀ (d : Direction) (line : Nat), Meets (do
        colon
        let formula ← FormulaParser.closedFormula n
        terminator
        return some (⟨kind, d, formula, line⟩ : Item)) c (mark ":" :: (x.words ++ mark "." :: rest))
        (fun e => x.freeNames ≠ [] ∧ e = Fault.notClosed x.freeNames.eraseDups)
        fun _ _ vs => x.freeNames = [] ∧ vs = rest := by
      intro d line
      refine .reads_bind (.accept_cons rfl .done) ?_
      refine (FormulaParser.meets_closedFormula hx hxadmissible hlength (Token.ends_cons (by decide))).bind
        fun f c' vs h => ?_
      obtain ⟨hclosed, rfl, -⟩ := h
      exact .reads_bind (.accept_cons rfl .done) (.pure ⟨hclosed, rfl⟩)
    refine Meets.mono_error (Meets.mono (P := fun _ _ vs => x.freeNames = [] ∧ vs = rest)
      (E := fun e => x.freeNames ≠ [] ∧ e = Fault.notClosed x.freeNames.eraseDups) ?_
        fun _ _ _ h => ?_) fun e he => ?_
    · rw [hwords]
      refine .peek_cons fun position => .ite_pos rfl
        (.ite_neg (hne (by decide)) (.ite_neg (hne (by decide)) ?_))
      dsimp only
      rw [hkind]
      refine .advance ?_
      rcases hdirection with rfl | ⟨rfl, hname⟩
      · exact .ite (fun _ => .accept_not rfl (.ite_neg Bool.false_ne_true (.pure_bind (hassertion _ _))))
          fun _ => .pure_bind (hassertion _ _)
      · cases direction with
        | none => exact .ite_pos rfl (.accept_not rfl
            (.ite_neg Bool.false_ne_true (.pure_bind (hassertion _ _))))
        | some name => exact .ite_pos rfl (meets_direction (fun t ht => hname t (congrArg some ht))
            fun d => hassertion d _)
    · refine ⟨fun y hy => ?_, h.2⟩
      rw [← Option.some.inj hy]
      exact h.1
    · exact ⟨x, rfl, he⟩

/-- The first open formula after closed ones is refused. -/
theorem meets_statements {before : List StatementPhrase} {x : FormulaPhrase}
    (hbefore : ∀ s ∈ before, s.Formed ∧ Admissible s.words ∧ ∀ x, s.formula? = some x → x.freeNames = [])
    (hs : s.Formed) (hadmissible : Admissible s.words) (hx : s.formula? = some x) (hopen : x.freeNames ≠ [])
    (hn : (before.flatMap (·.words) ++ s.words).length ≤ n) {rounds : Nat}
      (hrounds : before.length < rounds) :
    Meets (statements n rounds) c (before.flatMap (·.words) ++ (s.words ++ rest))
      (· = Fault.notClosed x.freeNames.eraseDups) fun _ _ _ => False := by
  have hnotEnd : ∀ (s : StatementPhrase) (vs : List Word),
      ¬ ((first (s.words ++ vs)).1 == .endOfInput) = true := by
    intro s vs
    cases s <;> exact fun h => nomatch h
  induction before generalizing c rounds with
  | nil =>
    obtain ⟨rounds, rfl⟩ : ∃ m, rounds = m + 1 := Nat.exists_eq_succ_of_ne_zero (by omega)
    refine .atEnd (.ite_neg (hnotEnd s rest) (((meets_statement hs hadmissible hn).mono_error
      fun e he => ?_).bind
      fun _ _ _ h => absurd (h.1 x hx) hopen))
    obtain ⟨y, hy, -, rfl⟩ := he
    rw [hx] at hy
    rw [Option.some.inj hy]
  | cons s' before ih =>
    obtain ⟨rounds, rfl⟩ : ∃ m, rounds = m + 1 := Nat.exists_eq_succ_of_ne_zero (by omega)
    obtain ⟨⟨hs', hadmissible', hclosed⟩, hbefore⟩ := forall_mem_cons.mp hbefore
    rw [flatMap_cons, append_assoc] at hn ⊢
    rw [length_append] at hn
    refine .atEnd (.ite_neg (hnotEnd s' _) (((meets_statement hs' hadmissible' (by omega)).mono_error
      fun e he => ?_).bind fun item c' vs h => ?_))
    · obtain ⟨y, hy, hne, -⟩ := he
      exact absurd (hclosed y hy) hne
    · obtain ⟨-, rfl⟩ := h
      have hgo := ih (c := c') hbefore (by omega) (Nat.lt_of_succ_lt_succ hrounds)
      cases item with
      | none => exact hgo
      | some item => exact hgo.bind fun _ _ _ h => h.elim

end Specification.Grammar

/-- A specification that is read is spelled by its text. -/
theorem Specification.spelled_of_parse {r' : Registry} {s : Specification}
    (h : Returns (Specification.parse t) r s r') :
    ∃ ss ws, Token.Splits t ws ∧ Grammar.Spelled r' ss ws s.items := by
  obtain ⟨items, r'', hitems, hpure⟩ := Returns.bind_iff.mp h
  obtain ⟨rfl, rfl⟩ := Returns.pure_iff.mp hpure
  obtain ⟨us, vs, c, ht, rfl, rfl, ss, hss⟩ :=
    FormulaParser.passes_onText (p := fun n => Grammar.statements n n)
    (fun hws => Grammar.passes_statements hws hws) hitems
  rw [append_nil] at ht
  exact ⟨ss, us, ht, hss⟩

theorem Specification.fails_parse {before : List StatementPhrase}
    {x : FormulaPhrase} {rest : List Word} (r : Registry)
    (ht : Token.Splits t (before.flatMap (·.words) ++ (s.words ++ rest)))
    (hbefore : ∀ s ∈ before, s.Formed ∧ Admissible s.words ∧ ∀ x, s.formula? = some x → x.freeNames = [])
    (hs : s.Formed) (hadmissible : Admissible s.words) (hx : s.formula? = some x) (hopen : x.freeNames ≠ []) :
    ∃ r', Fails (Specification.parse t) r (Fault.notClosed x.freeNames.eraseDups) r' := by
  have hcount : before.length ≤ (before.flatMap (·.words)).length := by
    clear * -
    induction before with
    | nil => exact Nat.le_refl 0
    | cons s before ih =>
      have hpos := length_pos_iff.mpr s.words_ne_nil
      rw [flatMap_cons, length_append, length_cons]
      omega
  have hitems : ∃ r', Fails (FormulaParser.onText (fun n => Grammar.statements n n) t) r
      (Fault.notClosed x.freeNames.eraseDups) r' := by
    refine FormulaParser.fails_onText ht (Grammar.meets_statements hbefore hs hadmissible hx hopen ?_ ?_)
    · simp only [length_append]
      omega
    · simp only [length_append]
      omega
  obtain ⟨r', hfails⟩ := hitems
  exact ⟨r', Fails.bind_iff.mpr (.inl hfails)⟩

/-- Reading a formula makes declarations only. -/
theorem Registry.Declaring.parseFormula {R : Registry → Registry → Prop} (hR : Declaring R) (t : Text) :
    Always R (Formula.parse t) := hR.onText FormulaParser.passes_wholeFormula t

/-- Reading a specification makes declarations only. -/
theorem Registry.Declaring.parseSpecification {R : Registry → Registry → Prop} (hR : Declaring R) (t : Text) :
    Always R (Specification.parse t) :=
  Always.bind hR.trans (hR.onText (p := fun n => Specification.Grammar.statements n n)
    (fun hws => Specification.Grammar.passes_statements hws hws) t) fun _ => Always.pure hR.refl _

open FormulaParser (Spans) in
/-- Formulas that are read, on their own or in a specification, have proper scopes, and the first one
that is written with names that no quantifier lists is refused with these names. -/
theorem Formula.parse_scopes (t : Text) (r : Registry) :
    (∀ f r', Returns (Formula.parse t) r f r' →
      ∃ x ws, Token.Splits t ws ∧ Spans x ws ∧ x.Scopes r' f) ∧
    (∀ s r', Returns (Specification.parse t) r s r' →
      ∃ ss ws, Token.Splits t ws ∧ Specification.Grammar.Spelled r' ss ws s.items) ∧
    (∀ x ws, Token.Splits t ws → Spans x ws → x.Formed → Admissible x.words → x.freeNames ≠ [] →
      ∃ r', Fails (Formula.parse t) r (Fault.notClosed x.freeNames.eraseDups) r') ∧
    (∀ (before : List StatementPhrase) (s : StatementPhrase) x rest,
      Token.Splits t (before.flatMap (·.words) ++ (s.words ++ rest)) →
      (∀ s ∈ before, s.Formed ∧ Admissible s.words ∧ ∀ x, s.formula? = some x → x.freeNames = []) →
      s.Formed → Admissible s.words → s.formula? = some x → x.freeNames ≠ [] →
      ∃ r', Fails (Specification.parse t) r (Fault.notClosed x.freeNames.eraseDups) r') := by
  refine ⟨fun f r' h => ?_, fun s r' h => Specification.spelled_of_parse h,
    fun x ws ht hspans hx hadmissible hopen => ?_,
    fun before s x rest ht hbefore hs hadmissible hx hopen =>
      Specification.fails_parse r ht hbefore hs hadmissible hx hopen⟩
  · obtain ⟨us, vs, c, ht, rfl, rfl, -, x, hspans, hscopes⟩ :=
      FormulaParser.passes_onText FormulaParser.passes_wholeFormula h
    rw [append_nil] at ht
    exact ⟨x, us, ht, hspans, hscopes⟩
  · exact FormulaParser.fails_onText ht
      (FormulaParser.meets_wholeFormula hx hadmissible hopen hspans (Nat.le_succ _))

/-- The phrase of `p(X) <- q(Y, X)`. -/
def FormulaPhrase.openArrow : FormulaPhrase :=
  .impliedBy (.atom "p" [.variable "X"]) (.atom "q" [.variable "Y", .variable "X"])

/-- The phrase of `forall X p(X)`. -/
def FormulaPhrase.everything : FormulaPhrase := .quantified .universal [("X", 0)] (.atom "p" [.variable "X"])

/-- A specification with an open formula after a closed one. -/
def Specification.openLemma : Text := "input: p/1. axiom: forall X p(X). lemma(forward): p(X) <- q(Y, X)."

theorem Formula.parse_scopes_openArrow :
    (∃ f r', Returns (Formula.parse "forall X (p(X) and exists X (X > 1))") .empty f r' ∧ f.freeVariables = []) ∧
    (∃ s r', Returns (Specification.parse "axiom: forall X p(X).") .empty s r' ∧
      ∃ ss ws, Specification.Grammar.Spelled r' ss ws s.items) ∧
    (∃ r', Fails (Formula.parse "p(X) <- q(Y, X).") .empty (Fault.notClosed ["X", "Y"]) r') ∧
    ∃ r', Fails (Specification.parse Specification.openLemma) .empty (Fault.notClosed ["X", "Y"]) r' := by
  have hatom : ∀ (name : Text) (args : List Text), Token.IsIdentifier name →
      Token.isReserved (.identifier, name) = false → FormulaPhrase.Formed (.atom name (args.map .variable)) := by
    intro name args hname hreserved
    refine .atom hname hreserved fun t ht => ?_
    obtain ⟨arg, -, rfl⟩ := mem_map.mp ht
    exact .variable arg
  have hp : Token.IsIdentifier "p" := ⟨0x70, [], rfl, rfl, fun _ h => absurd h not_mem_nil⟩
  have hq : Token.IsIdentifier "q" := ⟨0x71, [], rfl, rfl, fun _ h => absurd h not_mem_nil⟩
  have harrow : FormulaPhrase.openArrow.Formed :=
    .impliedBy (hatom "p" ["X"] hp (by decide)) (hatom "q" ["Y", "X"] hq (by decide)) (by decide) (by decide)
  have heverything : FormulaPhrase.everything.Formed :=
    .quantified (hatom "p" ["X"] hp (by decide)) (by decide) (cons_ne_nil _ _) (by decide) (by decide)
  refine ⟨?_, ?_, ?_, ?_⟩
  · have hread : (outcome (Formula.parse "forall X (p(X) and exists X (X > 1))") .empty).1.toBool = true := by
      decide +kernel
    obtain ⟨f, r', hparse⟩ := Returns.of_toBool hread
    obtain ⟨x, -, -, -, hx⟩ := (Formula.parse_scopes _ _).1 f r' hparse
    exact ⟨f, r', hparse, hx.closed⟩
  · have hread : (outcome (Specification.parse "axiom: forall X p(X).") .empty).1.toBool = true := by
      decide +kernel
    obtain ⟨s, r', hparse⟩ := Returns.of_toBool hread
    obtain ⟨ss, ws, -, hss⟩ := (Formula.parse_scopes _ _).2.1 s r' hparse
    exact ⟨s, r', hparse, ss, ws, hss⟩
  · exact (Formula.parse_scopes _ _).2.2.1 FormulaPhrase.openArrow _ (Token.splits_of_tokenize (by decide +kernel)) (.inr rfl)
      harrow (by decide) (by decide)
  · refine (Formula.parse_scopes _ _).2.2.2 [.input [.predicate "p" "1"], .formula "axiom" none .everything]
      (.formula "lemma" (some (some "forward")) .openArrow) .openArrow [] (Token.splits_of_tokenize (by decide +kernel))
      (forall_mem_cons.mpr ⟨⟨⟨cons_ne_nil _ _, ?_⟩, by decide, fun _ h => nomatch h⟩,
        forall_mem_singleton.mpr ⟨⟨heverything, .axiomatic, by decide, .inl rfl⟩, by decide, fun x hx => ?_⟩⟩)
      ⟨harrow, .auxiliary, by decide, .inr ⟨rfl, fun name hname => ?_⟩⟩ (by decide) rfl (by decide)
    · have harity : Text.toNat "1" ≤ Specification.Grammar.maxArity := by decide
      exact forall_mem_singleton.mpr harity
    · rw [← Option.some.inj hx]
      rfl
    · rw [← Option.some.inj (Option.some.inj hname)]
      decide +kernel

end LogicProgram
