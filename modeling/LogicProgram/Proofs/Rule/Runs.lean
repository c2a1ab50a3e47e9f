import LogicProgram.Proofs.Rule.RereadTerm
import LogicProgram.Proofs.Token.Runs

/-!
# Reading rules side by side

Each parser of parts of rules takes the same steps with other bounds on nesting and
repetition and with the same words at other places.
-/

namespace LogicProgram.Rule

open List
open Token (mark isWord endWord Proper)
open LogicProgram.Parser (oneOf accept isAt oneOrMore advance peek attempt)
open LogicProgram.Setting (Same Loose)

variable {level : Nat} {external : Bool} {t : Text} {α : Type} {w : Word} {ts : List Term}

/-- The rule `k` lines further down. -/
def down (k : Nat) (r : Rule) : Rule := { r with line := r.line + k }

namespace Grammar

/-- The symbols after which a rule goes on with its body or ends. -/
def stops : List Text := List.map Text.ofString [".", ":-"]

/-- A word that may be part of a term. -/
def Inner (w : Word) : Prop := ∀ t ∈ stops, w ≠ mark t

theorem inner_of_isWord (ht : t ∉ stops) (h : isWord w t = true) : Inner w := by
  simp only [isWord, Bool.and_eq_true, beq_iff_eq] at h
  intro u hu hw
  rw [← h.2, hw] at ht
  exact ht hu

theorem inner_of_kind (h : w.1 ≠ .symbol) : Inner w := fun _ _ hw => h (congrArg Prod.fst hw)

/-- The setting in which terms are read that every word above a level ends. -/
def atLevel (S : Setting Unit) (level : Nat) : Setting Unit :=
  { S with
    passes := Inner, plain := True, near := True, looks := False
    ends := fun test => ∀ w, level < rank w → test w = false }

section Terms

variable {S : Setting Unit} {k m n n' : Nat} {T T' : RuleParser Term}

/-- A level is not ended by words of a lower rank. -/
theorem selects_atLevel {level : Nat} {ts : List Text} (hstops : ∀ t ∈ ts, t ∉ stops)
    (h : 0 < m ∨ ∀ t ∈ ts, rankOf t ≤ level) : (atLevel S level).Selects m (oneOf ts) where
  last := by
    rw [oneOf, if_neg]
    simp [isWord, endWord]
  passes := fun w b hw => by
    rw [oneOf] at hw
    split at hw
    · next hany =>
      obtain ⟨t, ht, hword⟩ := any_eq_true.mp hany
      exact inner_of_isWord (hstops t ht) hword
    · cases hw
  ends := h.imp_right fun h w hw => by
    show (oneOf ts w).isSome = false
    rw [oneOf, if_neg]
    · rfl
    · simp only [any_eq_true, not_exists, not_and, Bool.not_eq_true]
      exact fun t ht => @Closes.isWord_eq_false level [w] t hw (h t ht)

theorem selects_inner {ts : List Text} (hstops : ∀ t ∈ ts, t ∉ stops) :
    (atLevel S level).inner.Selects m (oneOf ts) :=
  have h := @selects_atLevel S 1 level ts hstops (.inl Nat.one_pos)
  ⟨h.last, h.passes, .inr trivial⟩

theorem separates_atLevel (hstop : t ∉ stops) (h : rankOf t ≤ level) :
    (atLevel S level).Separates (accept t) :=
  ⟨_, Parser.accept_eq t, selects_atLevel (by simpa using hstop) (.inr (by simpa using h))⟩

theorem separates_inner (hstop : t ∉ stops) : (atLevel S level).inner.Separates (accept t) :=
  ⟨_, Parser.accept_eq t, selects_inner (by simpa using hstop)⟩

/-- What every word above a level ends, every word above a higher level ends. -/
theorem atLevel_mono {p q : RuleParser α} {R : α → α → Prop} {level' : Nat} (hle : level ≤ level')
    (h : (atLevel S level).Runs k m p q R) : (atLevel S level').Runs k m p q R :=
  h.relax (fun _ h => h) id id (fun _ h w hw => h w (Nat.lt_of_le_of_lt hle hw)) id

/-- A word that is asked for is passed. -/
theorem runs_expect (hstop : t ∉ stops) :
    (atLevel S level).Gives k 1 (expect t) (expect t) fun _ => True :=
  .accept (selects_atLevel (by simpa using hstop) (.inl Nat.one_pos))
    (fun _ _ => .pure ⟨rfl, trivial⟩) fun _ _ _ =>
    .peek (.inl Nat.one_pos) fun _ _ _ _ _ _ _ => .failHere nofun

/-- A term is formed if it was read from the words of a text. -/
def Read (S : Setting Unit) (t : Term) : Prop := (∀ u, S.sound u → Proper u.word) → t.Parsed

/-- A term without parts was read if it is formed. -/
theorem read_leaf {t : Term} (h : t.subterms = [t])
    (ht : (∀ u, S.sound u → Proper u.word) → t.Formed) : Read S t := by
  intro hS
  rw [Term.Parsed, h]
  exact forall_mem_singleton.mpr (ht hS)

theorem read_tuple (hne : ts ≠ []) (hts : ∀ t ∈ ts, Read S t) : Read S (tuple ts) := by
  intro hS
  cases ts with
  | nil => exact absurd rfl hne
  | cons t ts =>
    cases ts with
    | nil => exact hts t mem_cons_self hS
    | cons u ts =>
      exact Term.forall_subterms_function.mpr
        ⟨⟨rfl, Nat.le_add_left 2 ts.length⟩, fun v hv => hts v hv hS⟩

theorem read_pool {t u : Term} (hts : ∀ v ∈ t :: u :: ts, Read S v) :
    Read S (.pool (t :: u :: ts)) := fun hS =>
  Term.forall_subterms_pool.mpr ⟨Nat.le_add_left 2 ts.length, fun v hv => hts v hv hS⟩

theorem read_unary {op : UnaryOperator} {t : Term} (hop : op ≠ .minus) (ht : Read S t) :
    Read S (.unary op t) :=
  fun hS => Term.forall_subterms_unary.mpr ⟨by cases op with | minus => exact absurd rfl hop | _ =>
    trivial, ht hS⟩

theorem read_binary (op : Operator) {left right : Term} (hl : Read S left) (hr : Read S right) :
    Read S (.binary op left right) := fun hS =>
      Term.forall_subterms_binary.mpr ⟨trivial, hl hS, hr hS⟩

/-- A term after minus was read. -/
theorem read_negate {t : Term} (ht : Read S t) : Read S (negate t) := by
  cases t with
  | number n =>
    refine read_leaf rfl fun hS => ?_
    have hn : n.natAbs ≤ maxNumber := ht hS _ mem_cons_self
    show (-n).natAbs ≤ maxNumber
    rwa [Int.natAbs_neg]
  | _ => exact fun hS => Term.forall_subterms_unary.mpr ⟨fun n h => (nomatch h), ht hS⟩

/-- Powers of terms that were read. -/
theorem read_joinPowers (hts : ∀ t ∈ ts, Read S t) : Read S (joinPowers ts) := by
  induction ts with
  | nil => exact read_leaf rfl fun _ => trivial
  | cons t ts ih =>
    obtain ⟨ht, hts⟩ := forall_mem_cons.mp hts
    cases ts with
    | nil => exact ht
    | cons u ts => exact read_binary .power ht (ih hts)

/-- Arguments of a function are formed, and a tuple is not the only one. -/
structure Arguments (S : Setting Unit) (args : List Term) : Prop where
  read : ∀ t ∈ args, Read S t
  /-- A single one is no tuple. -/
  single : (∀ u, S.sound u → Proper u.word) → ∀ arg, args = [arg] → arg.isTuple = false

theorem arguments_nil : Arguments S [] := ⟨nofun, fun _ _ h => nomatch h⟩

theorem arguments_singleton {t : Term} (h : Read S t) (ht : t.isTuple = false) :
    Arguments S [t] := by
  refine ⟨forall_mem_singleton.mpr h, fun _ arg harg => ?_⟩
  rwa [← head_eq_of_cons_eq harg]

/-- The components of a tuple, of which there are several. -/
theorem arguments_of_tuple {args : List Term} (h : Read S (.function external [] args)) :
    Arguments S args := by
  refine ⟨fun t ht hS => (Term.forall_subterms_function.mp (h hS)).2 t ht, fun hS arg harg => ?_⟩
  obtain ⟨⟨-, hlength⟩, -⟩ := Term.forall_subterms_function.mp (h hS)
  rw [harg, length_singleton] at hlength
  omega

/-- A function with arguments that were read. -/
theorem read_function {name : Text} {args : List Term}
    (hname : (∀ u, S.sound u → Proper u.word) → Token.IsIdentifier name)
    (hnot : external = false → name ≠ "not") (hargs : Arguments S args) :
    Read S (.function external name args) := by
  refine fun hS => Term.forall_subterms_function.mpr ⟨?_, fun t ht => hargs.read t ht hS⟩
  obtain ⟨b, r, rfl, h⟩ := hname hS
  exact ⟨⟨b, r, rfl, h⟩, hnot, hargs.single hS⟩

/-- Terms with semicolons and commas between them. -/
theorem runs_alternatives (hT : (atLevel S 4).Gives k 1 T T' (Read S)) (hn : k < n) (hn' : k < n') :
    (atLevel S 0).inner.Gives k 0 (alternatives n T) (alternatives n' T')
      fun ts => ts ≠ [] ∧ ∀ t ∈ ts, Read S t := by
  have hT : (atLevel S 0).inner.Gives k 0 T T' (Read S) := hT.toInner.weaken
  exact .oneOrMore (separates_inner (by decide))
    ((hT.oneOrMore (separates_inner (by decide)) hn hn').map fun _ h => read_tuple h.1 h.2) hn hn'

section Brackets

variable (hT : ∀ j < k, (atLevel S 4).Gives j 1 T T' (Read S)) (hn : k < n) (hn' : k < n')

include hT hn hn'

/-- The arguments of a function, if there are any. -/
theorem runs_arguments : (atLevel S 0).Gives k 0 (arguments n T) (arguments n' T')
    (Arguments S) := by
  refine .accept (selects_atLevel (by decide) (.inr (by decide))) (fun j hj => ?_)
    fun _ _ _ => .pure ⟨rfl, arguments_nil⟩
  -- A closing bracket is passed in any case.
  refine Setting.RunsAt.weaken (m := 1) ?_
  refine .accept (selects_atLevel (by decide) (.inl Nat.one_pos))
    (fun _ _ => .pure ⟨rfl, arguments_nil⟩) fun _ _ _ => ?_
  refine .inner_bind trivial (runs_alternatives (hT j hj) (by omega) (by omega)) Nat.one_pos
    fun ts hts =>
    (runs_expect (by decide)).first fun _ _ => ?_
  obtain ⟨hne, hts⟩ := hts
  split
  · exact .pure ⟨rfl, arguments_of_tuple (hts _ mem_cons_self)⟩
  · next t htuple =>
    refine .pure ⟨rfl, arguments_singleton (hts t mem_cons_self) ?_⟩
    cases t with
    | function external name args =>
      cases name with
      | nil => exact (htuple external args rfl).elim
      | cons b r => rfl
    | _ => rfl
  · next hone =>
    cases ts with
    | nil => exact absurd rfl hne
    | cons t ts =>
      cases ts with
      | nil => exact (hone t rfl).elim
      | cons u ts => exact .pure ⟨rfl, arguments_singleton (read_pool hts) rfl⟩

/-- A name and its arguments. -/
theorem runs_application {name : Text}
    (hname : (∀ u, S.sound u → Proper u.word) → Token.IsIdentifier name)
    (hnot : external = false → name ≠ "not") :
    (atLevel S 0).RunsAt (·.word = (.identifier, name)) k 1
      (do advance; return Term.function external name (← arguments n T))
      (do advance; return Term.function external name (← arguments n' T')) (Same (Read S)) := by
  refine .advance nofun (inner_of_kind nofun) fun j hj => ?_
  exact (runs_arguments (fun i hi => hT i (by omega)) (by omega) (by omega)).bind_same
    fun args hargs =>
    .pure ⟨rfl, read_function hname hnot hargs⟩

/-- The terms that start with a symbol. -/
theorem runs_bracketed : (atLevel S 0).Gives k 1 (bracketed n T) (bracketed n' T') (Read S) := by
  refine .accept (selects_atLevel (by decide) (.inl Nat.one_pos)) (fun j hj => ?_) fun _ _ _ => ?_
  · refine Setting.RunsAt.weaken (m := 1) ?_
    refine .peek (.inl Nat.one_pos) fun kind value x x' _ _ hsound => .ite (fun h => ?_) fun _ => ?_
    · obtain rfl : kind = .identifier := beq_iff_eq.mp h
      exact runs_application (fun i hi => hT i (by omega)) (by omega) (by omega)
        (fun hS => hS _ (hsound nofun))
        fun h => nomatch h
    · exact .failHere_bind nofun
  refine .accept (selects_atLevel (by decide) (.inl Nat.one_pos)) (fun j hj => ?_) fun _ _ _ => ?_
  · refine .weaken (.inner_bind trivial (hT j hj).toInner.weaken Nat.one_pos fun t ht =>
      (runs_expect (by decide)).first fun _ _ => .pure ⟨rfl, read_unary nofun ht⟩)
  refine .accept (selects_atLevel (by decide) (.inl Nat.one_pos)) (fun j hj => ?_) fun _ _ _ => ?_
  · refine .weaken (.inner_bind trivial (runs_alternatives (hT j hj) (by omega)
      (by omega)) Nat.one_pos fun ts hts =>
      (runs_expect (by decide)).first fun _ _ => ?_)
    obtain ⟨hne, hts⟩ := hts
    split
    · exact .pure ⟨rfl, hts _ mem_cons_self⟩
    · next hone =>
      cases ts with
      | nil => exact absurd rfl hne
      | cons t ts =>
        cases ts with
        | nil => exact (hone t rfl).elim
        | cons u ts => exact .pure ⟨rfl, read_pool hts⟩
  · exact .peek (.inl Nat.one_pos) fun _ _ _ _ _ _ _ => .failHere nofun

/-- The primary terms, of which each starts with another word. -/
theorem runs_primary : (atLevel S 0).Gives k 1 (primary n T) (primary n' T') (Read S) := by
  have hleaf : ∀ {kind : Token.Kind} {value : Text} {t : Term}, kind ≠ .endOfInput →
      kind ≠ .symbol → Read S t →
      (atLevel S 0).RunsAt (·.word = (kind, value)) k 1 (do advance; return t)
        (do advance; return t)
        (Same (Read S)) := fun hend hsymbol ht =>
    .advance hend (inner_of_kind hsymbol) fun _ _ => .pure ⟨rfl, ht⟩
  refine .peek (.inl Nat.one_pos) fun kind value x x' _ hagree hsound => ?_
  cases kind with
  | symbol | endOfInput => exact (runs_bracketed hT hn hn').anywhere _
  | number =>
    refine .advance nofun (inner_of_kind nofun) fun j hj => .ite (fun _ => ?_)
      fun hle => .pure ⟨rfl, read_leaf rfl fun _ => Nat.not_lt.mp hle⟩
    refine (Setting.RunsAt.throw (R := Same fun _ => False) (fun h => ?_) (fun h => ?_)
      fun h => ?_).bind_same fun _ h => h.elim
    · exact nomatch h
    · exact nomatch h
    · rw [Token.mk.inj (h _ _ hagree) |>.2.2]
  | string => exact hleaf nofun nofun (read_leaf rfl fun _ => trivial)
  | «variable» => exact hleaf nofun nofun (read_leaf rfl fun hS => hS _ (hsound nofun))
  | directive =>
    exact .ite (fun _ => hleaf nofun nofun (read_leaf rfl fun _ => trivial)) fun _ =>
      .ite (fun _ => hleaf nofun nofun (read_leaf rfl fun _ => trivial)) fun _ => .failHere nofun
  | identifier =>
    refine .ite (fun _ => .failHere nofun) fun hnot => ?_
    exact runs_application hT hn hn' (fun hS => hS _ (hsound nofun))
      fun _ h => hnot (beq_iff_eq.mpr h)

/-- A primary term after unary operators, in enough rounds. -/
theorem runs_unary {rounds rounds' : Nat} (hk : k < rounds) (hk' : k < rounds') :
    (atLevel S 0).Gives k 1 (unary n T rounds) (unary n' T' rounds') (Read S) := by
  induction rounds generalizing k rounds' with
  | zero => exact absurd hk (Nat.not_lt_zero k)
  | succ rounds ih =>
    obtain _ | rounds' := rounds'
    · exact absurd hk' (Nat.not_lt_zero k)
    have hoperand : ∀ {g : Term → Term}, (∀ t, Read S t → Read S (g t)) → ∀ j < k,
        (atLevel S 0).Gives j 0
        (do return g (← unary n T rounds)) (do return g (← unary n' T' rounds')) (Read S) :=
          fun hg j hj =>
      (ih (fun i hi => hT i (by omega)) (by omega) (by omega) (by omega)
        (by omega)).weaken.bind_same fun t ht => .pure ⟨rfl, hg t ht⟩
    refine .accept (selects_atLevel (by decide) (.inl Nat.one_pos)) (hoperand fun _ => read_negate)
      fun _ _ _ => ?_
    refine .accept (selects_atLevel (by decide) (.inl Nat.one_pos))
      (hoperand fun _ => read_unary nofun) fun _ _ _ => ?_
    exact runs_primary hT hn hn'

theorem runs_power : (atLevel S 1).Gives k 1 (power n T) (power n' T') (Read S) :=
  ((atLevel_mono (Nat.zero_le 1) (runs_unary hT hn hn' hn hn')).oneOrMore
    (separates_atLevel (by decide) (by decide)) hn
    hn').map fun _ h => read_joinPowers h.2

end Brackets

/-- Operators combine terms that were read. -/
theorem combines_operator {ops : List Operator}
    (hops : ∀ op ∈ ops, op.text ∉ stops ∧ rankOf op.text ≤ level) :
    (atLevel S level).Combines (acceptOperator ops) (Read S) := by
  refine ⟨fun w => (ops.find? fun op => isWord w op.text).map
    fun op => some (.binary op), ?_, ⟨?_, ?_, ?_⟩, ?_⟩
  · refine congrArg (peek >>= ·) (funext fun t => ?_)
    simp only [Token.is_eq]
    cases ops.find? fun op => isWord t.word op.text <;> rfl
  · rw [Option.map_eq_none_iff, find?_eq_none]
    exact fun op _ => Bool.false_ne_true
  · intro w a hw
    obtain ⟨op, hop, -⟩ := Option.map_eq_some_iff.mp hw
    have hword := find?_some hop
    exact inner_of_isWord (hops op (mem_of_find?_eq_some hop)).1 hword
  · refine .inr fun w hw => ?_
    simp only [Option.isSome_map, Option.isSome_eq_false_iff, Option.isNone_iff_eq_none,
      find?_eq_none]
    intro op hop
    exact Bool.eq_false_iff.mp (@Closes.isWord_eq_false level [w] op.text hw (hops op hop).2)
  · intro w combine hw a b ha hb
    obtain ⟨op, -, hop⟩ := Option.map_eq_some_iff.mp hw
    obtain rfl := Option.some.inj hop
    exact read_binary op ha hb

/-- A layer of operators that group to the left. -/
theorem runs_chain {p p' : RuleParser Term} {ops : List Operator} {level' : Nat}
    (hp : (atLevel S level).Gives k 1 p p' (Read S)) (hlevel : level ≤ level')
    (hops : ∀ op ∈ ops, op.text ∉ stops ∧ rankOf op.text ≤ level') (hn : k < n) (hn' : k < n') :
    (atLevel S level').Gives k 1 (do Parser.chainLeft p (acceptOperator ops) n (← p))
      (do Parser.chainLeft p' (acceptOperator ops) n' (← p')) (Read S) :=
  (atLevel_mono hlevel hp).first fun _ ht => .chainLeft (combines_operator hops)
    (atLevel_mono hlevel hp) hn hn' ht

/-- A sum, or an interval between two sums. -/
theorem runs_intervalOrSum (hT : ∀ j < k, (atLevel S 4).Gives j 1 T T' (Read S)) (hn : k < n)
    (hn' : k < n') :
    (atLevel S 4).Gives k 1 (intervalOrSum n T) (intervalOrSum n' T') (Read S) := by
  have hadditive : (atLevel S 4).Gives k 1 (additive n T) (additive n' T') (Read S) :=
    atLevel_mono (Nat.le_succ 3) (runs_chain (runs_chain (runs_power hT hn hn') (Nat.le_succ 1)
      (by decide) hn hn')
      (Nat.le_succ 2) (by decide) hn hn')
  refine hadditive.first fun lower hl => .accept (selects_atLevel (by decide) (.inr (by decide)))
    (fun j hj => ?_)
    fun _ _ _ => .pure ⟨rfl, hl⟩
  refine (hadditive.shrink (Nat.le_of_lt hj)).weaken.bind_same fun upper hu => .pure ⟨rfl, ?_⟩
  exact fun hS => Term.forall_subterms_interval.mpr ⟨trivial, hl hS, hu hS⟩

/-- A term is read the same with other bounds and at other places. -/
theorem runs_term {d d' : Nat} (hd : k < d) (hd' : k < d') (hn : k < n) (hn' : k < n') :
    (atLevel S 4).Gives k 1 (term n d) (term n' d') (Read S) := by
  induction d generalizing k d' with
  | zero => exact absurd hd (Nat.not_lt_zero k)
  | succ d ih =>
    obtain _ | d' := d'
    · exact absurd hd' (Nat.not_lt_zero k)
    exact runs_intervalOrSum (fun j hj => ih (by omega) (by omega) (by omega) (by omega)) hn hn'

end Terms

/-- The relation that a word spells. -/
def comparisonOf (w : Word) : Option (Option Comparison) :=
  (comparison? ⟨w.1, w.2, .unknown⟩).map some

theorem acceptComparison_eq : acceptComparison = Parser.select comparisonOf none := by
  refine congrArg (peek >>= ·) (funext fun t => ?_)
  rw [comparisonOf, show comparison? ⟨t.word.1, t.word.2, .unknown⟩ = comparison? t from rfl]
  cases comparison? t <;> rfl

/-- A comparison does not end a rule. -/
theorem inner_of_comparisonOf {o : Option Comparison} (h : comparisonOf w = some o) : Inner w := by
  intro t ht hw
  have hstops : ∀ t ∈ stops, comparisonOf (mark t) = none := by decide
  rw [hw, hstops t ht] at h
  cases h

section Rules

variable {S : Setting Unit} {k n n' : Nat}

/-- The bound before a choice ends before a rule goes on or ends. -/
theorem runs_leftGuard (hn : k < n) (hn' : k < n') :
    (atLevel S 4).inner.Gives k 0 (leftGuard n) (leftGuard n')
    fun g => ∀ guard ∈ g, Read S guard.term := by
  have hisAt : (atLevel S 4).inner.Gives k 0 (isAt "\x7b") (isAt "\x7b") fun _ => True :=
    .peek (.inr trivial) fun _ _ _ _ _ _ _ => .pure ⟨rfl, trivial⟩
  have hcomparison : (atLevel S 4).inner.Selects 0 comparisonOf :=
    ⟨rfl, fun _ _ => inner_of_comparisonOf, .inr trivial⟩
  refine (runs_term hn hn' hn hn').toInner.weaken.bind_same fun t ht => ?_
  have hbound : ∀ op, ∀ guard ∈ some (⟨op, t⟩ : Guard), Read S guard.term := by
    intro op guard h
    obtain rfl := Option.some.inj h
    exact ht
  refine hisAt.bind_same fun _ _ => .ite (fun _ => .pure ⟨rfl, hbound _⟩) fun _ => ?_
  rw [acceptComparison_eq]
  refine .select hcomparison (fun w o hw j hj => ?_) fun _ _ _ => .pure ⟨rfl, nofun⟩
  cases o with
  | none => exact .pure ⟨rfl, nofun⟩
  | some op =>
    exact (hisAt.shrink (Nat.le_of_lt hj)).bind_same fun _ _ =>
      .ite (fun _ => .pure ⟨rfl, hbound op⟩) fun _ => .pure ⟨rfl, nofun⟩

/-- How a rule begins: as a constraint, as a choice after its left bound, or with literals. -/
def opening (n : Nat) : RuleParser (Option (Option (Option Guard))) := do
  if ← isAt ":-" then return none
  if ← isAt "\x7b" then return some (some none)
  return some ((← attempt (leftGuard n)).map some)

/-- The literals of a head. -/
def disjuncts (n : Nat) : RuleParser Head := do
  match ← oneOrMore (conditionalLiteral n) acceptDisjunctSeparator n with
  | [⟨l, []⟩] => return .literal l
  | elements => return .disjunction elements

/-- The head and the body of a rule after its beginning. -/
def parts (n : Nat) (o : Option (Option (Option Guard))) :
    RuleParser (Head × List BodyLiteral) := do
  let h ← o.elim (pure constraintHead) (·.elim (disjuncts n) (choice n))
  if ← accept ":-" then return (h, ← body n)
  return (h, [])

/-- The rule after its beginning. -/
def ending (n line : Nat) (o : Option (Option (Option Guard))) : RuleParser Rule := do
  let x ← parts n o
  expect "."
  return ⟨x.1, x.2, line⟩

/-- A rule is an opening, which tells the kind of its head, and the rest. -/
theorem rule_eq (n : Nat) : rule n = peek >>= fun t => if isForeignDirective t then
    failHere ("directive #" ++ t.value ++ " is not supported") else opening n >>= ending n
      t.position.line := by
  have hparts : ∀ line o, ending n line o = o.elim (pure constraintHead)
      (·.elim (disjuncts n) (choice n)) >>= fun h => do
      let b ← do
        if ← accept ":-" then body n else pure []
      expect "."
      return ⟨h, b, line⟩ := by
    intro line o
    rw [ending, parts, bind_assoc]
    refine congrArg (Option.elim o _ _ >>= ·) (funext fun h => ?_)
    rw [bind_assoc]
    refine congrArg (accept ":-" >>= ·) (funext fun b => ?_)
    cases b with
    | false => rfl
    | true => exact bind_assoc (body n) _ _
  refine congrArg (peek >>= ·) (funext fun t => ?_)
  suffices hopening : ∀ f : Head → RuleParser Rule,
      (isAt ":-" >>= fun b => if b then f constraintHead else head n >>= f) =
      opening n >>= fun o => Option.elim o (pure constraintHead)
        (·.elim (disjuncts n) (choice n)) >>= f by
    rw [funext (hparts _), ← hopening]
    split <;> rfl
  intro f
  rw [opening, bind_assoc]
  refine congrArg (isAt ":-" >>= ·) (funext fun b => ?_)
  cases b with
  | true => rfl
  | false =>
    refine (bind_assoc _ _ f).trans (Eq.trans ?_ (bind_assoc (isAt "\x7b") _ _).symm)
    refine congrArg (isAt "\x7b" >>= ·) (funext fun b => ?_)
    cases b with
    | true => rfl
    | false =>
      refine (bind_assoc _ _ f).trans (Eq.trans ?_ (bind_assoc (attempt (leftGuard n)) _ _).symm)
      refine congrArg (attempt (leftGuard n) >>= ·) (funext fun o => ?_)
      cases o <;> rfl

/-- The same rule, read at places that agree. -/
structure Twin (S : Setting Unit) (r r' : Rule) : Prop where
  head : r'.head = r.head
  body : r'.body = r.body
  /-- The lines are those of tokens that agree. -/
  line : ∃ t t', S.agree t t' ∧ r.line = t.position.line ∧ r'.line = t'.position.line
  read : ∀ t ∈ r.terms, Read S t

section Loose

variable (hS : S.Loose)

include hS

theorem runs_expect_loose (t : Text) : S.Gives k 1 (expect t) (expect t) fun _ => True :=
  .accept (hS.selects rfl) (fun _ _ => .pure ⟨rfl, trivial⟩) fun _ _ _ =>
    .peek (.inr hS.looks) fun _ _ _ _ _ _ _ => .failHere nofun

theorem runs_acceptComparison : S.Gives k 0 acceptComparison acceptComparison fun _ => True := by
  rw [acceptComparison_eq, ← bind_pure (Parser.select _ _)]
  exact .select (hS.selects rfl) (fun _ _ _ _ _ => .pure ⟨rfl, trivial⟩)
    fun _ _ _ => .pure ⟨rfl, trivial⟩

theorem runs_sign : S.Gives k 0 sign sign fun _ => True :=
  (hS.accept _).bind_same fun _ _ => .ite (fun _ => (hS.accept _).bind_same fun _ _ =>
    .ite (fun _ => .pure ⟨rfl, trivial⟩) fun _ => .pure ⟨rfl, trivial⟩)
      fun _ => .pure ⟨rfl, trivial⟩

variable (hn : k < n) (hn' : k < n')

include hn hn'

/-- Terms, where anything may come after them. -/
theorem runs_term_loose : S.Gives k 1 (term n n) (term n' n') (Read S) :=
  (runs_term hn hn' hn hn').relax (fun w _ => hS.passes w) (fun _ => trivial) (fun _ => trivial)
    (fun test _ => hS.ends test) False.elim

theorem runs_atom : S.Gives k 1 (atom n) (atom n') fun a => ∀ t ∈ a.terms, Read S t := by
  have hboolean : ∀ {kind : Token.Kind} {value : Text} {b : Bool} {c : Bool},
      (kind == .directive && c) = true →
      S.RunsAt (·.word = (kind, value)) k 1 (do advance; return Atom.boolean b)
        (do advance; return Atom.boolean b) (Same fun a => ∀ t ∈ a.terms, Read S t) := by
    intro kind value b c h
    obtain rfl := beq_iff_eq.mp (Bool.and_eq_true_iff.mp h).1
    exact .advance nofun (hS.passes _) fun _ _ => .pure ⟨rfl, nofun⟩
  refine .peek (.inr hS.looks) fun kind value x x' _ _ _ => .ite hboolean fun _ => .ite hboolean
    fun _ => ?_
  refine ((runs_term_loose hS hn hn').first fun left hl => (runs_acceptComparison hS).bind_same
    fun o _ => ?_).anywhere _
  cases o with
  | none => exact .pure ⟨rfl, forall_mem_singleton.mpr hl⟩
  | some op =>
    exact (runs_term_loose hS hn hn').weaken.bind_same fun right hr =>
      .pure ⟨rfl, forall_mem_cons.mpr ⟨hl, forall_mem_singleton.mpr hr⟩⟩

theorem runs_literal : S.Gives k 1 (literal n) (literal n') fun l => ∀ t ∈ l.terms, Read S t :=
  (runs_sign hS).bind_same fun _ _ => (runs_atom hS hn hn').first fun _ ha => .pure ⟨rfl, ha⟩

omit hS in
/-- The terms of parts are formed if those of each part are. -/
theorem runs_all {p p' : RuleParser α} {terms : α → List Term} {more : RuleParser Bool}
    (hp : S.Gives k 1 p p' fun a => ∀ t ∈ terms a, Read S t) (hmore : S.Separates more) :
    S.Gives k 1 (oneOrMore p more n) (oneOrMore p' more n')
      fun as => ∀ t ∈ as.flatMap terms, Read S t := by
  refine (hp.oneOrMore hmore hn hn').mono (Nat.le_refl 1) fun as _ h => ⟨h.1, fun t ht => ?_⟩
  obtain ⟨a, ha, ht⟩ := mem_flatMap.mp ht
  exact h.2.2 a ha t ht

theorem runs_literals : S.Gives k 1 (oneOrMore (literal n) (accept ",") n)
    (oneOrMore (literal n') (accept ",") n') fun ls => ∀ t ∈ ls.flatMap (·.terms), Read S t :=
  runs_all hn hn' (runs_literal hS hn hn') (hS.separates _)

theorem runs_conditionalLiteral : S.Gives k 1 (conditionalLiteral n) (conditionalLiteral n')
    fun l =>
    ∀ t ∈ l.terms, Read S t := by
  refine (runs_literal hS hn hn').first fun l hl => (hS.accept _).bind_same fun _ _ => .ite
    (fun _ => ?_) fun _ => ?_
  · exact (runs_literals hS hn hn').weaken.bind_same
      fun ls hls => .pure ⟨rfl, forall_mem_append.mpr ⟨hl, hls⟩⟩
  · exact .pure ⟨rfl, forall_mem_append.mpr ⟨hl, nofun⟩⟩

theorem runs_rightGuard : S.Gives k 0 (rightGuard n) (rightGuard n')
    fun g => ∀ guard ∈ g, Read S guard.term := by
  have hbound : ∀ op, S.Gives k 0 (do return some (⟨op, ← term n n⟩ : Guard))
      (do return some ⟨op, ← term n' n'⟩)
      fun g => ∀ guard ∈ g, Read S guard.term := by
    refine fun op => (runs_term_loose hS hn hn').weaken.bind_same
      fun t ht => .pure ⟨rfl, fun guard h => ?_⟩
    obtain rfl := Option.some.inj h
    exact ht
  refine (runs_acceptComparison hS).bind_same fun o _ => ?_
  cases o with
  | some op => exact hbound op
  | none =>
    exact .peek (.inr hS.looks) fun _ _ _ _ _ _ _ => .ite (fun _ => (hbound _).anywhere _)
      fun _ => .pure ⟨rfl, nofun⟩

/-- The elements of a choice and the guard after them. -/
theorem runs_choice {left : Option Guard} (hleft : ∀ guard ∈ left, Read S guard.term) :
    S.Gives k 0 (choice n left) (choice n' left) fun h => ∀ t ∈ h.terms, Read S t := by
  have hrest : ∀ elements : List ConditionalLiteral, (∀ t ∈ elements.flatMap (·.terms), Read S t) →
      S.Gives k 0 (do
        expect "\x7d"
        return .choice left (← rightGuard n) elements) (do
        expect "\x7d"
        return .choice left (← rightGuard n') elements)
          fun h : Head => ∀ t ∈ h.terms, Read S t := by
    refine fun elements helements => (runs_expect_loose hS _).weaken.bind_same fun _ _ =>
      (runs_rightGuard hS hn hn').bind_same fun right hright =>
        .pure ⟨rfl, forall_mem_append.mpr ⟨fun t ht => ?_, helements⟩⟩
    obtain ⟨guard, hguard, rfl⟩ := mem_map.mp ht
    rcases mem_append.mp hguard with hguard | hguard
    · exact hleft guard (Option.mem_toList.mp hguard)
    · exact hright guard (Option.mem_toList.mp hguard)
  refine (runs_expect_loose hS _).weaken.bind_same fun _ _ => (hS.isAt _).bind_same fun _ _ => .ite
    (fun _ => ?_) fun _ => ?_
  · exact hrest [] nofun
  · exact (runs_all hn hn' (runs_conditionalLiteral hS hn hn')
      (hS.separates _)).weaken.bind_same hrest

omit hn in
/-- Braces are passed in enough rounds. -/
theorem runs_skipBraces (hn : k < n) (depth : Nat) :
    S.Gives k 0 (skipBraces n depth) (skipBraces n' depth) fun _ => True := by
  induction n generalizing k n' depth with
  | zero => exact absurd hn (Nat.not_lt_zero k)
  | succ n ih =>
    obtain _ | n' := n'
    · exact absurd hn' (Nat.not_lt_zero k)
    refine .next (.inr hS.looks) fun kind value x x' _ => ?_
    by_cases hend : kind = .endOfInput
    · subst hend
      refine Setting.RunsAt.anywhere (hS.advance.bind_same fun _ _ => ?_) _
      exact .ite (fun _ => .failHere nofun) fun h => absurd rfl h
    · refine .advance hend (hS.passes _) fun j hj => ?_
      have hrest : ∀ depth, S.Gives j 0 (skipBraces n depth) (skipBraces n' depth) fun _ => True :=
        fun depth => ih (by omega) (by omega) depth
      refine .ite (fun _ => .failHere nofun) fun _ => .ite (fun _ => hrest _) fun _ => .ite
        (fun _ => ?_) fun _ => hrest _
      cases depth with
      | zero => exact .pure ⟨rfl, trivial⟩
      | succ depth => exact hrest depth

/-- An aggregate is passed over. -/
theorem runs_bodyAggregate : S.Gives k 1 (bodyAggregate n) (bodyAggregate n')
    fun e => ∃ function, e = .aggregate function := by
  refine .next (.inr hS.looks) fun kind value x x' _ => ?_
  refine (hS.advance.bind_same fun _ _ => (runs_expect_loose hS _).first fun _ _ =>
    (runs_skipBraces hS (Nat.lt_succ_of_lt hn') (Nat.lt_succ_of_lt hn) _).bind_same fun _ _ =>
      (runs_acceptComparison hS).bind_same fun o _ => .ite (fun _ => ?_)
        fun _ => .pure ⟨rfl, _, rfl⟩).anywhere _
  exact (runs_term_loose hS hn hn').weaken.bind_same fun _ _ => .pure ⟨rfl, _, rfl⟩

omit hn hn' in
/-- A word that is known to be a negation is passed before the rest. -/
theorem runs_negated {f g : Sign → RuleParser α} {R : α → α → Prop}
    (hf : ∀ sign, S.Runs k 1 (f sign) (g sign) R) :
    S.RunsAt (·.is "not") k 2 (sign >>= f) (sign >>= g) R := by
  have hsign : ∀ f : Sign → RuleParser α, sign >>= f = accept "not" >>= fun b => if b then
      accept "not" >>= fun c => if c then f .doublyNegated else f .negated else f .plain := by
    intro f
    rw [sign, bind_assoc]
    refine congrArg (accept "not" >>= ·) (funext fun b => ?_)
    cases b with
    | false => rfl
    | true =>
      refine (bind_assoc _ _ _).trans (congrArg (accept "not" >>= ·) (funext fun c => ?_))
      cases c <;> rfl
  rw [hsign, hsign]
  refine .accept (hS.selects rfl) (fun j hj => ?_) fun u hu hnot => ?_
  · have hf := fun sign => (hf sign).shrink (Nat.le_of_lt hj)
    exact .accept (hS.selects rfl) (fun i hi => ((hf _).shrink (Nat.le_of_lt hi)).weaken)
      fun _ _ _ => hf _
  · exact nomatch hnot.symm.trans hu

theorem runs_bodyLiteral : S.Gives k 1 (bodyLiteral n) (bodyLiteral n')
    fun b => ∀ t ∈ b.terms, Read S t := by
  have haggregate : ∀ sign : Sign, S.Gives k 1 (do return (⟨sign, ← bodyAggregate n⟩ : BodyLiteral))
      (do return ⟨sign, ← bodyAggregate n'⟩) fun b => ∀ t ∈ b.terms, Read S t := by
    refine fun sign => (runs_bodyAggregate hS hn hn').first fun e he => .pure ⟨rfl, ?_⟩
    obtain ⟨function, rfl⟩ := he
    exact nofun
  have hrest : ∀ l : Literal, (∀ t ∈ l.terms, Read S t) → S.Gives k 0
      (do unless ← accept ":" do return (⟨.plain, .literal l⟩ : BodyLiteral)
          let condition ← oneOrMore (literal n) (accept ",") n
          return ⟨.plain, .conditional ⟨l, condition⟩⟩)
      (do unless ← accept ":" do return (⟨.plain, .literal l⟩ : BodyLiteral)
          let condition ← oneOrMore (literal n') (accept ",") n'
          return ⟨.plain, .conditional ⟨l, condition⟩⟩) fun b => ∀ t ∈ b.terms, Read S t := by
    refine fun l hl => (hS.accept _).bind_same fun _ _ => .ite (fun _ => ?_)
      fun _ => .pure ⟨rfl, hl⟩
    exact (runs_literals hS hn hn').weaken.bind_same
      fun ls hls => .pure ⟨rfl, forall_mem_append.mpr ⟨hl, hls⟩⟩
  refine .peek (.inr hS.looks) fun kind value x x' _ _ _ => ?_
  by_cases hnot : (⟨kind, value, x⟩ : Token).is "not" = true
  · -- Behind the negation a token is looked at only if there is one.
    refine Setting.RunsAt.mono (m := 2) ?_ (Nat.le_succ 1) fun _ _ h => h
    refine .peekAt 1 hS.far (.inr (Nat.lt_succ_self 1)) fun u u' hu => ?_
    obtain ⟨hkind, hvalue⟩ := Prod.mk.inj (S.word hu)
    have hforeign : isForeignDirective u' = isForeignDirective u := by
      rw [isForeignDirective, hkind, hvalue]
      rfl
    rw [hforeign]
    refine .restrict (A := (·.is "not")) ?_ (fun t ht => ?_) (Nat.le_refl k)
    · refine .ite (fun _ => runs_negated hS haggregate) fun _ => ?_
      rw [literal, literal, bind_assoc, bind_assoc]
      exact runs_negated hS fun sign => ((runs_atom hS hn hn').first
        fun a ha => .pure ⟨rfl, ha⟩).first hrest
    · rw [Token.is_eq, ht]
      exact hnot
  · have hplain : ∀ x, (⟨kind, value, x⟩ : Token).is "not" = false :=
      fun _ => Bool.eq_false_iff.mpr hnot
    simp only [hplain, Bool.false_and, Bool.or_false]
    have hcases : S.Gives k 1 (if isForeignDirective ⟨kind, value, x⟩ then do
          let sign ← sign
          return (⟨sign, ← bodyAggregate n⟩ : BodyLiteral)
        else literal n >>= _) (if isForeignDirective ⟨kind, value, x⟩ then do
          let sign ← sign
          return (⟨sign, ← bodyAggregate n'⟩ : BodyLiteral)
        else literal n' >>= _) fun b => ∀ t ∈ b.terms, Read S t :=
      .ite (fun _ => (runs_sign hS).bind_same fun sign _ => haggregate sign)
        fun _ => (runs_literal hS hn hn').first hrest
    exact hcases.anywhere _

theorem runs_body : S.Gives k 1 (body n) (body n') fun bs => ∀ t ∈ bs.flatMap (·.terms), Read S t :=
  runs_all hn hn' (runs_bodyLiteral hS hn hn') ⟨_, Parser.accept_or_eq _ _, hS.selects rfl⟩

/-- The parts of a rule are read the same after the same beginning. -/
theorem runs_parts {o : Option (Option (Option Guard))}
    (ho : ∀ guard, o = some (some (some guard)) → Read S guard.term) :
    S.Gives k 0 (parts n o) (parts n' o) fun x => ∀ t ∈ x.1.terms ++ x.2.flatMap (·.terms),
      Read S t := by
  have hhead : S.Gives k 0 (o.elim (pure constraintHead) (·.elim (disjuncts n) (choice n)))
      (o.elim (pure constraintHead) (·.elim (disjuncts n') (choice n')))
        fun h => ∀ t ∈ h.terms, Read S t := by
    cases o with
    | none => exact .pure ⟨rfl, nofun⟩
    | some o =>
      cases o with
      | some left => exact runs_choice hS hn hn' fun guard h => ho guard (congrArg (some <| some ·) h)
      | none =>
        refine (runs_all hn hn' (runs_conditionalLiteral hS hn hn')
          ⟨_, Parser.accept_or_eq _ _, hS.selects rfl⟩).weaken.bind_same
            fun elements helements => ?_
        split
        · next l =>
          refine .pure ⟨rfl, fun t ht => helements t ?_⟩
          simpa [Head.terms, ConditionalLiteral.terms] using ht
        · exact .pure ⟨rfl, helements⟩
  refine hhead.bind_same fun h hh => (hS.accept _).bind_same fun _ _ => .ite (fun _ => ?_)
    fun _ => ?_
  · exact (runs_body hS hn hn').weaken.bind_same
      fun b hb => .pure ⟨rfl, forall_mem_append.mpr ⟨hh, hb⟩⟩
  · exact .pure ⟨rfl, forall_mem_append.mpr ⟨hh, nofun⟩⟩

variable (hplain : ¬ S.plain)

include hplain

/-- What is known of the beginning of a rule. -/
theorem runs_opening : S.Gives k 0 (opening n) (opening n')
    fun o => ∀ guard, o = some (some (some guard)) → Read S guard.term := by
  have hguard : S.Gives k 0 (leftGuard n) (leftGuard n') fun g => ∀ guard ∈ g, Read S guard.term :=
    (runs_leftGuard hn hn').relax (fun w _ => hS.passes w) (fun _ => trivial) (fun _ => trivial)
      (fun test _ => hS.ends test)
      fun _ => hS.looks
  refine (hS.isAt _).bind_same fun _ _ => .ite (fun _ => .pure ⟨rfl, nofun⟩)
    fun _ => (hS.isAt _).bind_same fun _ _ =>
    .ite (fun _ => .pure ⟨rfl, nofun⟩) fun _ => (hguard.attempt (hS.free hplain)).bind_same
      fun left hleft => ?_
  cases left with
  | none => exact .pure ⟨rfl, nofun⟩
  | some guard => exact .pure ⟨rfl, fun _ h => hleft _ (Option.some.inj (Option.some.inj h))⟩

/-- A rule is read the same but for its line, and ends with a full stop. -/
theorem runs_rule : S.Runs k 1 (rule n) (rule n') (Twin S) := by
  rw [rule_eq, rule_eq]
  refine .peek (.inr hS.looks) fun kind value x x' _ hagree _ => .ite (fun _ => .failHere nofun)
    fun _ => ?_
  refine ((runs_opening hS hn hn' hplain).bind_same fun o ho => (runs_parts hS hn hn' ho).bind_same
    fun p hp => ?_).anywhere _
  exact (runs_expect_loose hS _).first fun _ _ => .pure ⟨rfl, rfl, ⟨_, _, hagree, rfl, rfl⟩, hp⟩

/-- All rules are read, in enough rounds. -/
theorem runs_rules {rounds rounds' : Nat} (hk : k < rounds) (hk' : k < rounds') :
    S.Runs k 0 (rules n rounds) (rules n' rounds') (Forall₂ (Twin S)) := by
  induction rounds generalizing k rounds' with
  | zero => exact absurd hk (Nat.not_lt_zero k)
  | succ rounds ih =>
    obtain _ | rounds' := rounds'
    · exact absurd hk' (Nat.not_lt_zero k)
    refine hS.atEnd.bind_same fun _ _ => .ite (fun _ => .pure .nil) fun _ => ?_
    refine (runs_rule hS hn hn' hplain).bind_of_le (fun r r' hr hle => ?_) (Nat.zero_le (1 + 0))
    exact (ih (by omega) (by omega) (by omega) (by omega)).bind
      fun rs rs' hrs => .pure (.cons hr hrs)

end Loose

end Rules

/-- The words of a text, read with other bounds. -/
def onText : Setting Unit where
  change := fun _ _ => True
  refl := fun _ => trivial
  agree := Eq
  word := fun h => h ▸ rfl
  sound := fun t => Proper t.word

/-- Rules are read the same with all bounds that are large enough. -/
theorem runs_rules_onText {k n n' : Nat} (hn : k < n) (hn' : k < n') :
    onText.Runs k 0 (rules n n) (rules n' n') (Forall₂ (Twin onText)) :=
  runs_rules ⟨fun _ => trivial, id, fun _ => trivial, trivial⟩ hn hn' id hn hn'

/-- Rules at places that agree up to `k` lines. -/
theorem down_of_twins {S : Setting Unit} {k : Nat} {rs rs' : List Rule}
    (h : Forall₂ (Twin S) rs rs')
    (hk : ∀ t t', S.agree t t' → t'.position.line = t.position.line + k) :
      rs' = rs.map (down k) := by
  induction h with
  | nil => rfl
  | @cons r r' rs rs' hr _ ih =>
    obtain ⟨hhead, hbody, ⟨t, t', hagree, hline, hline'⟩, -⟩ := hr
    obtain ⟨_, _, line⟩ := r'
    cases hhead
    cases hbody
    obtain rfl : line = r.line + k := by rw [hline, ← hk t t' hagree, ← hline']
    rw [ih]
    rfl

/-- On one text twins are equal. -/
theorem eq_of_twins {rs rs' : List Rule} (h : Forall₂ (Twin onText) rs rs') : rs' = rs := by
  rw [down_of_twins (k := 0) h fun _ _ h => congrArg (·.position.line) (Eq.symm h)]
  exact map_id rs

end Grammar

/-- All parts of the terms of rules that are read are formed. -/
theorem parsed_of_parse {rules : List Rule} (h : parse t = .ok rules) :
    ∀ rule ∈ rules, ∀ t ∈ rule.terms, t.Parsed := by
  rw [parse] at h
  split at h
  · cases h
  · cases h
  · next tokens htokens =>
    obtain ⟨halike, hlength, -⟩ := Stream.alike_tokenize htokens
    obtain ⟨log, r, hrun, -, -, hread⟩ := (Grammar.runs_rules_onText hlength hlength).same (c := ())
      (fun _ _ h => h.symm)
      (fun _ _ => Grammar.eq_of_twins) halike (Nat.le_refl _)
    have hok : r.1 = .ok rules := congrArg Prod.fst hrun.outcome_eq ▸ h
    intro rule hrule t ht
    exact (forall₂_same.mp (hread rules hok).1 rule hrule).read t ht fun _ h => h

end LogicProgram.Rule
