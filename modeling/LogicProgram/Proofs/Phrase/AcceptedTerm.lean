import LogicProgram.Proofs.Phrase.ParsedTerm

/-!
# Phrases of terms are accepted

Before a word that ends it, every phrase that the language has is read to its end, if
the names of its variables are allowed. The result is what the phrase means, and the
names are collected that no quantifier lists.
-/

namespace LogicProgram

open List
open TermPhrase (words words_ne_nil)
open Token (mark listed applied joined first isWord Ends)
open LogicProgram.Parser (Meets never)

variable {size : Nat} {w : Word} {ws : List Word} {wss : List (List Word)}

/-- The names of variables among some words determine domains. -/
def Token.Admissible (ws : List Word) : Prop :=
  ∀ w ∈ ws, w.1 = .variable → (Domain.ofVariableName w.2).isOk = true

open Token (Admissible)

instance (ws : List Word) : Decidable (Admissible ws) := inferInstanceAs (Decidable (∀ _ ∈ _, _))

theorem Token.Admissible.exists_domain {name : Text} (h : Admissible ws)
    (hname : (.variable, name) ∈ ws) : ∃ domain, Domain.ofVariableName name = .ok domain := by
  have hok := h _ hname rfl
  cases hdomain : Domain.ofVariableName name with
  | ok domain => exact ⟨domain, rfl⟩
  | error e =>
    rw [hdomain] at hok
    cases hok

theorem Token.Admissible.mono {vs : List Word} (h : Admissible ws) (hvs : vs ⊆ ws) : Admissible vs :=
  fun w hw => h w (hvs hw)

theorem Token.subset_joined (h : ws ∈ wss) : ws ⊆ joined w wss := by
  induction wss with
  | nil => exact absurd h not_mem_nil
  | cons vs wss ih =>
    cases wss with
    | nil => rw [mem_singleton.mp h, joined]; exact List.Subset.refl _
    | cons us wss =>
      rw [joined]
      rcases mem_cons.mp h with rfl | h
      · exact subset_append_left _ _
      · exact fun x hx => mem_append_right _ (mem_cons_of_mem _ (ih h hx))

theorem Token.mem_joined {v : Word} (h : v ∈ joined w wss) : v = w ∨ ∃ ws ∈ wss, v ∈ ws := by
  induction wss with
  | nil => cases h
  | cons ws wss ih =>
    cases wss with
    | nil => exact .inr ⟨ws, mem_cons_self, h⟩
    | cons us wss =>
      rcases mem_append.mp h with h | h
      · exact .inr ⟨ws, mem_cons_self, h⟩
      rcases mem_cons.mp h with rfl | h
      · exact .inl rfl
      · refine (ih h).imp_right fun hwss => ?_
        obtain ⟨vs, hvs, hv⟩ := hwss
        exact ⟨vs, mem_cons_of_mem _ hvs, hv⟩

theorem Token.mem_listed {v : Word} (h : v ∈ listed wss) : v.1 = .symbol ∨ ∃ ws ∈ wss, v ∈ ws := by
  rw [listed] at h
  split at h
  · cases h
  · simp only [cons_append, mem_cons, mem_append, not_mem_nil, or_false] at h
    rcases h with rfl | h | rfl
    · exact .inl rfl
    · rcases mem_joined h with rfl | h
      · exact .inl rfl
      · exact .inr h
    · exact .inl rfl

/-- The variables among the words of a term are its names. -/
theorem TermPhrase.mem_names {x : TermPhrase} {name : Text} (hx : x.Formed)
    (h : (.variable, name) ∈ x.words) : name ∈ x.names := by
  induction hx with
  | @function f args _ _ ih =>
    rw [words, wordsOfAll_eq_map, applied] at h
    rw [names, namesOfAll_eq_flatMap]
    rcases mem_cons.mp h with h | h
    · cases h
    rcases Token.mem_listed h with h | ⟨ws, hws, h⟩
    · cases h
    obtain ⟨t, ht, rfl⟩ := mem_map.mp hws
    exact mem_flatMap.mpr ⟨t, ht, ih t ht h⟩
  | group _ ih | absolute _ ih | negative _ _ _ ih => exact ih (by simpa [words] using h)
  | binary _ _ _ _ _ ihl ihr =>
    rw [words] at h
    rcases mem_append.mp h with h | h
    · exact mem_append_left _ (ihl h)
    · exact mem_append_right _ (ihr ((mem_cons.mp h).resolve_left (by rintro ⟨⟩)))
  | «variable» => simpa [words, names] using h
  | _ => simp [words] at h

namespace FormulaParser

variable {α β : Type} {c : FormulaContext} {ws rest : List Word} {n : Nat}

/-- A parser passes the words `ws` before others, and `P` holds of its result and of the context that it leaves. -/
def Consumes (p : FormulaParser α) (c : FormulaContext) (ws rest : List Word)
    (P : α → FormulaContext → Prop) : Prop :=
  Meets p c (ws ++ rest) never fun a c' vs => vs = rest ∧ P a c'

theorem Consumes.bind {p : FormulaParser α} {f : α → FormulaParser β} {P : α → FormulaContext → Prop}
    {Q : β → FormulaContext → List Word → Prop} (hp : Consumes p c ws rest P)
    (hf : ∀ a c', P a c' → Meets (f a) c' rest never Q) : Meets (p >>= f) c (ws ++ rest) never Q := by
  refine Meets.bind hp fun a c' vs h => ?_
  obtain ⟨rfl, ha⟩ := h
  exact hf a c' ha

theorem Consumes.mono {p : FormulaParser α} {P P' : α → FormulaContext → Prop} (hp : Consumes p c ws rest P)
    (h : ∀ a c', P a c' → P' a c') : Consumes p c ws rest P' :=
  Meets.mono hp fun a c' _ ha => ⟨ha.1, h a c' ha.2⟩

/-- Items with a word between them, where `R` says what is read of them. -/
theorem consumes_oneOrMore {ξ : Type} {item : FormulaParser α} {words : ξ → List Word}
    {R : List ξ → FormulaContext → List α → FormulaContext → Prop} {t : Text}
    {E : List Word → Prop} {xs : List ξ}
    (hitem : ∀ x ∈ xs, ∀ c rest, E rest → Consumes item c (words x) rest fun a => R [x] c [a])
    (hcons : ∀ {x y ys c c' c'' a as}, R [x] c [a] c' → R (y :: ys) c' as c'' →
      R (x :: y :: ys) c (a :: as) c'')
    (hw : isWord w t = true) (hbetween : ∀ rest, E (w :: rest)) (hrest : E rest)
    (hend : isWord (first rest) t = false) (hne : xs ≠ []) {rounds : Nat} (hrounds : xs.length ≤ rounds + 1) :
    Consumes (Parser.oneOrMore item (Parser.accept t) rounds) c (joined w (xs.map words)) rest (R xs c) := by
  induction xs generalizing c rounds with
  | nil => exact absurd rfl hne
  | cons x xs ih =>
    obtain ⟨hx, hxs⟩ := forall_mem_cons.mp hitem
    cases xs with
    | nil =>
      cases rounds with
      | zero => exact (hx c rest hrest).bind fun a c' ha => .pure ⟨rfl, ha⟩
      | succ rounds =>
        exact (hx c rest hrest).bind fun a c' ha => .accept_not hend (.pure ⟨rfl, ha⟩)
    | cons y ys =>
      cases rounds with
      | zero => exact absurd hrounds (by simp)
      | succ rounds =>
        have hwords : joined w ((x :: y :: ys).map words) ++ rest =
            words x ++ (w :: (joined w ((y :: ys).map words) ++ rest)) := by
          simp [joined]
        rw [Consumes, hwords]
        refine (hx c _ (hbetween _)).bind fun a c' ha => .accept_cons hw ?_
        exact (ih hxs (cons_ne_nil _ _) (by simpa using hrounds)).bind fun as c'' has =>
          .pure ⟨rfl, hcons ha has⟩

/-- A parser reads the phrases up to a level and some length as what they mean, before what ends them. -/
def AcceptsTerms (p : FormulaParser Term) (level follow size : Nat) : Prop :=
  ∀ (x : TermPhrase) c rest, x.Formed → Admissible x.words → x.level ≤ level → x.words.length ≤ size →
    Ends follow rest → Consumes p c x.words rest (x.Spells x.words c)

end FormulaParser

namespace TermPhrase

variable {x : TermPhrase}

theorem two_le_operatorLevel (op : Term.Operator) : 2 ≤ Human.operatorLevel op := by
  cases op <;> decide

theorem level_formed (hx : x.Formed) : x.level ≤ 4 ∧ x.level ≠ 2 := by
  cases hx with
  | @binary op _ _ hop =>
    cases op with
    | power => exact absurd rfl hop
    | _ => simp [level, Human.operatorLevel]
  | _ => simp [level]

/-- Without an operator outside of brackets, no minus sign comes first. -/
theorem isWord_first_minus (hx : x.Formed) (hlevel : x.level = 0) (rest : List Word) :
    isWord (first (x.words ++ rest)) "-" = false := by
  cases hx with
  | function hname => exact hname.isWord_eq_false (by decide)
  | negativeNumeral | negative => cases hlevel
  | @binary op => exact absurd (Nat.le_trans (two_le_operatorLevel op) (Nat.le_of_eq hlevel)) (by decide)
  | _ => rfl

/-- What a minus sign may stand before does not start with a number. -/
theorem first_ne_number (hlevel : x.level ≤ 1) (hnumeral : ∀ digits, x ≠ .numeral digits) (rest : List Word) :
    (first (x.words ++ rest)).1 ≠ .number := by
  cases x with
  | numeral digits => exact absurd rfl (hnumeral digits)
  | binary op left right => exact absurd (Nat.le_trans (two_le_operatorLevel op) hlevel) (by decide)
  | _ => exact fun h => nomatch h

end TermPhrase

namespace FormulaParser

variable {c : FormulaContext} {rest : List Word} {n d : Nat}

section Terms

variable {T : FormulaParser Term} (hT : AcceptsTerms T 4 4 d)

include hT

theorem consumes_arguments {args : List TermPhrase} (hargs : ∀ x ∈ args, x.Formed)
    (hadmissible : Admissible (listed (args.map (·.words))))
    (hd : (listed (args.map (·.words))).length ≤ d + 2) (hn : (listed (args.map (·.words))).length ≤ n + 2)
    (hrest : Ends 0 rest) : Consumes (arguments n T) c (listed (args.map (·.words))) rest
      (TermPhrase.SpellsAll args (joined (mark ",") (args.map (·.words))) c) := by
  by_cases hne : args = []
  · subst hne
    exact .accept_not (hrest.isWord_eq_false (by decide) (by decide)) (.pure ⟨rfl, .none c⟩)
  have hlisted : listed (args.map (·.words)) = mark "(" ::
      (joined (mark ",") (args.map (·.words)) ++ [mark ")"]) := by
    rw [listed, if_neg (by simpa using hne)]
    rfl
  rw [hlisted] at hadmissible hd hn
  simp only [length_cons, length_append, length_nil] at hd hn
  have hcount := Token.length_le_length_joined (w := mark ",") (args.map (·.words))
  rw [length_map] at hcount
  have hwords : listed (args.map (·.words)) ++ rest = mark "(" ::
      (joined (mark ",") (args.map (·.words)) ++ mark ")" :: rest) := by
    rw [hlisted]
    simp
  rw [Consumes, hwords]
  refine .accept_cons rfl ((consumes_oneOrMore (E := Ends 4)
    (R := fun xs c => TermPhrase.SpellsAll xs (joined (mark ",") (xs.map words)) c)
    (fun x hx c rest hrest => ?_) (fun h h' => .cons h.head h' (cons_ne_nil _ _)) rfl
    (fun _ => Token.ends_cons (by decide)) (Token.ends_cons (by decide)) rfl hne (by omega)).bind
    fun ts c' hts => .expect rfl (.pure ⟨rfl, hts⟩))
  have hmem : x.words ∈ args.map (·.words) := mem_map_of_mem hx
  have hlength := Token.length_le_joined (w := mark ",") hmem
  refine (hT x c rest (hargs x hx) (hadmissible.mono fun w hw => ?_) (TermPhrase.level_formed (hargs x hx)).1
    (by omega) hrest).mono fun t c' ht => .one ht
  exact mem_cons_of_mem _ (mem_append_left _ (Token.subset_joined hmem hw))

theorem accepts_primaryTerm (hd : d + 1 ≤ n) : AcceptsTerms (primaryTerm n T) 0 0 (d + 1) := by
  intro x c rest hx hadmissible hlevel hsize hrest
  cases hx with
  | numeral h =>
    exact .peek_cons fun position => .advance (.ite (fun hbig => absurd h (Nat.not_lt.mpr hbig)) fun _ =>
      .pure ⟨rfl, .numeral h c⟩)
  | string value => exact .peek_cons fun position => .advance (.pure ⟨rfl, .string value c⟩)
  | @constant name h =>
    have hdone : ∀ u, Term.special? name = some u →
        Consumes (do Parser.advance; return u) c [(.directive, name)]
        rest ((TermPhrase.constant name).Spells [(.directive, name)] c) :=
      fun u hu => .advance (.pure ⟨rfl, .constant hu c⟩)
    refine .peek_cons fun position => .ite (fun h₁ => hdone _ ?_) fun h₁ => .ite
      (fun h₂ => hdone _ ?_) fun h₂ =>
      .ite (fun h₃ => hdone _ ?_) fun h₃ => .ite (fun h₄ => hdone _ ?_) fun h₄ => absurd h ?_
    · rw [Term.special?, if_pos h₁]
    · rw [Term.special?, if_neg h₁, if_pos h₂]
    · rw [Term.special?, if_neg h₁, if_neg h₂, if_pos h₃]
    · rw [Term.special?, if_neg h₁, if_neg h₂, if_neg h₃, if_pos h₄]
    · rw [Term.special?, if_neg h₁, if_neg h₂, if_neg h₃, if_neg h₄]
      decide
  | «variable» name =>
    obtain ⟨domain, hdomain⟩ := hadmissible.exists_domain mem_cons_self
    refine .peek_cons fun position => .advance ((meets_resolve fun e he => ?_).bind fun v c' vs h =>
      .pure ⟨h.1, .variable h.2.1 h.2.2⟩)
    rw [hdomain] at he
    cases he
  | @function name args hname hargs =>
    have hwords : (TermPhrase.function name args).words = (.identifier, name) :: listed
        (args.map (·.words)) := by
      rw [words, TermPhrase.wordsOfAll_eq_map, applied]
    rw [hwords] at hadmissible hsize
    rw [length_cons] at hsize
    have harguments := consumes_arguments (c := c) (n := n) hT hargs
      (hadmissible.mono (subset_cons_self _ _)) (by omega) (by omega) hrest
    rw [hwords]
    exact .peek_cons fun position => .advance (harguments.bind fun ts c' hts =>
      (meets_declareFunction _).bind fun _ c'' vs h => .pure ⟨h.1, .function hname (hts.later h.2.1) h.2.2⟩)
  | @group inner h =>
    have hwords : (TermPhrase.group inner).words ++ rest = mark "(" :: (inner.words ++ mark ")" :: rest) := by
      simp [words]
    rw [words] at hadmissible hsize
    simp only [cons_append, length_cons, length_append, length_nil] at hsize
    have hinner := hT inner c (mark ")" :: rest) h (hadmissible.mono (by simp)) (TermPhrase.level_formed h).1
      (by omega) (Token.ends_cons (by decide))
    rw [Consumes, hwords]
    exact .peek_cons fun position => .accept_cons rfl (hinner.bind fun t c' ht =>
      .expect rfl (.pure ⟨rfl, ht.group⟩))
  | @absolute inner h =>
    have hwords : (TermPhrase.absolute inner).words ++ rest = mark "|" ::
        (inner.words ++ mark "|" :: rest) := by
      simp [words]
    rw [words] at hadmissible hsize
    simp only [cons_append, length_cons, length_append, length_nil] at hsize
    have hinner := hT inner c (mark "|" :: rest) h (hadmissible.mono (by simp)) (TermPhrase.level_formed h).1
      (by omega) (Token.ends_cons (by decide))
    rw [Consumes, hwords]
    exact .peek_cons fun position => .accept_not rfl (.accept_cons rfl
      (hinner.bind fun t c' ht => .expect rfl (.pure ⟨rfl, ht.absolute⟩)))
  | negativeNumeral | negative => exact absurd hlevel (by simp [TermPhrase.level])
  | @binary op => exact absurd (Nat.le_trans (TermPhrase.two_le_operatorLevel op) hlevel) (by decide)

end Terms

theorem accepts_unaryTerm {T : FormulaParser Term} (hp : AcceptsTerms (primaryTerm n T) 0 0 size)
    {rounds : Nat} (hrounds : size ≤ rounds) : AcceptsTerms (unaryTerm n T rounds) 1 0 size := by
  intro x c rest hx hadmissible hlevel hsize hrest
  have hlength := Nat.le_trans hsize hrounds
  clear hrounds
  induction rounds generalizing x with
  | zero => exact absurd (length_eq_zero_iff.mp (Nat.le_zero.mp hlength)) x.words_ne_nil
  | succ rounds ih =>
    by_cases hzero : x.level = 0
    · exact .accept_not (x.isWord_first_minus hx hzero rest)
        (hp x c rest hx hadmissible (Nat.le_of_eq hzero) hsize hrest)
    cases hx with
    | negativeNumeral h =>
      exact .accept_cons rfl (.peek_cons fun position => .ite (fun _ => .advance
        (.ite (fun hbig => absurd h (Nat.not_le.mpr hbig)) fun _ => .pure ⟨rfl, .negativeNumeral h c⟩))
        fun h => absurd rfl h)
    | @negative inner h hinner hnumeral =>
      rw [words] at hadmissible hsize hlength
      rw [length_cons] at hsize hlength
      refine .accept_cons rfl (.peek fun t ht => .ite (fun hkind => ?_) fun _ => ?_)
      · refine absurd ?_ (TermPhrase.first_ne_number hinner hnumeral rest)
        exact (congrArg Prod.fst ht).symm.trans (beq_iff_eq.mp hkind)
      · exact (ih inner h (hadmissible.mono (subset_cons_self _ _)) hinner (by omega) (by omega)).bind
          fun t c' ht => .pure ⟨rfl, ht.negative hinner hnumeral⟩
    | @binary op => exact absurd (Nat.le_trans (TermPhrase.two_le_operatorLevel op) hlevel) (by decide)
    | _ => exact absurd rfl hzero

/-- What comes after the words `ws` is read by a chain that goes on with what they gave, for as many
rounds as there are words left. `R` says what they gave between two contexts. -/
def Continues {α : Type} (p : FormulaParser α) (chain : Nat → α → FormulaParser α)
    (E : List Word → Prop) (k : Nat) (ws : List Word)
      (R : FormulaContext → α → FormulaContext → Prop) : Prop :=
  ∃ k', k < k' + ws.length ∧ ∀ c rest (Q : α → FormulaContext → List Word → Prop), E rest →
    (∀ a c', R c a c' → Meets (chain k' a) c' rest never Q) → Meets p c (ws ++ rest) never Q

namespace Continues

variable {α : Type} {p : FormulaParser α} {E : List Word → Prop} {k : Nat} {w : Word} {ws vs : List Word}
  {R R' R'' : FormulaContext → α → FormulaContext → Prop}

/-- The first operand. -/
theorem start {chain : Nat → α → FormulaParser α} (hne : ws ≠ [])
    (h : ∀ c rest (Q : α → FormulaContext → List Word → Prop), E rest →
      (∀ a c', R c a c' → Meets (chain k a) c' rest never Q) → Meets p c (ws ++ rest) never Q) :
    Continues p chain E k ws R :=
  ⟨k, Nat.lt_add_of_pos_right (length_pos_iff.mpr hne), h⟩

/-- One more operator and operand. -/
theorem step {operand : FormulaParser α} {operator : FormulaParser (Option (α → α → α))} {combine : α → α → α}
    (h : Continues p (Parser.chainLeft operand operator) E k ws R) (hk : ws.length ≤ k)
    (hw : ∀ rest, E (w :: rest)) (hoperator : ∀ c rest,
      Parser.Reads operator c (w :: rest) (some combine) c rest)
    (hoperand : ∀ c rest, E rest → Consumes operand c vs rest (R' c))
    (hcombine : ∀ {c a c' b c''}, R c a c' → R' c' b c'' → R'' c (combine a b) c'') :
    Continues p (Parser.chainLeft operand operator) E k (ws ++ w :: vs) R'' := by
  obtain ⟨k', hk', hchain⟩ := h
  obtain ⟨k', rfl⟩ : ∃ m, k' = m + 1 := Nat.exists_eq_succ_of_ne_zero (by omega)
  refine ⟨k', ?_, fun c rest Q hrest hgo => ?_⟩
  · rw [length_append, length_cons]
    omega
  · rw [append_assoc, cons_append]
    refine hchain c _ Q (hw _) fun a c' ha => (hoperator c' _).bind ?_
    exact (hoperand c' rest hrest).bind fun b c₂ hb => hgo _ _ (hcombine ha hb)

/-- The whole chain, where no operator follows. -/
theorem consumes {operand : FormulaParser α}
    {operator : FormulaParser (Option (α → α → α))} {rest : List Word}
    (h : Continues p (Parser.chainLeft operand operator) E k ws R) (hrest : E rest)
    (hend : ∀ c, Parser.Reads operator c rest none c rest) : Consumes p c ws rest (R c) := by
  obtain ⟨k', -, hchain⟩ := h
  exact hchain c rest _ hrest fun a c' ha => .of_reads (.chainLeft_end (hend c') k' a) ⟨rfl, ha⟩

end Continues

/-- A chain of operators of a level is read along its left spine. -/
theorem continues_chain {p : FormulaParser Term} {ops : List Term.Operator} {level k : Nat}
    (hops : OfLevel ops level) (hp : AcceptsTerms p (level - 1) (level - 1) size) (hlow : 2 ≤ level)
    {x : TermPhrase} (hx : x.Formed) (hadmissible : Admissible x.words) (hlevel : x.level ≤ level)
    (hsize : x.words.length ≤ size) (hk : x.words.length ≤ k) :
    Continues (do Parser.chainLeft p (acceptOperator ops) k (← p)) (Parser.chainLeft p (acceptOperator ops))
      (Ends (level - 1)) k x.words (x.Spells x.words) := by
  have hformed := hx
  induction hx with
  | @binary op left right hop _ hr hleft hright ihl =>
    by_cases hoperand : Human.operatorLevel op ≤ level - 1
    · exact .start (words_ne_nil _) fun c rest Q hrest hgo =>
        (hp _ c rest hformed hadmissible hoperand hsize hrest).bind hgo
    -- The operator is of the level: the left operand is the rest of the spine.
    have heq : Human.operatorLevel op = level := Nat.le_antisymm hlevel (by omega)
    rw [words] at hadmissible hsize hk
    rw [length_append, length_cons] at hsize hk
    have hspine := ihl (hadmissible.mono (subset_append_left _ _)) (heq ▸ hleft) (by omega) (by omega)
      (by assumption)
    refine hspine.step (by omega) (fun _ => Token.ends_cons ?_)
      (fun c rest => reads_operator (hops.find op (hops.mem op hop heq))) (fun c rest hrest => ?_)
      fun ht hu => ht.binary hop hu hleft hright
    · rw [Token.rank_operator hop, heq]
      omega
    · refine hp right c rest hr (hadmissible.mono fun w hw => ?_) (by omega) (by omega) hrest
      exact mem_append_right _ (mem_cons_of_mem _ hw)
  | _ =>
    refine .start (words_ne_nil _) fun c rest Q hrest hgo =>
      (hp _ c rest hformed hadmissible ?_ hsize hrest).bind hgo
    simp only [TermPhrase.level]
    omega

/-- A whole chain of operators of a level. -/
theorem accepts_chain {p : FormulaParser Term} {ops : List Term.Operator} {level k : Nat}
    (hops : OfLevel ops level) (hp : AcceptsTerms p (level - 1) (level - 1) size) (hlow : 2 ≤ level)
    (hk : size ≤ k) :
    AcceptsTerms (do Parser.chainLeft p (acceptOperator ops) k (← p)) level level size := by
  intro x c rest hx hadmissible hlevel hsize hrest
  refine (continues_chain hops hp hlow hx hadmissible hlevel hsize (Nat.le_trans hsize hk)).consumes
    (hrest.mono (Nat.sub_le _ _)) fun c => reads_no_operator fun op hop => ?_
  exact hrest.isWord_eq_false (hops.rank op hop).1 (hops.rank op hop).2

/-- Phrases of terms are accepted, before everything that ends a term. -/
theorem accepts_term (hd : d ≤ n) : AcceptsTerms (term n d) 4 4 d := by
  induction d with
  | zero =>
    intro x c rest hx hadmissible hlevel hsize
    exact absurd (length_eq_zero_iff.mp (Nat.le_zero.mp hsize)) x.words_ne_nil
  | succ d ih =>
    have hunary : AcceptsTerms (unaryTerm n (term n d) n) 2 2 (d + 1) := by
      intro x c rest hx hadmissible hlevel hsize hrest
      have hne := (TermPhrase.level_formed hx).2
      exact accepts_unaryTerm (accepts_primaryTerm (ih (Nat.le_of_succ_le hd)) hd) hd x c rest hx hadmissible
        (by omega) hsize (hrest.mono (by decide))
    have hproduct : AcceptsTerms (multiplicative n (term n d)) 3 3 (d + 1) :=
      accepts_chain ofLevel_multiply hunary (by decide) hd
    exact accepts_chain ofLevel_add hproduct (by decide) hd

end FormulaParser

end LogicProgram
