import LogicProgram.Proofs.Rule.Runs

/-!
# The number of arguments

What is read as a term on its own is read as the same term between the brackets of a function. So
a name with such terms in brackets is read as a function of as many arguments, with one exception:
if the only argument is a tuple, the function gets the components of the tuple as its arguments.
-/

namespace LogicProgram.Rule

open List
open Token (mark first isWord joined applied Proper)
open LogicProgram.Parser (Reads Meets)

namespace Grammar

variable {t : Term} {tokens : List Token}

/-- The token after all others. -/
def endToken : Token := ⟨.endOfInput, [], .unknown⟩

/-- The parser of terms passes all of the tokens and returns a term. -/
def ReadsAs (tokens : List Token) (t : Term) : Prop :=
  let n := (tokens ++ [endToken]).length
  ∃ s, Parser.runOn (term n n) (tokens ++ [endToken]) () = (.ok t, s) ∧ s.stream.ahead = []

/-- The arguments that a list of terms in brackets stands for. -/
def spread : List Term → List Term
  | [.function _ [] args] => args
  | ts => ts

theorem spread_eq_self_iff {ts : List Term} : spread ts = ts ↔ ∀ t, ts = [t] → t.isTuple = false := by
  unfold spread
  split
  · next external args =>
    refine iff_of_false (fun h => ?_) fun h => nomatch h _ rfl
    have hsize := congrArg sizeOf h
    simp at hsize
    omega
  · next htuple =>
    refine iff_of_true rfl fun t ht => ?_
    subst ht
    cases t with
    | function external name args =>
      cases name with
      | nil => exact (htuple external args rfl).elim
      | cons b r => rfl
    | _ => rfl

theorem spread_cons_cons (t u : Term) (ts : List Term) : spread (t :: u :: ts) = t :: u :: ts :=
  spread_eq_self_iff.mpr nofun

/-- The same words at other places. -/
def samewords : Setting Unit where
  change := fun _ _ => True
  refl := fun _ => trivial
  agree := fun t t' => t'.word = t.word
  word := id
  sound := fun _ => True

/-- What was read alone is read from the same words elsewhere. -/
theorem ReadsAs.run {us : List Token} (h : ReadsAs tokens t) {n d : Nat} (hd : tokens.length < d)
    (hn : d ≤ n) (hus : us.map (·.word) = tokens.map (·.word)) (behind : List Token) {last : EndToken}
    (hlast : last.val.word = Token.endWord) : 0 < tokens.length ∧ ∃ s log, s.ahead = [] ∧
      Parser.Run (fun _ _ => True) (term n d) ⟨⟨behind, us, last, 0⟩, ()⟩ log (.ok t, ⟨s, ()⟩) ∧
      ∀ w, 4 < rank w → ∀ e ∈ log, e.Tolerates w := by
  obtain ⟨s, hreturns, hahead⟩ := h
  have hagree : Forall₂ samewords.agree tokens us :=
    (forall₂_map_left_iff.mp (forall₂_map_right_iff.mp (forall₂_eq_eq_eq ▸ hus.symm))).imp fun _ _ h => h.symm
  obtain ⟨log, r, r', hrun, hrun', heach, hmeet⟩ :=
    runs_term (S := samewords) (Nat.lt_succ_self _) hd (Nat.lt_succ_self _) (Nat.lt_of_lt_of_le hd hn)
      ⟨[], tokens, ⟨endToken, rfl⟩, 0⟩ ⟨behind, us, last, 0⟩ ()
        ⟨hagree, hlast, rfl, rfl, rfl, fun _ _ => trivial⟩ trivial
      (Nat.le_refl _)
  rw [length_append, Parser.runOn, Stream.ofTokens_append rfl] at hreturns
  have hr : (.ok t, s) = r := hreturns.symm.trans hrun.outcome_eq
  cases hmeet with
  | error => cases hr
  | @ok a a' v v' c hresult halike hgood hpassed =>
    obtain ⟨rfl, rfl⟩ := Prod.mk.inj hr |>.imp Except.ok.inj id
    obtain ⟨rfl, -⟩ := hresult
    refine ⟨Nat.lt_of_lt_of_le (Nat.succ_pos _) hpassed, v', log, ?_, hrun', fun w hw e he => ?_⟩
    · exact length_eq_zero_iff.mp (halike.ahead.length_eq.symm.trans (congrArg length hahead))
    · have heach := heach e he
      have hgood := hgood e he
      cases e with
      | look b => cases b with
        | true => exact hgood.elim
        | false => rfl
      | far b => cases b with
        | true => exact (hgood trivial).elim
        | false => rfl
      | refuse test b => exact fun hb => (hb ▸ hgood : (atLevel samewords 4).Good (.refuse test true)) w hw
      | reset => exact heach trivial
      | _ => trivial

/-- Terms that were read alone are read before any word that ends them. -/
theorem ReadsAs.reads (h : ReadsAs tokens t) {n d : Nat} (hd : tokens.length < d)
    (hn : d ≤ n) {rest : List Word} (hrest : Closes 4 rest) :
    Reads (term n d) () (tokens.map (·.word) ++ rest) t () rest := by
  refine .of_returns fun s hs => ?_
  obtain ⟨behind, ahead, last, beyond⟩ := s
  obtain ⟨hahead, hlast, hinside⟩ := hs
  obtain rfl : beyond = 0 := hinside
  obtain ⟨us, vs, rfl, hus, rfl⟩ := map_eq_append_iff.mp hahead
  obtain ⟨-, s, log, hnil, hrun, htolerates⟩ := h.run hd hn hus behind hlast
  obtain ⟨ws, hafter, -⟩ := hrun.moves
  cases vs with
  | nil =>
    rw [append_nil]
    exact ⟨s, hrun.outcome_eq, by rw [hnil], hafter.last ▸ hlast, hafter.beyond⟩
  | cons v vs =>
    refine ⟨s.extend (v :: vs) last, hrun.outcome_extend rfl (htolerates v.word hrest), ?_, hlast,
      hafter.beyond⟩
    rw [Stream.extend, hnil]
    rfl

theorem readsAs_of_reads
    (h : Reads (term (tokens.length + 1) (tokens.length + 1)) () (tokens.map (·.word)) t () []) :
      ReadsAs tokens t := by
  obtain ⟨s, hreturns, hs⟩ := h.returns (@Stream.shows_ofTokens tokens endToken rfl)
  refine ⟨⟨s, ()⟩, ?_, map_eq_nil_iff.mp hs.ahead⟩
  rw [length_append]
  exact hreturns

section Brackets

variable {n d : Nat} {T : RuleParser Term} {ws rest : List Word} {t : Term}

/-- Layers start with a primary term and end where no operator follows. -/
theorem reads_term_of_primary (h : Reads (primary n (term n d)) () ws t () rest)
    (hminus : isWord (first ws) "-" = false)
    (hnegation : isWord (first ws) "~" = false) (hrest : Closes 4 rest) :
      Reads (term n (d + 1)) () ws t () rest := by
  have hunary : Reads (unary n (term n d) n) () ws t () rest := by
    cases n with
    | zero => exact h
    | succ n => exact .accept_not hminus (.accept_not hnegation h)
  have hpower : Reads (power n (term n d)) () ws t () rest :=
    (hunary.oneOrMore_one (.declines (hrest.isWord_eq_false (by decide)) ()) n).map joinPowers
  have hnone : ∀ ops, Reads (acceptOperator ops) () rest none () rest := fun ops =>
    reads_no_operator fun op _ => hrest.isWord_eq_false (by rw [rankOf_operator]; cases op <;> decide)
  have hproduct : Reads (multiplicative n (term n d)) () ws t () rest :=
    hpower.bind (Reads.chainLeft_end (hnone _) n t)
  have hsum : Reads (additive n (term n d)) () ws t () rest :=
    hproduct.bind (Reads.chainLeft_end (hnone _) n t)
  exact hsum.bind (.accept_not (hrest.isWord_eq_false (by decide)) .done)

/-- No term starts with a closing bracket. -/
theorem meets_term_closing : Meets (term n d) () (mark ")" :: ws) Parser.always fun _ _ _ => False := by
  have hprimary : ∀ T : RuleParser Term, Meets (primary n T) () (mark ")" :: ws) Parser.always
      fun _ _ _ => False :=
    fun T => .peek_cons fun _ => .accept_not rfl
      (.accept_not rfl (.accept_not rfl (.peek fun _ _ => .failHere fun _ => trivial)))
  have hunary : ∀ (T : RuleParser Term) k, Meets (unary n T k) () (mark ")" :: ws) Parser.always
      fun _ _ _ => False := by
    intro T k
    cases k with
    | zero => exact hprimary T
    | succ k => exact .accept_not rfl (.accept_not rfl (hprimary T))
  have hbind : ∀ {α β : Type} {p : RuleParser α} {f : α → RuleParser β},
      Meets p () (mark ")" :: ws) Parser.always
      (fun _ _ _ => False) → Meets (p >>= f) () (mark ")" :: ws) Parser.always fun _ _ _ => False :=
    fun hp => hp.bind fun _ _ _ h => h.elim
  cases d with
  | zero => exact .throw trivial
  | succ d =>
    refine hbind (hbind (hbind (hbind ?_)))
    cases n with
    | zero | succ n => exact hbind (hunary _ _)

/-- What is read alone does not start with a closing bracket. -/
theorem ReadsAs.first_ne_closing (h : ReadsAs tokens t)
    (hidentifiers : ∀ token ∈ tokens, token.kind = .identifier → Token.IsIdentifier token.value) :
    isWord (first (tokens.map (·.word) ++ rest)) ")" = false := by
  have hlast : (⟨endToken, rfl⟩ : EndToken).val.word = Token.endWord := rfl
  have hpos := (h.run (Nat.lt_succ_self _) (Nat.le_refl _) rfl [] hlast).1
  cases tokens with
  | nil => cases hpos
  | cons token tokens =>
    rw [Bool.eq_false_iff]
    intro hword
    obtain ⟨hkind, hvalue⟩ := Bool.and_eq_true_iff.mp hword
    rcases Bool.or_eq_true_iff.mp hkind with hsymbol | hidentifier
    · have htoken : token.word = mark ")" := Prod.ext (beq_iff_eq.mp hsymbol) (beq_iff_eq.mp hvalue)
      obtain ⟨s, hreturns, -⟩ := h
      have hshows := @Stream.shows_ofTokens (token :: tokens) endToken rfl
      rw [map_cons, htoken] at hshows
      obtain ⟨-, -, hfalse⟩ := (meets_term_closing _ hshows).1 t s hreturns
      exact hfalse
    · have hname := hidentifiers token mem_cons_self (beq_iff_eq.mp hidentifier)
      rw [show token.value = ")" from beq_iff_eq.mp hvalue] at hname
      exact absurd (hname.isWord_eq_false (t := ")") rfl) (by decide)

/-- Terms that are read alone are read with commas between them. -/
theorem reads_separated {ss : List (List Token)} {ts : List Term} (h : Forall₂ ReadsAs ss ts) (hne : ss ≠ [])
    (hlengths : ∀ s ∈ ss, s.length < d) (hn : d ≤ n) {k : Nat} (hk : ss.length ≤ k) :
    Reads (Parser.oneOrMore (term n d) (Parser.accept ",") k) ()
      (joined (mark ",") (ss.map (·.map (·.word))) ++ mark ")" :: rest) ts () (mark ")" :: rest) := by
  induction h generalizing k with
  | nil => exact absurd rfl hne
  | @cons s t ss ts hs hss ih =>
    have hread : ∀ rest, Closes 4 rest → Reads (term n d) () (s.map (·.word) ++ rest) t () rest :=
      fun _ hrest =>
      hs.reads (hlengths s mem_cons_self) hn hrest
    cases hss with
    | nil => exact (hread _ (closes_cons (by decide))).oneOrMore_one (.declines rfl ()) k
    | @cons s' t' ss ts hs' hss =>
      obtain _ | k := k
      · exact absurd hk (Nat.not_succ_le_zero _)
      have hrest := ih (cons_ne_nil _ _) (fun u hu => hlengths u (mem_cons_of_mem _ hu))
          (Nat.le_of_succ_le_succ hk)
      rw [map_cons, map_cons, joined, append_assoc]
      exact (hread _ (closes_cons (by decide))).bind (.accept_cons rfl (hrest.bind .done))

/-- Terms in brackets are arguments, but for a single tuple. -/
theorem reads_arguments_of_readsAs {ss : List (List Token)} {ts : List Term} (h : Forall₂ ReadsAs ss ts)
    (hne : ss ≠ [])
    (hidentifiers : ∀ s ∈ ss, ∀ token ∈ s, token.kind = .identifier → Token.IsIdentifier token.value)
    (hlengths : ∀ s ∈ ss, s.length < d) (hn : d ≤ n) (hlength : ss.length ≤ n) :
    Reads (arguments n (term n d)) () (Token.listed (ss.map (·.map (·.word))) ++ rest) (spread ts)
      () rest := by
  cases h with
  | nil => exact absurd rfl hne
  | @cons s t ss ts hs hss =>
    have hlisted : Token.listed ((s :: ss).map (·.map (·.word))) ++ rest =
        mark "(" :: (joined (mark ",") ((s :: ss).map (·.map (·.word))) ++ mark ")" :: rest) := by
      simp [Token.listed]
    have hfirst :
        isWord (first (joined (mark ",") ((s :: ss).map (·.map (·.word))) ++ mark ")" :: rest))
          ")" = false := by
      cases ss with
      | nil => exact hs.first_ne_closing (hidentifiers s mem_cons_self)
      | cons u ss =>
        rw [map_cons, map_cons, joined, append_assoc]
        exact hs.first_ne_closing (hidentifiers s mem_cons_self)
    have hgroup := (@reads_separated n d rest _ _ (.cons hs hss) hne hlengths hn n hlength).map tuple
    rw [hlisted]
    refine .accept_cons rfl (.accept_not hfirst
      ((hgroup.oneOrMore_one (.declines rfl ()) n).bind ((reads_expect rfl rest).bind ?_)))
    cases hss with
    | cons hu hus =>
      rw [spread_cons_cons]
      exact .done
    | nil =>
      cases t with
      | function external name args => cases name <;> exact .done
      | _ => exact .done

end Brackets

/-- A name before terms in brackets is read as a function of these terms, or of the components of the only one
if that is a tuple. -/
theorem readsAs_applied {name : Text} (hname : Token.IsIdentifier name) (hnot : name ≠ "not")
    {ss : List (List Token)} {ts : List Term} (hne : ss ≠ [])
    (hidentifiers : ∀ s ∈ ss, ∀ token ∈ s, token.kind = .identifier → Token.IsIdentifier token.value)
    (h : Forall₂ ReadsAs ss ts) {tokens : List Token}
    (htokens : tokens.map (·.word) = applied name (ss.map (·.map (·.word)))) :
    ReadsAs tokens (.function false name (spread ts)) ∧ (spread ts = ts ↔ ∀ t, ts = [t] → t.isTuple = false) := by
  refine ⟨readsAs_of_reads ?_, spread_eq_self_iff⟩
  have hlisted : (Token.listed (ss.map (·.map (·.word)))).length = (joined (mark ",") (ss.map (·.map (·.word)))).length + 2 := by
    cases ss with
    | nil => exact absurd rfl hne
    | cons s ss => simp [Token.listed]
  have hlength : tokens.length = (joined (mark ",") (ss.map (·.map (·.word)))).length + 3 := by
    have heq := congrArg List.length htokens
    rwa [length_map, applied, length_cons, hlisted] at heq
  have hlengths : ∀ s ∈ ss, s.length < tokens.length := fun s hs => by
    have hle := Token.length_le_joined (w := mark ",") (mem_map_of_mem (f := (·.map (·.word))) hs)
    rw [length_map] at hle
    omega
  have hcount := Token.length_le_length_joined (w := mark ",") (ss.map (·.map (·.word)))
  rw [length_map] at hcount
  have harguments : Reads (arguments (tokens.length + 1) (term (tokens.length + 1) tokens.length)) ()
      (Token.listed (ss.map (·.map (·.word))) ++ []) (spread ts) () [] :=
    reads_arguments_of_readsAs h hne hidentifiers hlengths (Nat.le_succ _) (by omega)
  rw [append_nil] at harguments
  rw [htokens, applied]
  refine reads_term_of_primary ?_ (hname.isWord_eq_false rfl) (hname.isWord_eq_false rfl) (by unfold Closes; decide)
  refine .peek_cons fun position => .ite_neg (fun h => hnot (beq_iff_eq.mp h)) ?_
  exact .advance (harguments.bind .done)

/-- Tokens of words, at no place in particular. -/
def unplaced (ws : List Word) : List Token := ws.map fun w => ⟨w.1, w.2, .unknown⟩

/-- The words of a pair of numbers. -/
def pairWords : List Word := [mark "(", (.number, "1"), mark ",",
    (.number, "2"), mark ")"]

/-- The pair of numbers. -/
def pair : Term := .function false [] [.number 1, .number 2]

/-- Beside another argument a tuple stays one argument. -/
theorem readsAs_applied_pair :
    let ss := [unplaced [(.variable, "X")], unplaced pairWords]
    let tokens := unplaced (applied "p" (ss.map (·.map (·.word))))
    ReadsAs tokens (.function false "p" [.variable "X", pair]) := by
  have h : Forall₂ ReadsAs [unplaced [(.variable, "X")], unplaced pairWords] [.variable "X", pair] :=
    .cons ⟨_, rfl, rfl⟩ (.cons ⟨_, rfl, rfl⟩ .nil)
  have hkinds : ∀ s ∈ [unplaced [(.variable, "X")], unplaced pairWords], ∀ token ∈ s,
      token.kind ≠ .identifier := by decide
  exact (readsAs_applied ⟨_, _, rfl, by decide +kernel⟩ (by decide) (cons_ne_nil _ _)
    (fun s hs token ht hkind => absurd hkind (hkinds s hs token ht)) h rfl).1

/-- A tuple that is the only argument is read as several. -/
theorem readsAs_applied_tuple :
    let tokens := unplaced (applied "p" [pairWords])
    ReadsAs (unplaced pairWords) pair ∧ ReadsAs tokens (.function false "p" [.number 1, .number 2]) ∧
      ¬ ReadsAs tokens (.function false "p" [pair]) := by
  have hread : ReadsAs (unplaced (applied "p" [pairWords])) (.function false "p" [.number 1, .number 2]) := ⟨_, rfl, rfl⟩
  refine ⟨⟨_, rfl, rfl⟩, hread, fun h => ?_⟩
  obtain ⟨s, hs, -⟩ := hread
  obtain ⟨s', hs', -⟩ := h
  have hargs := congrArg Prod.fst (hs.symm.trans hs')
  simp [pair] at hargs

end Grammar

end LogicProgram.Rule
