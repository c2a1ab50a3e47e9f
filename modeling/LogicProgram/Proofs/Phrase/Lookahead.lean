import LogicProgram.Proofs.Formula.Reading
import LogicProgram.Rendering.Human

/-!
# Looking ahead over words

Words are ranked by what they end, which is how it is known where a term or a formula
ends. Whether a parenthesis or an identifier starts a term is decided by what comes
after the group that it opens, which for balanced words is the group that is seen.
-/

namespace LogicProgram

open List
open Token (mark listed applied joined first isWord)
open LogicProgram.Parser (Reads)

variable {rest : List Word} {op : Term.Operator} {wss : List (List Word)}

/-- How weakly a word binds that comes after a term or a formula: higher for what ends more. -/
def Token.rank : Word → Nat
  | (.endOfInput, _) => 10
  | (.symbol, t) =>
    if t = ")" ∨ t = "," ∨ t = "|" ∨ t = "." then 10
    else if t = "<->" then 9
    else if t = "->" ∨ t = "<-" then 8
    else if (Comparison.ofText? t).isSome then 5
    else if t = "+" ∨ t = "-" then 4
    else if t = "*" ∨ t = "/" ∨ t = "\\" then 3
    else 0
  | (.identifier, t) => if t = "or" then 7 else if t = "and" then 6 else 0
  | _ => 0

/-- The next word ends everything up to a level. -/
def Token.Ends (level : Nat) (ws : List Word) : Prop := level < Token.rank (first ws)

open Token (Ends)

namespace Token

variable {level level' : Nat} {ws : List Word} {t : Text}

theorem ends_cons {w : Word} (h : level < rank w) : Ends level (w :: ws) := h

theorem Ends.mono (h : Ends level ws) (hle : level' ≤ level) : Ends level' ws :=
  Nat.lt_of_le_of_lt hle h

/-- A word that binds more tightly does not come next. -/
theorem Ends.isWord_eq_false (h : Ends level ws) (hsymbol : rank (mark t) ≤ level)
    (hidentifier : rank (.identifier, t) ≤ level) : isWord (first ws) t = false := by
  rw [Ends] at h
  refine not_isWord (fun hw => ?_) fun hw => ?_
  · exact absurd (hw ▸ h) (Nat.not_lt.mpr hsymbol)
  · exact absurd (hw ▸ h) (Nat.not_lt.mpr hidentifier)

/-- Operators bind as tightly as they are printed. -/
theorem rank_operator (h : op ≠ .power) : rank (mark op.text) = Human.operatorLevel op := by
  cases op with
  | power => exact (h rfl).elim
  | _ => rfl

theorem rank_comparison (op : Comparison) : rank (mark op.text) = 5 := by
  cases op <;> rfl

end Token

namespace Parser

variable {α : Type} {c : FormulaContext} {w : Word} {ws : List Word} {t : Text}

theorem Meets.expect {f : Unit → FormulaParser α} {E : Error → Prop}
    {Q : α → FormulaContext → List Word → Prop} (h : isWord w t = true) (hf : Meets (f ()) c ws E Q) :
    Meets (FormulaParser.expect t >>= f) c (w :: ws) E Q := by
  rw [FormulaParser.expect, bind_assoc]
  exact .accept_cons h (.pure_bind hf)

theorem Reads.register {step : Registering α} {a : α} {registry : Registry}
    (h : Returns step c.registry a registry) (ws : List Word) :
    Reads (FormulaParser.register step) c ws a { c with registry } ws := by
  refine .of_returns fun s hs => ?_
  exact ⟨s, FormulaParser.register_iff.mpr ⟨registry, h, rfl⟩, hs⟩

end Parser

namespace FormulaParser

variable {c : FormulaContext}

theorem reads_operator {ops : List Term.Operator}
    (h : ops.find? (fun o => isWord (mark op.text) o.text) = some op) :
    Reads (acceptOperator ops) c (mark op.text :: rest) (some (Term.binary op)) c rest := by
  refine .peek_cons fun position => ?_
  have hfind : ops.find? (fun o => (⟨.symbol, op.text, position⟩ : Token).is o.text) = some op := h
  rw [hfind]
  exact .advance .done

theorem reads_no_operator {ops : List Term.Operator}
    (h : ∀ op ∈ ops, isWord (first rest) op.text = false) :
    Reads (acceptOperator ops) c rest none c rest := by
  refine .peek fun token htoken => ?_
  have hfind : ops.find? (fun op => token.is op.text) = none := by
    rw [find?_eq_none]
    intro op hop
    rw [Token.is_eq, htoken, h op hop]
    decide
  rw [hfind]
  exact .done

/-- The operators of a level. -/
structure OfLevel (ops : List Term.Operator) (level : Nat) : Prop where
  mem : ∀ op, op ≠ .power → Human.operatorLevel op = level → op ∈ ops
  find : ∀ op ∈ ops, ops.find? (fun o => isWord (mark op.text) o.text) = some op
  /-- Their words bind as tightly as the level says. -/
  rank : ∀ op ∈ ops, Token.rank (mark op.text) ≤ level ∧ Token.rank (.identifier, op.text) ≤ level

theorem ofLevel_multiply : OfLevel [.multiply, .divide, .modulo] 3 where
  mem := fun op => by cases op <;> decide
  find := by decide
  rank := by decide

theorem ofLevel_add : OfLevel [.add, .subtract] 4 where
  mem := fun op => by cases op <;> decide
  find := by decide
  rank := by decide

end FormulaParser

namespace Token

/-- The words after the parenthesis that closes `depth + 1` open ones. -/
def afterGroup : (depth : Nat) → List Word → List Word
  | _, [] => []
  | depth, w :: ws =>
    if isWord w "(" then afterGroup (depth + 1) ws
    else if isWord w ")" then
      match depth with
      | 0 => ws
      | depth + 1 => afterGroup depth ws
    else afterGroup depth ws

/-- The words after an identifier, an application or a group. -/
def afterHead : List Word → List Word
  | [] => []
  | w :: ws =>
    if w.1 == .identifier then if isWord (first ws) "(" then afterGroup 0 ws.tail else ws
    else afterGroup 0 ws

/-- Whether a word continues a term: a relation or an arithmetic operator. -/
def continuesTerm (w : Word) : Bool :=
  (w.1 == .symbol && (Comparison.ofText? w.2).isSome)
    || [Term.Operator.add, .subtract, .multiply, .divide, .modulo].any fun op => isWord w op.text

/-- What follows a group depends on words only. -/
theorem map_word_afterGroup (depth : Nat) (tokens : List Token) :
    (FormulaParser.afterGroup depth tokens).map word = afterGroup depth (tokens.map word) := by
  induction tokens generalizing depth with
  | nil => rfl
  | cons t tokens ih =>
    rw [map_cons]
    cases depth with
    | zero =>
      rw [FormulaParser.afterGroup, afterGroup, is_eq, is_eq]
      split
      · exact ih 1
      · split
        · rfl
        · exact ih 0
    | succ depth =>
      rw [FormulaParser.afterGroup, afterGroup, is_eq, is_eq]
      split
      · exact ih (depth + 2)
      · split
        · exact ih depth
        · exact ih (depth + 1)

/-- The lookahead depends on words alone. -/
theorem startsTerm_eq {s : Stream} {ws : List Word} (h : s.Shows ws) :
    FormulaParser.startsTerm s = continuesTerm (first (afterHead ws)) := by
  obtain ⟨rfl, hlast, -⟩ := h
  have hcontinues : ∀ tokens : List Token, FormulaParser.continuesTerm (tokens.headD s.last) =
      continuesTerm (first (tokens.map word)) := by
    intro tokens
    cases tokens with
    | nil => exact congrArg continuesTerm hlast
    | cons t tokens => rfl
  refine (hcontinues _).trans (congrArg (fun ws => continuesTerm (first ws)) ?_)
  cases s.ahead with
  | nil => rfl
  | cons t tokens =>
    have hword : (t.word.1 == .identifier) = (t.kind == .identifier) := rfl
    rw [map_cons, afterHead, hword]
    dsimp only
    by_cases hkind : (t.kind == .identifier) = true
    · rw [if_pos hkind, if_pos hkind]
      cases tokens with
      | nil => rfl
      | cons u tokens =>
        rw [apply_ite (List.map word), map_word_afterGroup]
        rfl
    · rw [if_neg hkind, if_neg hkind, map_word_afterGroup]

/-- Words in which every parenthesis that is opened is closed. -/
def Balanced (ws : List Word) : Prop :=
  ∀ depth rest, afterGroup depth (ws ++ rest) = afterGroup depth rest

variable {w : Word} {ws vs : List Word}

theorem afterGroup_open (depth : Nat) (rest : List Word) :
    afterGroup depth (mark "(" :: rest) = afterGroup (depth + 1) rest := by
  cases depth <;> rfl

/-- What follows a group. -/
theorem Balanced.afterGroup (h : Balanced ws) (rest : List Word) :
    Token.afterGroup 0 (ws ++ mark ")" :: rest) = rest := h 0 _

theorem balanced_nil : Balanced [] := fun _ _ => rfl

theorem Balanced.append (h : Balanced ws) (h' : Balanced vs) : Balanced (ws ++ vs) := by
  intro depth rest
  rw [append_assoc, h, h']

/-- A word that is no parenthesis. -/
theorem Balanced.cons (hopen : isWord w "(" = false) (hclose : isWord w ")" = false)
    (h : Balanced ws) : Balanced (w :: ws) := by
  intro depth rest
  rw [← h depth rest]
  cases depth <;> simp [Token.afterGroup, hopen, hclose]

theorem Balanced.group (h : Balanced ws) : Balanced (mark "(" :: ws ++ [mark ")"]) := by
  intro depth rest
  rw [append_assoc, cons_append, afterGroup_open]
  exact h (depth + 1) (mark ")" :: rest)

/-- Balanced words with a word between them. -/
theorem balanced_joined (hopen : isWord w "(" = false)
    (hclose : isWord w ")" = false) (h : ∀ ws ∈ wss, Balanced ws) : Balanced (joined w wss) := by
  induction wss with
  | nil => exact balanced_nil
  | cons ws wss ih =>
    rw [forall_mem_cons] at h
    cases wss with
    | nil => exact h.1
    | cons vs wss => exact h.1.append ((ih h.2).cons hopen hclose)

theorem balanced_listed (h : ∀ ws ∈ wss, Balanced ws) : Balanced (listed wss) := by
  cases wss with
  | nil => exact balanced_nil
  | cons ws wss => exact (balanced_joined rfl rfl h).group

/-- Words without parentheses are balanced. -/
theorem balanced_of_forall (h : ∀ w ∈ ws, isWord w "(" = false ∧ isWord w ")" = false) :
    Balanced ws := by
  induction ws with
  | nil => exact balanced_nil
  | cons w ws ih =>
    rw [forall_mem_cons] at h
    exact (ih h.2).cons h.1.1 h.1.2

/-- What follows an identifier and its arguments. -/
theorem afterHead_applied {name : Text}
    (h : ∀ ws ∈ wss, Balanced ws) (hrest : isWord (first rest) "(" = false) :
    afterHead (applied name wss ++ rest) = rest := by
  cases wss with
  | nil =>
    show (if isWord (first rest) "(" then afterGroup 0 rest.tail else rest) = rest
    rw [hrest]
    rfl
  | cons ws wss =>
    have hgroup := (balanced_joined (w := mark ",") rfl rfl h).afterGroup rest
    simpa [applied, listed, afterHead, first, isWord] using hgroup

theorem continuesTerm_operator (h : op ≠ .power) : continuesTerm (mark op.text) = true := by
  cases op with
  | power => exact (h rfl).elim
  | _ => rfl

theorem continuesTerm_comparison (op : Comparison) : continuesTerm (mark op.text) = true := by
  cases op <;> rfl

/-- A word that ends a comparison is none itself. -/
theorem Ends.comparison_eq_none (h : Ends 5 ws) (hkind : (first ws).1 = .symbol) :
    Comparison.ofText? (first ws).2 = none := by
  rw [Ends] at h
  generalize first ws = w at h hkind
  obtain ⟨kind, value⟩ := w
  subst hkind
  by_contra hsome
  obtain ⟨op, hop⟩ := Option.ne_none_iff_exists'.mp hsome
  have htext : op.text = value := by simpa using find?_some hop
  rw [← htext, rank_comparison] at h
  exact absurd h (Nat.lt_irrefl 5)

/-- Nothing that ends a comparison continues a term. -/
theorem Ends.continuesTerm_eq_false (h : Ends 5 ws) : continuesTerm (first ws) = false := by
  have hoperator : ∀ op : Term.Operator, isWord (first ws) op.text = false := fun op =>
    h.isWord_eq_false (by cases op <;> decide) (by cases op <;> decide)
  have hcomparison : ((first ws).1 == .symbol && (Comparison.ofText? (first ws).2).isSome) = false := by
    rw [Bool.and_eq_false_imp]
    intro hkind
    rw [h.comparison_eq_none (beq_iff_eq.mp hkind)]
    rfl
  simp [continuesTerm, hoperator, hcomparison]

theorem isWord_open_of_continuesTerm (h : continuesTerm w = true) : isWord w "(" = false := by
  refine not_isWord (fun hw => ?_) fun hw => ?_
  · exact absurd (hw ▸ h) (by decide)
  · exact absurd (hw ▸ h) (by decide)

end Token

namespace FormulaParser

variable {c : FormulaContext}

theorem reads_comparison_op (op : Comparison) (rest : List Word) :
    Reads comparison? c (mark op.text :: rest) (some op) c (mark op.text :: rest) := by
  refine .peek_cons fun position => ?_
  have hop : Comparison.ofText? op.text = some op := by cases op <;> rfl
  simp only [beq_self_eq_true, if_true, hop]
  exact .done

theorem reads_no_comparison (h : Ends 5 rest) : Reads comparison? c rest none c rest := by
  refine .peek fun token htoken => ?_
  have hnone : (if (token.kind == .symbol) = true then Comparison.ofText? token.value else none) = none := by
    split
    · next hkind =>
      have hnone := h.comparison_eq_none (by rw [← htoken]; exact beq_iff_eq.mp hkind)
      rwa [← htoken] at hnone
    · rfl
  rw [hnone]
  exact .done

end FormulaParser

end LogicProgram
