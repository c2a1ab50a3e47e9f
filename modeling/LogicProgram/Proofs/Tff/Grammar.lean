import LogicProgram.Proofs.Rendering.Naming
import LogicProgram.Proofs.Tff.Scanning
import LogicProgram.Proofs.Token.Reading

/-!
# The grammar of typed formulas

A unit is an atom, an equation, a negation, a quantified unit or something in parentheses.
Negations and quantifiers reach over one unit. Binary connectives stand in parentheses only:
conjunctions and disjunctions of two or more units, and implications and equivalences of
two. An equation cannot follow a negation sign directly. `readFormula` reads a text by this
grammar, and the text of every formula that follows it is read as that formula.
-/

namespace LogicProgram.Tff

open List
open LogicProgram.Parser (Reads accept oneOrMore next)
open Token (mark joined listed applied first isWord)

variable {t : Term} {f : Formula} {fs : List Formula}

namespace Grammar

/-- A parser of typed formulas. -/
abbrev Reader (α : Type) := Parser Unit α

/-- The words do not follow the grammar. -/
def fail {α : Type} : Reader α := Parser.failHere (.logic "no typed formula")

/-- Passes a mark that has to come next. -/
def expect (text : Text) : Reader Unit := do unless ← accept text do fail

section

-- no list has more members than there are words
variable (n : Nat)

/-- Arguments in parentheses, if there are any. -/
def arguments (term : Reader Term) : Reader (List Term) := do
  if ← accept "(" then
    let args ← oneOrMore term (accept ",") n
    expect ")"
    return args
  return []

/-- A term, nested at most `depth` deep. Numerals have no leading zeros. -/
def term : (depth : Nat) → Reader Term
  | 0 => fail
  | depth + 1 => do
    let t ← next
    if t.kind = .number ∧ Text.ofNat (Text.toNat t.value) = t.value then
      return .numeral (Text.toNat t.value)
    if t.kind = .variable then return .variable t.value
    if t.kind = .identifier then return .apply t.value (← arguments n (term depth))
    fail

/-- The name of a sort. -/
def sort : Reader Domain := do
  if ← accept (sortText .integer) then return .integer
  if ← accept (sortText .program) then return .program
  fail

/-- A variable with its sort. -/
def parameter : Reader (Text × Domain) := do
  let t ← next
  if t.kind = .variable then
    expect ":"
    return (t.value, ← sort)
  fail

/-- The sign of a quantifier, if there is one. -/
def quantifier? : Reader (Option Quantifier) := do
  if ← accept (quantifierText .existential) then return some .existential
  if ← accept (quantifierText .universal) then return some .universal
  return none

/-- The sign of a connective, if there is one. -/
def connective? : Reader (Option Connective) := do
  if ← accept "&" then return some .and
  if ← accept "|" then return some .or
  if ← accept "=>" then return some .implies
  if ← accept "<=>" then return some .iff
  return none

/-- A term as a formula: a truth value or an atom. -/
def atomOf : Term → Reader Formula
  | .apply name args =>
    if args.isEmpty ∧ name = "$true" then return .truth true
    else if args.isEmpty ∧ name = "$false" then return .truth false
    else return .atom name args
  | _ => fail

/-- An equation that starts with a term, or the term as a formula. -/
def equationOf (left : Term) : Reader Formula := do
  if ← accept "=" then return .equation true left (← term n n)
  if ← accept "!=" then return .equation false left (← term n n)
  atomOf left

/-- An atom or, if it may be one, an equation. -/
def atomic (mayEquate : Bool) : Reader Formula := do
  let left ← term n n
  if mayEquate then equationOf n left else atomOf left

/-- The units after the first sign of a connective. -/
def joinedUnits (unit : Reader Formula) : Connective → Reader (List Formula)
  | .and => oneOrMore unit (accept "&") n
  | .or => oneOrMore unit (accept "|") n
  | .implies | .iff => return [← unit]

/-- What comes after an opening parenthesis. -/
def parenthesized (unit : Reader Formula) : Reader Formula := do
  let f ← unit
  match ← connective? with
  | none =>
    expect ")"
    return .group f
  | some connective =>
    let rest ← joinedUnits n unit connective
    expect ")"
    return .chain connective (f :: rest)

/-- A unit, nested at most `depth` deep, which may be an equation or not. -/
def unit : (depth : Nat) → (mayEquate : Bool) → Reader Formula
  | 0, _ => fail
  | depth + 1, mayEquate => do
    if ← accept "~" then return .not (← unit depth false)
    if ← accept "(" then return (← parenthesized n (unit depth true))
    match ← quantifier? with
    | none => atomic n mayEquate
    | some quantifier =>
      expect "["
      let params ← oneOrMore parameter (accept ",") n
      expect "]"
      expect ":"
      return .quantified quantifier params (← unit depth true)

/-- A unit with nothing after it. -/
def whole : Reader Formula := do
  let f ← unit n n true
  unless ← Parser.atEnd do fail
  return f

end

/-- The tokens of a text, ended by the end token. -/
def tokens (t : Text) : List Token :=
  (wordsOf t).map (fun w => ⟨w.1, w.2, .unknown⟩) ++ [⟨.endOfInput, [], .unknown⟩]

end Grammar

/-- A word of a class, written with the bytes of words. -/
def IsWord (kind : Token.Kind) (name : Text) : Prop :=
  Lexeme.kindOf name = kind ∧ ∀ b ∈ name, Lexeme.isWordByte b = true

/-- The names of a term can be written. -/
inductive Term.Grammatical : Term → Prop
  | numeral (k : Nat) : Grammatical (.numeral k)
  | var {name : Text} (h : IsWord .variable name) : Grammatical (.variable name)
  | apply {function : Text} {args : List Term} (h : IsWord .identifier function)
    (hargs : ∀ t ∈ args, t.Grammatical) : Grammatical (.apply function args)

/-- Whether a formula is written as an equation. -/
def Formula.isEquation : Formula → Bool
  | .equation _ _ _ => true
  | _ => false

/-- How many formulas a connective joins. -/
def Connective.Joins : Connective → Nat → Prop
  | .and, k | .or, k => 2 ≤ k
  | .implies, k | .iff, k => k = 2

/-- A formula follows the grammar. -/
inductive Formula.Grammatical : Formula → Prop
  | truth (b : Bool) : Grammatical (.truth b)
  | atom {predicate : Text} {args : List Term} (h : IsWord .identifier predicate)
    (htruth : predicate ∉ [Text.ofString "$true", "$false"])
    (hargs : ∀ t ∈ args, t.Grammatical) : Grammatical (.atom predicate args)
  | equation {positive : Bool} {left right : Term} (hl : left.Grammatical)
    (hr : right.Grammatical) : Grammatical (.equation positive left right)
  | not {arg : Formula} (h : arg.Grammatical) (hequation : arg.isEquation = false) :
    Grammatical (.not arg)
  | group {arg : Formula} (h : arg.Grammatical) : Grammatical (.group arg)
  | chain {connective : Connective} {args : List Formula} (hjoins : connective.Joins args.length)
    (hargs : ∀ f ∈ args, f.Grammatical) : Grammatical (.chain connective args)
  | quantified {q : Quantifier} {params : List (Text × Domain)} {body : Formula} (hne : params ≠ [])
    (hparams : ∀ p ∈ params, IsWord .variable p.1) (h : body.Grammatical) :
    Grammatical (.quantified q params body)

mutual

/-- The words of a term. -/
def Term.words : Term → List Word
  | .numeral k => [(.number, Text.ofNat k)]
  | .variable name => [(.variable, name)]
  | .apply function args => applied function (Term.wordsOfAll args)

/-- The words of several terms. -/
def Term.wordsOfAll : List Term → List (List Word)
  | [] => []
  | t :: rest => t.words :: Term.wordsOfAll rest

end

theorem Term.wordsOfAll_eq_map (ts : List Term) : Term.wordsOfAll ts = ts.map Term.words :=
  eq_map_of_cons rfl (fun _ _ => rfl) ts

/-- The words of a variable with its sort. -/
def parameterWords (p : Text × Domain) : List Word :=
  [(.variable, p.1), mark ":", (.identifier, sortText p.2)]

mutual

/-- The words of a formula. -/
def Formula.words : Formula → List Word
  | .truth b => [(.identifier, if b then "$true" else "$false")]
  | .atom predicate args => applied predicate (Term.wordsOfAll args)
  | .equation positive left right =>
    left.words ++ mark (if positive then "=" else "!=") :: right.words
  | .not arg => mark "~" :: arg.words
  | .group arg => mark "(" :: arg.words ++ [mark ")"]
  | .chain connective args =>
    mark "(" :: joined connective.mark (Formula.wordsOfAll args) ++ [mark ")"]
  | .quantified q params body => mark (quantifierText q) :: mark "[" ::
      joined (mark ",") (params.map parameterWords) ++ mark "]" :: mark ":" :: body.words

/-- The words of several formulas. -/
def Formula.wordsOfAll : List Formula → List (List Word)
  | [] => []
  | f :: rest => f.words :: Formula.wordsOfAll rest

end

theorem Formula.wordsOfAll_eq_map (fs : List Formula) :
    Formula.wordsOfAll fs = fs.map Formula.words := eq_map_of_cons rfl (fun _ _ => rfl) fs

theorem IsWord.scans {kind : Token.Kind} {name : Text} (h : IsWord kind name)
    (hkind : kind ≠ .directive) : Scans name [(kind, name)] := by
  have hne : name ≠ [] := by
    rintro rfl
    exact hkind h.1.symm
  rw [← h.1]
  exact scans_word hne h.2

theorem isWord_ofNat (k : Nat) : IsWord .number (Text.ofNat k) := by
  have hdigits := Text.ofNat_isDigit k
  refine ⟨?_, fun b hb => ?_⟩
  · obtain ⟨b, r, hr⟩ := exists_cons_of_ne_nil (Text.ofNat_ne_nil k)
    rw [hr] at hdigits ⊢
    simp [Lexeme.kindOf, hdigits b mem_cons_self]
  · simp [Lexeme.isWordByte, hdigits b hb]

theorem scans_application {name : Text} {ts : List Text} {wss : List (List Word)}
    (hname : IsWord .identifier name) (h : Forall₂ Scans ts wss) :
    Scans (application name ts) (applied name wss) := by
  have hscans := hname.scans (by decide)
  cases h with
  | nil => exact hscans
  | cons ht hts =>
    have hall := (hscans.between marks_open
      (scans_join marks_comma (.cons ht hts) (cons_ne_nil _ _))).before marks_close
    simpa [application, applied, listed] using hall

theorem Term.scans_texts {ts : List Term} (h : ∀ t ∈ ts, Scans t.text t.words) :
    Forall₂ Scans (Term.texts ts) (Term.wordsOfAll ts) := by
  induction ts with
  | nil => exact .nil
  | cons t ts ih =>
    rw [forall_mem_cons] at h
    exact .cons h.1 (ih h.2)

/-- The text of a term is scanned as its words. -/
theorem Term.Grammatical.scans (ht : t.Grammatical) : Scans t.text t.words := by
  induction ht with
  | numeral k => exact (isWord_ofNat k).scans (by decide)
  | var h => exact h.scans (by decide)
  | apply h _ ih => exact scans_application h (Term.scans_texts ih)

theorem scans_parameter {p : Text × Domain} (hp : IsWord .variable p.1) :
    Scans (p.1 ++ ": " ++ sortText p.2) (parameterWords p) := by
  have hsort : Scans (sortText p.2) [(.identifier, sortText p.2)] := by
    cases p.2 with
    | integer | program => exact IsWord.scans ⟨rfl, by decide +kernel⟩ (by decide)
  exact (hp.scans (by decide)).between marks_colon hsort

theorem Formula.scans_texts (h : ∀ f ∈ fs, Scans f.text f.words) :
    Forall₂ Scans (Formula.texts fs) (Formula.wordsOfAll fs) := by
  induction fs with
  | nil => exact .nil
  | cons f fs ih =>
    rw [forall_mem_cons] at h
    exact .cons h.1 (ih h.2)

/-- The words of a printed formula. -/
theorem Formula.Grammatical.scans (hf : f.Grammatical) : Scans f.text f.words := by
  induction hf with
  | truth b =>
    cases b with
    | true | false => exact IsWord.scans ⟨rfl, by decide +kernel⟩ (by decide)
  | atom h _ hargs => exact scans_application h (Term.scans_texts fun t ht => (hargs t ht).scans)
  | @equation positive _ _ hl hr =>
    cases positive with
    | true => simpa [Formula.text, Formula.words] using hl.scans.between marks_equal hr.scans
    | false => simpa [Formula.text, Formula.words] using hl.scans.between marks_different hr.scans
  | not _ _ ih => exact marks_not.before ih
  | group _ ih => exact (marks_open.before ih).before marks_close
  | @chain connective args hjoins _ ih =>
    have hne : Formula.texts args ≠ [] := by
      rintro h
      cases args with
      | nil => cases connective <;> cases hjoins
      | cons f args => cases h
    have hjoin := scans_join (marks_connective connective) (Formula.scans_texts ih) hne
    exact (marks_open.before hjoin).before marks_close
  | @quantified q params _ hne hparams _ ih =>
    have hlist : Forall₂ Scans (params.map fun p => p.1 ++ ": " ++ sortText p.2)
        (params.map parameterWords) := by
      rw [forall₂_map_left_iff, forall₂_map_right_iff, forall₂_same]
      exact fun p hp => scans_parameter (hparams p hp)
    have hjoin := scans_join marks_comma hlist (by simpa using hne)
    have hall := ((marks_quantifier q).before hjoin).between marks_parameters_end ih
    simpa [Formula.text, Formula.words, append_assoc] using hall

namespace Grammar

variable {n depth : Nat} {rest : List Word} {U : Reader Formula}

/-- The next word opens no arguments and is no sign of an equation. -/
structure Ends (rest : List Word) : Prop where
  opening : isWord (first rest) "(" = false
  equal : isWord (first rest) "=" = false
  different : isWord (first rest) "!=" = false

theorem reads_expect {text : Text} (rest : List Word) :
    Reads (expect text) () (mark text :: rest) () () rest :=
  .accept_cons (by simp [isWord]) .done

/-- Items with marks between them, where all members of a list can be read. -/
theorem reads_separated {ξ : Type} {item : Reader ξ} {words : ξ → List Word} {t : Text}
    {E : List Word → Prop} {x : ξ} {xs : List ξ}
    (hitem : ∀ y ∈ x :: xs, ∀ rest, E rest → Reads item () (words y ++ rest) y () rest)
    (hbetween : ∀ rest, E (mark t :: rest)) (hrest : E rest)
    (hend : isWord (first rest) t = false) (hn : xs.length ≤ n) :
    Reads (oneOrMore item (accept t) n) ()
      (joined (mark t) ((x :: xs).map words) ++ rest) (x :: xs) () rest := by
  have hall := Reads.separated hitem (Reads.accepts (by simp [isWord]) ()) hbetween hrest
      (.declines hend ()) hn
  rwa [map_id'] at hall

/-- A list of items is no longer than their words with marks between them. -/
theorem length_le_of_joined {ξ : Type} {words : ξ → List Word} {w : Word} {x : ξ} {xs : List ξ} {m : Nat}
    (h : (joined w ((x :: xs).map words)).length ≤ m) : xs.length ≤ m := by
  have hle := Token.length_le_length_joined (w := w) ((x :: xs).map words)
  rw [length_map, length_cons] at hle
  omega

theorem length_listed_cons {x : List Word} {xs : List (List Word)} :
    (listed (x :: xs)).length = (joined (mark ",") (x :: xs)).length + 2 := by
  simp [listed]

theorem reads_arguments {T : Reader Term} {args : List Term}
    (hT : ∀ t ∈ args, ∀ rest, isWord (first rest) "(" = false → Reads T () (t.words ++ rest) t () rest)
    (hn : (listed (args.map Term.words)).length ≤ n + 2) (hrest : isWord (first rest) "(" = false) :
    Reads (arguments n T) () (listed (args.map Term.words) ++ rest) args () rest := by
  cases args with
  | nil => exact .accept_not hrest .done
  | cons x xs =>
    have hlisted : listed ((x :: xs).map Term.words) ++ rest = mark "(" ::
        (joined (mark ",") ((x :: xs).map Term.words) ++ mark ")" :: rest) := by
      simp [listed]
    have hrounds : xs.length ≤ n := by
      rw [map_cons, length_listed_cons, ← map_cons] at hn
      exact length_le_of_joined (Nat.le_of_add_le_add_right hn)
    have hitems : Reads (oneOrMore T (accept ",") n) ()
        (joined (mark ",") ((x :: xs).map Term.words) ++ mark ")" :: rest) (x :: xs) ()
        (mark ")" :: rest) :=
      reads_separated (E := fun rest => isWord (first rest) "(" = false) hT (fun _ => rfl) rfl rfl hrounds
    rw [hlisted]
    exact .accept_cons rfl (hitems.bind ((reads_expect rest).bind .done))

theorem reads_no_connective (rest : List Word) :
    Reads connective? () (mark ")" :: rest) none () (mark ")" :: rest) :=
  .accept_not rfl ((Reads.declines rfl ()).bind
    (.accept_not rfl ((Reads.declines rfl ()).bind .done)))

theorem ends_close (rest : List Word) : Ends (mark ")" :: rest) := ⟨rfl, rfl, rfl⟩

/-- A formula in parentheses. -/
theorem reads_group (hU : ∀ rest, Ends rest → Reads U () (f.words ++ rest) f () rest) :
    Reads (parenthesized n U) () (f.words ++ mark ")" :: rest) (.group f) () rest :=
  (hU _ (ends_close rest)).bind ((reads_no_connective rest).bind
    ((reads_expect rest).bind .done))

end Grammar

end LogicProgram.Tff
