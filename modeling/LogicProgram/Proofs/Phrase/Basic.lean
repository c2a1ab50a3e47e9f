import LogicProgram.Proofs.Phrase.Lookahead

/-!
# Phrases

A phrase is a term or a formula as it is written: with its parentheses, and with names
for its variables. It has words, and in scopes that say what names stand for it has a
meaning, in which a name stands for the variable that the innermost quantifier around
it lists under that name. `Formed` says which phrases the language has.
-/

namespace LogicProgram

open List
open Token (mark listed applied joined first isWord IsIdentifier)

/-- What a name stands for: what the innermost scope that lists it gives. -/
def Scope.find? (scopes : List Scope) (name : Text) : Option Variable :=
  scopes.findSome? (·.lookup name)

/-- The variable that a name stands for, where it stands for one. -/
def Scope.resolve (scopes : List Scope) (name : Text) : Variable := (Scope.find? scopes name).getD 0

theorem Scope.find?_cons (scope : Scope) (scopes : List Scope) (name : Text) :
    Scope.find? (scope :: scopes) name = (scope.lookup name).or (Scope.find? scopes name) := by
  rw [find?, findSome?_cons]
  cases scope.lookup name <;> rfl

/-- A term as it is written. -/
inductive TermPhrase where
  | numeral (digits : Text)
  /-- A number after a minus sign that belongs to it. -/
  | negativeNumeral (digits : Text)
  | string (value : Text)
  | constant (name : Text)
  | variable (name : Text)
  | function (name : Text) (args : List TermPhrase)
  | group (inner : TermPhrase)
  | absolute (inner : TermPhrase)
  | negative (inner : TermPhrase)
  | binary (op : Term.Operator) (left right : TermPhrase)

/-- The special constant of a name. -/
def Term.special? (name : Text) : Option Term :=
  if name == "inf" || name == "infimum" then some .infimum
  else if name == "sup" || name == "supremum" then some .supremum
  else if name == "true" then some (.boolean true)
  else if name == "false" then some (.boolean false)
  else none

namespace TermPhrase

mutual

/-- The words of a phrase. -/
def words : TermPhrase → List Word
  | .numeral digits => [(.number, digits)]
  | .negativeNumeral digits => [mark "-", (.number, digits)]
  | .string value => [(.string, value)]
  | .constant name => [(.directive, name)]
  | .variable name => [(.variable, name)]
  | .function name args => applied name (wordsOfAll args)
  | .group inner => mark "(" :: inner.words ++ [mark ")"]
  | .absolute inner => mark "|" :: inner.words ++ [mark "|"]
  | .negative inner => mark "-" :: inner.words
  | .binary op left right => left.words ++ mark op.text :: right.words

/-- The words of several phrases. -/
def wordsOfAll : List TermPhrase → List (List Word)
  | [] => []
  | t :: rest => t.words :: wordsOfAll rest

end

mutual

/-- The names in a phrase, once for each occurrence, from left to right. -/
def names : TermPhrase → List Text
  | .variable name => [name]
  | .function _ args => namesOfAll args
  | .group inner | .absolute inner | .negative inner => inner.names
  | .binary _ left right => left.names ++ right.names
  | .numeral _ | .negativeNumeral _ | .string _ | .constant _ => []

/-- The names in several phrases. -/
def namesOfAll : List TermPhrase → List Text
  | [] => []
  | t :: rest => t.names ++ namesOfAll rest

end

mutual

/-- The term that a phrase means in some scopes. -/
def term (scopes : List Scope) : TermPhrase → Term
  | .numeral digits => .integer (Text.toNat digits)
  | .negativeNumeral digits => .integer (-(Text.toNat digits : Int))
  | .string value => .string value
  | .constant name => (Term.special? name).getD .infimum
  | .variable name => .variable (Scope.resolve scopes name)
  | .function name args => .function name (termOfAll scopes args)
  | .group inner => inner.term scopes
  | .absolute inner => .unary .absolute (inner.term scopes)
  | .negative inner => .unary .negative (inner.term scopes)
  | .binary op left right => .binary op (left.term scopes) (right.term scopes)

/-- The terms that several phrases mean. -/
def termOfAll (scopes : List Scope) : List TermPhrase → List Term
  | [] => []
  | t :: rest => t.term scopes :: termOfAll scopes rest

end

theorem wordsOfAll_eq_map (ts : List TermPhrase) : wordsOfAll ts = ts.map words :=
  eq_map_of_cons rfl (fun _ _ => rfl) ts

theorem namesOfAll_eq_flatMap (ts : List TermPhrase) : namesOfAll ts = ts.flatMap names :=
  eq_flatMap_of_append rfl (fun _ _ => rfl) ts

theorem termOfAll_eq_map (scopes : List Scope) (ts : List TermPhrase) :
    termOfAll scopes ts = ts.map (term scopes) := eq_map_of_cons rfl (fun _ _ => rfl) ts

/-- How weakly the operator of a phrase binds, as for printed terms. -/
def level : TermPhrase → Nat
  | .negativeNumeral _ | .negative _ => 1
  | .binary op _ _ => Human.operatorLevel op
  | _ => 0

/-- The phrases that the language has. -/
inductive Formed : TermPhrase → Prop
  | numeral {digits : Text} (h : Text.toNat digits < 2147483648) : Formed (.numeral digits)
  | negativeNumeral {digits : Text} (h : Text.toNat digits ≤ 2147483648) :
    Formed (.negativeNumeral digits)
  | string (value : Text) : Formed (.string value)
  | constant {name : Text} (h : (Term.special? name).isSome) : Formed (.constant name)
  | variable (name : Text) : Formed (.variable name)
  | function {name : Text} {args : List TermPhrase} (hname : IsIdentifier name)
    (hargs : ∀ t ∈ args, Formed t) : Formed (.function name args)
  | group {inner : TermPhrase} (h : Formed inner) : Formed (.group inner)
  | absolute {inner : TermPhrase} (h : Formed inner) : Formed (.absolute inner)
  /-- A minus sign before a number would belong to it. -/
  | negative {inner : TermPhrase} (h : Formed inner) (hlevel : inner.level ≤ 1)
    (hnumeral : ∀ digits, inner ≠ .numeral digits) : Formed (.negative inner)
  /-- Operators group to the left. -/
  | binary {op : Term.Operator} {left right : TermPhrase} (hop : op ≠ .power) (hl : Formed left)
    (hr : Formed right) (hleft : left.level ≤ Human.operatorLevel op)
    (hright : right.level < Human.operatorLevel op) : Formed (.binary op left right)

theorem words_ne_nil (t : TermPhrase) : t.words ≠ [] := by
  cases t with
  | binary op left right => exact append_ne_nil_of_right_ne_nil _ (cons_ne_nil _ _)
  | _ => exact cons_ne_nil _ _

/-- The meaning depends on what the names in the phrase stand for. -/
theorem term_congr {t : TermPhrase} (ht : t.Formed) {scopes scopes' : List Scope}
    (h : ∀ name ∈ t.names, Scope.find? scopes name = Scope.find? scopes' name) :
    t.term scopes = t.term scopes' := by
  induction ht with
  | «variable» name =>
    have hname := h name (mem_singleton_self name)
    rw [term, term, Scope.resolve, Scope.resolve, hname]
  | @function name args _ _ ih =>
    rw [names, namesOfAll_eq_flatMap] at h
    rw [term, term, termOfAll_eq_map, termOfAll_eq_map]
    refine congrArg _ (map_congr_left fun t ht => ih t ht fun x hx => h x ?_)
    exact mem_flatMap.mpr ⟨t, ht, hx⟩
  | group _ ih => exact ih h
  | absolute _ ih => exact congrArg (Term.unary .absolute) (ih h)
  | negative _ _ _ ih => exact congrArg (Term.unary .negative) (ih h)
  | binary _ _ _ _ _ ihl ihr =>
    obtain ⟨hl, hr⟩ := forall_mem_append.mp h
    rw [term, term, ihl hl, ihr hr]
  | _ => rfl

end TermPhrase

/-- A formula as it is written. A quantifier carries the variables that its names stand for. -/
inductive FormulaPhrase where
  /-- A truth value, possibly as a directive. -/
  | truth (directive value : Bool)
  | group (inner : FormulaPhrase)
  | atom (name : Text) (args : List TermPhrase)
  /-- Comparisons in a row. -/
  | chain (left : TermPhrase) (links : List (Comparison × TermPhrase))
  | not (inner : FormulaPhrase)
  | quantified (q : Quantifier) (params : Scope) (body : FormulaPhrase)
  /-- Formulas with a connective between them. -/
  | join (connective : Connective) (args : List FormulaPhrase)
  | implies (left right : FormulaPhrase)
  | impliedBy (left right : FormulaPhrase)

/-- The word of a connective. -/
def Token.connective : Connective → Word
  | .and => (.identifier, "and")
  | .or => (.identifier, "or")
  | .iff => mark "<->"

/-- The word of a quantifier. -/
def Token.quantifier (q : Quantifier) : Word := (.identifier, Human.quantifierText q)

/-- The words of a truth value. -/
def Token.truthWord (directive value : Bool) : Word :=
  (if directive then .directive else .identifier, if value then "true" else "false")

/-- A word that starts something else than a comparison or a predicate. -/
def Token.isReserved (w : Word) : Bool :=
  isWord w "not" || isWord w "forall" || isWord w "exists" || isWord w "true" || isWord w "false"
    || (w.1 == .directive && (w.2 == "true" || w.2 == "false"))

namespace FormulaPhrase

/-- The words of the comparisons after the first term. -/
def linkWords (links : List (Comparison × TermPhrase)) : List Word :=
  links.flatMap fun link => mark link.1.text :: link.2.words

/-- The comparisons that follow a term. -/
def comparisons (left : Term) : List (Comparison × Term) → List Formula
  | [] => []
  | (op, right) :: rest => .compare op left right :: comparisons right rest

mutual

/-- The words of a phrase. -/
def words : FormulaPhrase → List Word
  | .truth directive value => [Token.truthWord directive value]
  | .group inner => mark "(" :: inner.words ++ [mark ")"]
  | .atom name args => applied name (args.map (·.words))
  | .chain left links => left.words ++ linkWords links
  | .not inner => (.identifier, "not") :: inner.words
  | .quantified q params body =>
    Token.quantifier q :: (params.map fun x => (.variable, x.1)) ++ body.words
  | .join connective args => joined (Token.connective connective) (wordsOfAll args)
  | .implies left right => left.words ++ mark "->" :: right.words
  | .impliedBy left right => left.words ++ mark "<-" :: right.words

/-- The words of several phrases. -/
def wordsOfAll : List FormulaPhrase → List (List Word)
  | [] => []
  | f :: rest => f.words :: wordsOfAll rest

end

mutual

/-- The names in a phrase that no quantifier around them lists, once for each occurrence, from left
to right. -/
def freeNames : FormulaPhrase → List Text
  | .truth _ _ => []
  | .atom _ args => args.flatMap (·.names)
  | .chain left links => left.names ++ links.flatMap (·.2.names)
  | .group inner | .not inner => inner.freeNames
  | .quantified _ params body => body.freeNames.filter fun name => (params.lookup name).isNone
  | .join _ args => freeNamesOfAll args
  | .implies left right | .impliedBy left right => left.freeNames ++ right.freeNames

/-- The names in several phrases that no quantifier lists. -/
def freeNamesOfAll : List FormulaPhrase → List Text
  | [] => []
  | f :: rest => f.freeNames ++ freeNamesOfAll rest

end

mutual

/-- The formula that a phrase means in some scopes. -/
def formula (scopes : List Scope) : FormulaPhrase → Formula
  | .truth _ value => .boolean value
  | .group inner => inner.formula scopes
  | .atom name args => .atom name (args.map (·.term scopes))
  | .chain left links => FormulaParser.joinAll .and
      (comparisons (left.term scopes) (links.map fun link => (link.1, link.2.term scopes)))
  | .not inner => .not (inner.formula scopes)
  | .quantified q params body => .quantified q (params.map (·.2)) (body.formula (params :: scopes))
  | .join connective args => .join connective (formulaOfAll scopes args)
  | .implies left right => .implies (left.formula scopes) (right.formula scopes)
  | .impliedBy left right => .implies (right.formula scopes) (left.formula scopes)

/-- The formulas that several phrases mean. -/
def formulaOfAll (scopes : List Scope) : List FormulaPhrase → List Formula
  | [] => []
  | f :: rest => f.formula scopes :: formulaOfAll scopes rest

end

mutual

/-- The names that quantifiers list, with the variables that they stand for. -/
def params : FormulaPhrase → Scope
  | .group inner | .not inner => inner.params
  | .quantified _ params body => params ++ body.params
  | .join _ args => paramsOfAll args
  | .implies left right | .impliedBy left right => left.params ++ right.params
  | .truth _ _ | .atom _ _ | .chain _ _ => []

/-- The names that quantifiers of several phrases list. -/
def paramsOfAll : List FormulaPhrase → Scope
  | [] => []
  | f :: rest => f.params ++ paramsOfAll rest

end

mutual

/-- The phrase with no matter which variables. -/
def shape : FormulaPhrase → FormulaPhrase
  | .group inner => .group inner.shape
  | .not inner => .not inner.shape
  | .quantified q params body => .quantified q (params.map fun p => (p.1, 0)) body.shape
  | .join connective args => .join connective (shapeOfAll args)
  | .implies left right => .implies left.shape right.shape
  | .impliedBy left right => .impliedBy left.shape right.shape
  | .truth directive value => .truth directive value
  | .atom name args => .atom name args
  | .chain left links => .chain left links

/-- Several phrases with no matter which variables. -/
def shapeOfAll : List FormulaPhrase → List FormulaPhrase
  | [] => []
  | f :: rest => f.shape :: shapeOfAll rest

end

theorem shapeOfAll_eq_map (fs : List FormulaPhrase) : shapeOfAll fs = fs.map shape :=
  eq_map_of_cons rfl (fun _ _ => rfl) fs

theorem wordsOfAll_eq_map (fs : List FormulaPhrase) : wordsOfAll fs = fs.map words :=
  eq_map_of_cons rfl (fun _ _ => rfl) fs

theorem freeNamesOfAll_eq_flatMap (fs : List FormulaPhrase) :
    freeNamesOfAll fs = fs.flatMap freeNames := eq_flatMap_of_append rfl (fun _ _ => rfl) fs

theorem formulaOfAll_eq_map (scopes : List Scope) (fs : List FormulaPhrase) :
    formulaOfAll scopes fs = fs.map (formula scopes) := eq_map_of_cons rfl (fun _ _ => rfl) fs

theorem paramsOfAll_eq_flatMap (fs : List FormulaPhrase) : paramsOfAll fs = fs.flatMap params :=
  eq_flatMap_of_append rfl (fun _ _ => rfl) fs

/-- How weakly a connective binds, in the order of `Token.rank`. -/
def connectiveLevel : Connective → Nat
  | .and => 6
  | .or => 7
  | .iff => 10

/-- How weakly a phrase binds. An arrow to the left binds more tightly than one to the right,
since it cannot follow on one. -/
def level : FormulaPhrase → Nat
  | .join connective _ => connectiveLevel connective
  | .impliedBy _ _ => 8
  | .implies _ _ => 9
  | _ => 5

theorem level_shape (f : FormulaPhrase) : f.shape.level = f.level := by
  cases f <;> rfl

/-- The phrases that the language has. -/
inductive Formed : FormulaPhrase → Prop
  | truth (directive value : Bool) : Formed (.truth directive value)
  | group {inner : FormulaPhrase} (h : Formed inner) : Formed (.group inner)
  | atom {name : Text} {args : List TermPhrase} (hname : IsIdentifier name)
    (hreserved : Token.isReserved (.identifier, name) = false) (hargs : ∀ t ∈ args, t.Formed) :
    Formed (.atom name args)
  | chain {left : TermPhrase} {links : List (Comparison × TermPhrase)} (hleft : left.Formed)
    (hreserved : Token.isReserved (first left.words) = false) (hne : links ≠ [])
    (hlinks : ∀ link ∈ links, link.2.Formed) : Formed (.chain left links)
  | not {inner : FormulaPhrase} (h : Formed inner) (hlevel : inner.level ≤ 5) : Formed (.not inner)
  /-- A variable at the start of the body would be one more of the quantifier. -/
  | quantified {q : Quantifier} {params : Scope} {body : FormulaPhrase} (h : Formed body)
    (hlevel : body.level ≤ 5) (hne : params ≠ []) (hnames : (params.map (·.1)).Nodup)
    (hfirst : (first body.words).1 ≠ .variable) : Formed (.quantified q params body)
  | join {connective : Connective} {args : List FormulaPhrase} (hlength : 2 ≤ args.length)
    (hargs : ∀ f ∈ args, Formed f) (hlevel : ∀ f ∈ args, f.level < connectiveLevel connective) :
    Formed (.join connective args)
  | implies {left right : FormulaPhrase} (hl : Formed left) (hr : Formed right)
    (hleft : left.level ≤ 7) (hright : right.level ≤ 9) : Formed (.implies left right)
  | impliedBy {left right : FormulaPhrase} (hl : Formed left) (hr : Formed right)
    (hleft : left.level ≤ 8) (hright : right.level ≤ 7) : Formed (.impliedBy left right)

/-- The meaning depends on what the names stand for that no quantifier lists. -/
theorem formula_congr {f : FormulaPhrase} (hf : f.Formed) {scopes scopes' : List Scope}
    (h : ∀ name ∈ f.freeNames, Scope.find? scopes name = Scope.find? scopes' name) :
    f.formula scopes = f.formula scopes' := by
  induction hf generalizing scopes scopes' with
  | truth _ _ => rfl
  | group _ ih => exact ih h
  | @atom name args _ _ hargs =>
    refine congrArg (Formula.atom name) (map_congr_left fun t ht => ?_)
    exact TermPhrase.term_congr (hargs t ht) fun x hx => h x (mem_flatMap.mpr ⟨t, ht, hx⟩)
  | @chain left links hleft _ _ hlinks =>
    obtain ⟨hl, hr⟩ := forall_mem_append.mp h
    rw [formula, formula, TermPhrase.term_congr hleft hl]
    refine congrArg (fun links => FormulaParser.joinAll .and (comparisons _ links)) ?_
    refine map_congr_left fun link hlink => congrArg (Prod.mk link.1) ?_
    exact TermPhrase.term_congr (hlinks link hlink) fun x hx => hr x (mem_flatMap.mpr ⟨link, hlink, hx⟩)
  | not _ _ ih => exact congrArg Formula.not (ih h)
  | @quantified q params body _ _ _ _ _ ih =>
    refine congrArg (Formula.quantified q _) (ih fun name hname => ?_)
    rw [Scope.find?_cons, Scope.find?_cons]
    cases hlookup : params.lookup name with
    | some v => rfl
    | none => exact h name (mem_filter.mpr ⟨hname, by rw [hlookup]; rfl⟩)
  | @join connective args _ _ _ ih =>
    rw [freeNames, freeNamesOfAll_eq_flatMap] at h
    rw [formula, formula, formulaOfAll_eq_map, formulaOfAll_eq_map]
    refine congrArg _ (map_congr_left fun f hf => ih f hf fun x hx => h x ?_)
    exact mem_flatMap.mpr ⟨f, hf, hx⟩
  | implies _ _ _ _ ihl ihr | impliedBy _ _ _ _ ihl ihr =>
    obtain ⟨hl, hr⟩ := forall_mem_append.mp h
    rw [formula, formula, ihl hl, ihr hr]

end FormulaPhrase

end LogicProgram
