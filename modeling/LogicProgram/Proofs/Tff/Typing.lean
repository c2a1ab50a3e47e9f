import LogicProgram.Proofs.Rendering.Human
import LogicProgram.Proofs.Tff.Grammar
import LogicProgram.Proofs.Tff.Semantics

/-!
# Sorts in proof problems

A proof problem declares a type for each of its symbols. A formula is well sorted if
every symbol that it uses is declared once, and is applied to terms of the sorts that
its type asks for.
-/

namespace LogicProgram

open List

namespace Registry

/-- The sort of the values of a function. -/
def functionSort (r : Registry) (s : Symbol) : Domain :=
  ((r.function? s).bind (·.domain)).getD .program

/-- The sort of a term. What an operator gives is an integer. -/
def sortOf (r : Registry) : Term → Domain
  | .integer _ | .binary _ _ _ | .unary _ _ => .integer
  | .variable v => (r.variableDomain v).getD .program
  | .function name args => r.functionSort ⟨name, args.length⟩
  | .boolean _ | .string _ | .infimum | .supremum | .interval _ _ => .program

end Registry

namespace Formula

/-- The predicate of an atom. -/
def predicateSymbol? : Formula → Option Symbol
  | .atom name args => some ⟨name, args.length⟩
  | _ => none

/-- The predicates of a formula. -/
def predicateSymbols (f : Formula) : List Symbol := f.subformulas.filterMap predicateSymbol?

end Formula

/-- The function that a term applies. -/
def Term.functionSymbol? : Term → Option Symbol
  | .function name args => some ⟨name, args.length⟩
  | _ => none

/-- The functions of a formula, constants among them. -/
def Formula.functionSymbols (f : Formula) : List Symbol := f.subterms.filterMap Term.functionSymbol?

namespace Tff

/-- The type of a symbol. -/
structure SymbolType where
  arguments : List Domain
  /-- The sort of the value; a predicate has none. -/
  result : Option Domain
deriving DecidableEq, Repr

namespace SymbolType

/-- A predicate of objects. -/
def predicate (arity : Nat) : SymbolType := ⟨List.replicate arity .program, none⟩

/-- A function of objects. -/
def function (arity : Nat) (sort : Domain) : SymbolType := ⟨List.replicate arity .program, some sort⟩

end SymbolType

/-- The types of symbols. -/
abbrev Signature := List (Text × SymbolType)

namespace Signature

/-- A name has one type. -/
def Declares (S : Signature) (name : Text) (T : SymbolType) : Prop :=
  (name, T) ∈ S ∧ ∀ T', (name, T') ∈ S → T' = T

end Signature

/-- The symbols of arithmetic, which need no declaration. -/
def arithmetic : Signature :=
  [("$sum", ⟨[.integer, .integer], some .integer⟩), ("$difference", ⟨[.integer, .integer], some .integer⟩),
    ("$product", ⟨[.integer, .integer], some .integer⟩), ("$uminus", ⟨[.integer], some .integer⟩),
    ("$less", ⟨[.integer, .integer], none⟩), ("$lesseq", ⟨[.integer, .integer], none⟩),
    ("$greater", ⟨[.integer, .integer], none⟩), ("$greatereq", ⟨[.integer, .integer], none⟩)]

/-- The symbols of the background theory. -/
def Background.signature : Signature :=
  [("f__integer__", ⟨[.integer], some .program⟩), ("c__infimum__", ⟨[], some .program⟩),
    ("c__supremum__", ⟨[], some .program⟩), ("p__is_integer__", ⟨[.program], none⟩),
    ("p__is_symbolic__", ⟨[.program], none⟩), ("p__less_equal__", ⟨[.program, .program], none⟩),
    ("p__less__", ⟨[.program, .program], none⟩), ("p__greater_equal__", ⟨[.program, .program], none⟩),
    ("p__greater__", ⟨[.program, .program], none⟩)]

/-- The symbols that every proof problem knows. -/
def builtIn : Signature := arithmetic ++ Background.signature

/-- The names of the background theory, that of the sort of objects among them. -/
def Background.names : List Text := sortText .program :: Background.signature.map (·.1)

/-- The sorts of the variables in scope. -/
abbrev Context := Text → Option Domain

/-- A scope with the variables of a quantifier. -/
def Context.bind (Γ : Context) : List (Text × Domain) → Context
  | [] => Γ
  | (name, domain) :: rest => Context.bind (Function.update Γ name (some domain)) rest

/-- A term has a sort. -/
inductive Term.HasSort (S : Signature) (Γ : Context) : Term → Domain → Prop
  | numeral (k : Nat) : Term.HasSort S Γ (.numeral k) .integer
  /-- Variables have the sorts that they are bound with. -/
  | var {name : Text} {d : Domain} (h : Γ name = some d) : Term.HasSort S Γ (.variable name) d
  /-- Arguments are as the type of a function asks for. -/
  | apply {name : Text} {args : List Term} {ds : List Domain} {d : Domain}
    (hname : S.Declares name ⟨ds, some d⟩) (hargs : Forall₂ (Term.HasSort S Γ) args ds) :
    Term.HasSort S Γ (.apply name args) d

universe u

variable {Object : Type u} {M : Interpretation Object} {S : Signature}

/-- Functions take values of the sorts that are declared. -/
def Interpretation.Typed (M : Interpretation Object) (S : Signature) : Prop :=
  ∀ name ds d vs, S.Declares name ⟨ds, some d⟩ → Forall₂ Value.HasSort vs ds →
    (M.function name vs).HasSort d

theorem Term.values_eq_map (M : Interpretation Object) (τ : Text → Value Object) (ts : List Term) :
    Term.values M τ ts = ts.map (·.value M τ) := eq_map_of_cons rfl (fun _ _ => rfl) ts

/-- Induction over sorted terms, with the statement for all arguments. -/
@[elab_as_elim]
theorem Term.HasSort.inductionOn {Γ : Context} {P : Term → Domain → Prop} {t : Term} {d : Domain}
    (h : t.HasSort S Γ d) (numeral : ∀ k, P (.numeral k) .integer)
    (var : ∀ name d, Γ name = some d → P (.variable name) d)
    (apply : ∀ name args ds d, S.Declares name ⟨ds, some d⟩ → Forall₂ P args ds → P (.apply name args) d) :
    P t d :=
  @Term.HasSort.rec S Γ (fun t d _ => P t d) (fun ts ds _ => Forall₂ P ts ds) numeral (var _ _)
    (fun hname _ hargs => apply _ _ _ _ hname hargs) .nil (fun _ _ ht hts => .cons ht hts) t d h

/-- The value of a term has its sort. -/
theorem Term.HasSort.value {Γ : Context} {t : Term} {d : Domain} (h : t.HasSort S Γ d)
    (hM : M.Typed S) {τ : Text → Value Object}
    (hτ : ∀ name domain, Γ name = some domain → (τ name).HasSort domain) :
    (t.value M τ).HasSort d := by
  refine h.inductionOn (fun k => rfl) hτ fun name args ds d hname hargs => hM _ _ _ _ hname ?_
  rw [Term.values_eq_map, forall₂_map_left_iff]
  exact hargs

end Tff

/-- The types of all symbols that are known in the proof problem of a formula. -/
def Formula.signature (r : Registry) (f : Formula) : Tff.Signature :=
  Tff.builtIn ++ f.predicateSymbols.map (fun p => (p.name, .predicate p.arity))
    ++ f.functionSymbols.map (fun s => (s.name, .function s.arity (r.functionSort s)))

/-- The built-in symbols have their types, and all symbols have names that can be written. -/
structure Tff.Signature.Proper (S : Tff.Signature) : Prop where
  /-- The symbols of arithmetic and of the background theory. -/
  builtIn : ∀ p ∈ builtIn, S.Declares p.1 p.2
  /-- Names are words, but not those of truth values. -/
  word : ∀ p ∈ S, IsWord .identifier p.1 ∧ p.1 ∉ [Text.ofString "$true", "$false"]

namespace Formula.NamesApart

open Tff (builtIn)

variable {f : Formula} {r : Registry} {s : Symbol} {T : Tff.SymbolType}

end Formula.NamesApart

end LogicProgram
