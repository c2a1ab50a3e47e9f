import LogicProgram.Proofs.Encoding.Attempts
import LogicProgram.Proofs.Phrase.Specification
import LogicProgram.Proofs.Problem.Reading
import LogicProgram.Proofs.Tff.Semantics
import LogicProgram.Verification
import Mathlib.Data.Sum.Order
import Mathlib.Order.WithBot

/-!
# A model of the background theory

A proof problem starts with axioms on the order of all objects, and says of the symbolic
constants of the program that they are symbolic and how they are ordered. From axioms
that contradict each other everything could be proven.
-/

namespace LogicProgram

open List

namespace Tff

universe u

/-- All axioms that proof problems over some declarations have in common: those of the
background theory, that constants are symbolic, and how they are ordered. -/
def theory (r : Registry) : List Annotated :=
  Background.axioms ++ r.symbolicConstants.map symbolicConstant ++ constantOrder r.symbolicConstants

/-- The objects that the background theory is meant for. -/
inductive Object (constants : List Text) where
  | infimum
  | integer (n : Int)
  | symbol (name : Text) (declared : name ∈ constants)
  | supremum

namespace Object

variable {constants : List Text}

/-- The place of an object in the order. Symbolic constants come in the order of the
list. -/
def place : Object constants → WithBot (WithTop (Int ⊕ₗ Nat))
  | infimum => ⊥
  | integer n => ((toLex (Sum.inl n) : Int ⊕ₗ Nat) : WithTop (Int ⊕ₗ Nat))
  | symbol name _ => ((toLex (Sum.inr (constants.idxOf name)) : Int ⊕ₗ Nat) : WithTop (Int ⊕ₗ Nat))
  | supremum => (⊤ : WithTop (Int ⊕ₗ Nat))

/-- Different objects have different places in the order. -/
theorem place_injective : Function.Injective (place : Object constants → _) := by
  intro a b h
  cases a <;> cases b <;> simp_all [place, idxOf_inj]

noncomputable instance : LinearOrder (Object constants) := LinearOrder.lift' place place_injective

theorem infimum_le (a : Object constants) : infimum ≤ a := by
  show place infimum ≤ place a
  exact bot_le

theorem le_supremum (a : Object constants) : a ≤ supremum := by
  show place a ≤ place supremum
  cases a <;> simp [place]

theorem integer_le_integer {m n : Int} : (integer m : Object constants) ≤ integer n ↔ m ≤ n := by
  show place (integer m) ≤ place (integer n) ↔ m ≤ n
  simp [place]

/-- Integers come before constants. -/
theorem integer_lt_symbol (n : Int) {name : Text} (h : name ∈ constants) :
    integer n < symbol name h := by
  show place (integer n) < place (symbol name h)
  simp [place]

/-- Constants are ordered as they are listed. -/
theorem symbol_lt_symbol {a b : Text} {ha : a ∈ constants} {hb : b ∈ constants} :
    symbol a ha < symbol b hb ↔ constants.idxOf a < constants.idxOf b := by
  show place (symbol a ha) < place (symbol b hb) ↔ _
  simp [place]

end Object

section Standard

variable (constants : List Text)

/-- The meaning of functions among the objects. -/
def standardFunction (name : Text) :
    List (Value (Object constants)) → Value (Object constants)
  | [] => .object <|
    if name = "c__infimum__" then .infimum
    else if name = "c__supremum__" then .supremum
    else if h : name ∈ constants then .symbol name h
    else .infimum
  | [.integer n] => if name = "$uminus" then .integer (-n) else .object (.integer n)
  | [.integer m, .integer n] => .integer <|
    if name = "$sum" then m + n else if name = "$difference" then m - n else m * n
  | _ => .object .infimum

/-- The meaning of predicates among the objects. -/
def standardPredicate (name : Text) : List (Value (Object constants)) → Prop
  | [.object a] =>
    if name = "p__is_integer__" then ∃ n, a = .integer n else ∃ c h, a = .symbol c h
  | [.object a, .object b] =>
    if name = "p__less_equal__" then a ≤ b
    else if name = "p__less__" then a < b
    else if name = "p__greater_equal__" then b ≤ a
    else b < a
  | [.integer m, .integer n] =>
    if name = "$less" then m < n
    else if name = "$lesseq" then m ≤ n
    else if name = "$greater" then n < m
    else n ≤ m
  | _ => False

/-- The interpretation that the background theory is meant for. -/
def standard : Interpretation (Object constants) where
  function := standardFunction constants
  predicate := standardPredicate constants
  ofInt := .integer
  infimum := .infimum
  supremum := .supremum
  function_embed := fun n => by simp +decide [standardFunction]
  function_infimum := by simp +decide [standardFunction]
  function_supremum := by simp +decide [standardFunction]
  function_sum := fun m n => by simp +decide [standardFunction]
  function_difference := fun m n => by simp +decide [standardFunction]
  function_product := fun m n => by simp +decide [standardFunction]
  function_uminus := fun n => by simp +decide [standardFunction]
  predicate_less := fun m n => by simp +decide [standardPredicate]
  predicate_lesseq := fun m n => by simp +decide [standardPredicate]
  predicate_greater := fun m n => by simp +decide [standardPredicate]
  predicate_greatereq := fun m n => by simp +decide [standardPredicate]

end Standard

section

variable {constants : List Text} {a b : Object constants}

theorem standard_isInteger :
    (standard constants).predicate "p__is_integer__" [.object a] ↔ ∃ n, a = .integer n := by
  simp [standard, standardPredicate]

theorem standard_isSymbolic :
    (standard constants).predicate "p__is_symbolic__" [.object a] ↔ ∃ c h, a = .symbol c h := by
  simp +decide [standard, standardPredicate]

theorem standard_lessEqual :
    (standard constants).predicate "p__less_equal__" [.object a, .object b] ↔ a ≤ b := by
  simp [standard, standardPredicate]

theorem standard_less :
    (standard constants).predicate "p__less__" [.object a, .object b] ↔ a < b := by
  simp +decide [standard, standardPredicate]

theorem standard_greaterEqual :
    (standard constants).predicate "p__greater_equal__" [.object a, .object b] ↔ b ≤ a := by
  simp +decide [standard, standardPredicate]

theorem standard_greater :
    (standard constants).predicate "p__greater__" [.object a, .object b] ↔ b < a := by
  simp +decide [standard, standardPredicate]

theorem standard_constant {c : Text} (hc : c ∈ constants) (hinfimum : c ≠ "c__infimum__")
    (hsupremum : c ≠ "c__supremum__") :
    (standard constants).function c [] = .object (.symbol c hc) := by
  simp [standard, standardFunction, hc, hinfimum, hsupremum]

end

section Axioms

open Background

attribute [local simp] Term.value Term.values Quantifies isInteger isSymbolic lessEqual less
  greaterEqual greater equal different Background.implies equivalent allObjects allIntegers named
  x y z n n1 n2 Background.infimum Background.supremum embed Interpretation.Satisfies
  Interpretation.function_embed Interpretation.function_infimum Interpretation.function_supremum
  Interpretation.predicate_lesseq standard_isInteger standard_isSymbolic standard_lessEqual
  standard_less standard_greaterEqual standard_greater

/-- What the axioms on sorts say. -/
theorem satisfies_sorts_iff {α : Type u} {M : Interpretation α} :
    (∀ f ∈ sorts, M.Satisfies f.formula) ↔
      (∀ a, M.predicate "p__is_integer__" [.object a] ↔ ∃ n, a = M.ofInt n) ∧
      (∀ a, M.predicate "p__is_symbolic__" [.object a] ↔
        ¬ M.predicate "p__is_integer__" [.object a] ∧ a ≠ M.infimum ∧ a ≠ M.supremum) ∧
      M.infimum ≠ M.supremum ∧ ∀ m n, M.ofInt m = M.ofInt n → m = n := by
  simp +decide [sorts]

/-- What the axioms on order say. -/
theorem satisfies_order_iff {α : Type u} {M : Interpretation α} :
    (∀ f ∈ order, M.Satisfies f.formula) ↔
      (∀ m n, M.predicate "p__less_equal__" [.object (M.ofInt m), .object (M.ofInt n)] ↔ m ≤ n) ∧
      (∀ a, M.predicate "p__less_equal__" [.object a, .object a]) ∧
      (∀ a b, M.predicate "p__less_equal__" [.object a, .object b] →
        M.predicate "p__less_equal__" [.object b, .object a] → a = b) ∧
      (∀ a b c, M.predicate "p__less_equal__" [.object a, .object b] →
        M.predicate "p__less_equal__" [.object b, .object c] →
        M.predicate "p__less_equal__" [.object a, .object c]) ∧
      (∀ a b, M.predicate "p__less_equal__" [.object a, .object b] ∨
        M.predicate "p__less_equal__" [.object b, .object a]) ∧
      (∀ a b, M.predicate "p__less__" [.object a, .object b] ↔
        M.predicate "p__less_equal__" [.object a, .object b] ∧ a ≠ b) ∧
      (∀ a b, M.predicate "p__greater_equal__" [.object a, .object b] ↔
        M.predicate "p__less_equal__" [.object b, .object a]) ∧
      ∀ a b, M.predicate "p__greater__" [.object a, .object b] ↔
        M.predicate "p__less_equal__" [.object b, .object a] ∧ a ≠ b := by
  simp +decide [order]

variable (constants : List Text)

/-- The standard model satisfies the axioms on sorts. -/
theorem standard_sorts : ∀ f ∈ sorts, (standard constants).Satisfies f.formula := by
  refine satisfies_sorts_iff.mpr ⟨fun a => standard_isInteger, fun a => ?_, ?_, ?_⟩
  · rw [standard_isInteger, standard_isSymbolic]
    cases a <;> simp_all [standard]
  · simp [standard]
  · simp [standard]

theorem standard_order : ∀ f ∈ order, (standard constants).Satisfies f.formula := by
  simp only [satisfies_order_iff, standard_lessEqual, standard_less, standard_greaterEqual, standard_greater]
  refine ⟨fun m n => Object.integer_le_integer, le_refl, fun a b => le_antisymm, fun a b c => le_trans,
    le_total, fun a b => lt_iff_le_and_ne, fun a b => trivial, fun a b => ?_⟩
  rw [lt_iff_le_and_ne, ne_comm]

/-- It satisfies the axioms on the places of objects. -/
theorem standard_placement : ∀ f ∈ placement, (standard constants).Satisfies f.formula := by
  simp +decide [placement]
  refine ⟨Object.infimum_le, Object.le_supremum, ?_⟩
  rintro n a c hc rfl
  exact Object.integer_lt_symbol n hc

theorem pairwise_idxOf {cs : List Text} (h : cs.Nodup) :
    cs.Pairwise fun a b => cs.idxOf a < cs.idxOf b := by
  rw [pairwise_iff_getElem]
  intro i j hi hj hij
  rwa [h.idxOf_getElem i hi, h.idxOf_getElem j hj]

variable {constants} (hinfimum : Text.ofString "c__infimum__" ∉ constants)
  (hsupremum : Text.ofString "c__supremum__" ∉ constants)

include hinfimum hsupremum

theorem standard_symbolicConstant {c : Text} (hc : c ∈ constants) :
    (standard constants).Satisfies (symbolicConstant c).formula := by
  have hvalue := standard_constant hc (fun h => hinfimum (h ▸ hc)) (fun h => hsupremum (h ▸ hc))
  simp [symbolicConstant, hvalue, hc]

theorem standard_constantOrder (hnodup : constants.Nodup) :
    ∀ f ∈ constantOrder constants, (standard constants).Satisfies f.formula := by
  intro f hf
  obtain ⟨a, ha, b, hb, hab, rfl⟩ := constantOrder_of_pairwise (pairwise_idxOf hnodup) f hf
  have hva := standard_constant ha (fun h => hinfimum (h ▸ ha)) (fun h => hsupremum (h ▸ ha))
  have hvb := standard_constant hb (fun h => hinfimum (h ▸ hb)) (fun h => hsupremum (h ▸ hb))
  simpa [Background.named, hva, hvb, Object.symbol_lt_symbol] using hab

end Axioms

/-- The interpretation of the symbols of a proof problem by the objects that they name. -/
structure Interpretation.IsIntended {constants : List Text}
    (M : Interpretation (Object constants)) : Prop where
  /-- Integers are embedded as they are. -/
  ofInt : M.ofInt = .integer
  /-- The first extreme is the least object. -/
  infimum : M.infimum = .infimum
  /-- The other extreme is the greatest object. -/
  supremum : M.supremum = .supremum
  /-- Constants stand for themselves. -/
  constant : ∀ c (h : c ∈ constants), M.function c [] = .object (.symbol c h)

/-- Constants that are listed once and not extremes can be ordered. -/
theorem standard_theory {r : Registry} (hnodup : r.symbolicConstants.Nodup)
    (hinfimum : Text.ofString "c__infimum__" ∉ r.symbolicConstants)
    (hsupremum : Text.ofString "c__supremum__" ∉ r.symbolicConstants) :
    (standard r.symbolicConstants).IsIntended ∧
      ∀ f ∈ theory r, (standard r.symbolicConstants).Satisfies f.formula := by
  refine ⟨⟨rfl, rfl, rfl, fun c hc => ?_⟩, ?_⟩
  · exact standard_constant hc (fun h => hinfimum (h ▸ hc)) (fun h => hsupremum (h ▸ hc))
  · simp only [theory, Background.axioms, forall_mem_append, forall_mem_map]
    exact ⟨⟨⟨⟨standard_sorts _, standard_order _⟩, standard_placement _⟩,
      fun c hc => standard_symbolicConstant hinfimum hsupremum hc⟩,
      standard_constantOrder hinfimum hsupremum hnodup⟩

/-- An extreme that is also a constant makes the axioms fail. -/
theorem exists_not_satisfies {r : Registry} {α : Type u}
    (h : Text.ofString "c__infimum__" ∈ r.symbolicConstants ∨
      Text.ofString "c__supremum__" ∈ r.symbolicConstants) (M : Interpretation α) :
    ∃ f ∈ theory r, ¬ M.Satisfies f.formula := by
  by_contra hnone
  have hall : ∀ f ∈ theory r, M.Satisfies f.formula := fun f hf =>
    not_not.mp fun hnot => hnone ⟨f, hf, hnot⟩
  simp only [theory, Background.axioms, forall_mem_append, forall_mem_map] at hall
  obtain ⟨⟨⟨⟨hsorts, -⟩, -⟩, hconstants⟩, -⟩ := hall
  obtain ⟨-, hsymbolic, -, -⟩ := satisfies_sorts_iff.mp hsorts
  have hatom : ∀ c ∈ r.symbolicConstants, M.predicate "p__is_symbolic__" [M.function c []] :=
    fun c hc => hconstants c hc default
  rcases h with h | h
  · have hinfimum := hatom _ h
    rw [M.function_infimum] at hinfimum
    exact ((hsymbolic _).mp hinfimum).2.1 rfl
  · have hsupremum := hatom _ h
    rw [M.function_supremum] at hsupremum
    exact ((hsymbolic _).mp hsupremum).2.2 rfl

end Tff

namespace Registry

/-- The functions that are declared, in the order of their declaration. -/
def functionSymbols (r : Registry) : List Symbol := r.functions.map (·.symbol)

/-- No function is declared again. -/
def KeepsFunctionsApart (r r' : Registry) : Prop :=
  r.functionSymbols.Nodup → r'.functionSymbols.Nodup

theorem keepsFunctionsApart_declareFunction (r : Registry) (f : Symbol) :
    r.KeepsFunctionsApart (r.declareFunction f) := by
  intro hr
  rw [declareFunction]
  split
  · exact hr
  · next hnone =>
    have hf : f ∉ r.functionSymbols := by
      intro hmem
      obtain ⟨d, hd, rfl⟩ := mem_map.mp hmem
      exact hnone (find?_isSome.mpr ⟨d, hd, beq_self_eq_true _⟩)
    rw [functionSymbols, map_append]
    exact hr.append (nodup_singleton f) (disjoint_singleton.mpr hf)

theorem keepsFunctionsApart_of_functions_eq {r r' : Registry} (h : r'.functions = r.functions) :
    r.KeepsFunctionsApart r' := by
  intro hr
  rwa [functionSymbols, h]

theorem keepsFunctionsApart_declarePredicate (r : Registry) (p : Symbol) :
    r.KeepsFunctionsApart (r.declarePredicate p) := by
  refine keepsFunctionsApart_of_functions_eq ?_
  rw [declarePredicate]
  split <;> rfl

theorem keepsFunctionsApart_assignDomain {r r' : Registry} {v : Variable} {domain : Option Domain}
    (h : r.assignDomain v domain = .ok r') : r.KeepsFunctionsApart r' := by
  refine keepsFunctionsApart_of_functions_eq ?_
  rw [assignDomain] at h
  split at h
  · obtain rfl := Except.ok.inj h
    rfl
  · split at h
    · obtain rfl := Except.ok.inj h
      rfl
    · cases h

/-- Reading texts declares no function twice. -/
theorem declaring_keepsFunctionsApart : Declaring KeepsFunctionsApart where
  refl := fun _ => id
  trans := fun h h' hr => h' (h hr)
  newVariable := fun _ _ _ => id
  function := keepsFunctionsApart_declareFunction
  predicate := keepsFunctionsApart_declarePredicate
  updateFunction := fun r f change hchange hr => by
    have hsymbols : (r.updateFunction f change).functionSymbols = r.functionSymbols := by
      rw [functionSymbols, updateFunction, map_map]
      refine map_congr_left fun d _ => ?_
      rw [Function.comp_apply]
      split
      · exact hchange d
      · rfl
    rwa [hsymbols]
  updatePredicate := fun _ _ _ _ => id

theorem allowed_keepsFunctionsApart :
    Encoding.Step.Allowed fun c c' => c.registry.KeepsFunctionsApart c'.registry where
  refl := fun _ => id
  trans := fun h h' hr => h' (h hr)
  generated := fun _ _ _ => id
  function := fun c => keepsFunctionsApart_declareFunction c.registry
  predicate := fun c => keepsFunctionsApart_declarePredicate c.registry
  ruleVariable := Encoding.always_chooseValue_variable (fun _ => id) (fun h h' hr => h' (h hr))
    (fun _ _ => id) keepsFunctionsApart_assignDomain

/-- The registries that reading formulas and specifications and encoding rules can
leave behind, in any order and with any outcome. -/
inductive Produced : Registry → Prop
  /-- Nothing is declared at first. -/
  | empty : Produced .empty
  | formula {r : Registry} (text : Text) : Produced r → Produced (outcome (Formula.parse text) r).2
  | specification {r : Registry} (text : Text) :
      Produced r → Produced (outcome (Specification.parse text) r).2
  | rules {r : Registry} (encoding : Encoding) (rules : List Rule) :
      Produced r → Produced (outcome (Encoding.addRules rules) ⟨r, encoding⟩).2.registry

variable {r : Registry}

/-- No function is declared twice. -/
theorem Produced.nodup (h : r.Produced) : r.functionSymbols.Nodup := by
  induction h with
  | empty => exact nodup_nil
  | formula text _ ih => exact declaring_keepsFunctionsApart.parseFormula text _ ih
  | specification text _ ih => exact declaring_keepsFunctionsApart.parseSpecification text _ ih
  | rules encoding rules _ ih => exact allowed_keepsFunctionsApart.addRules rules _ ih

/-- Constants have different names, since all lack arguments. -/
theorem nodup_symbolicConstants (h : r.functionSymbols.Nodup) : r.symbolicConstants.Nodup := by
  have hsorted : (r.sortedFunctions.map (·.symbol)).Nodup :=
    ((mergeSort_perm r.functions _).map _).nodup_iff.mpr h
  have harity : ∀ d : FunctionDeclaration, d.isSymbolicConstant = true → d.symbol.arity = 0 := by
    intro d hd
    simp only [FunctionDeclaration.isSymbolicConstant, Bool.and_eq_true, beq_iff_eq] at hd
    exact hd.1.1
  refine (((hsorted.of_map _).filter _).filter _).map_on fun d hd e he hname => ?_
  simp only [mem_filter] at hd he
  have hsymbol : d.symbol = e.symbol := by
    rw [Symbol.mk.injEq, harity d hd.2, harity e he.2]
    exact ⟨hname, rfl⟩
  exact inj_on_of_nodup_map hsorted hd.1.1 he.1.1 hsymbol

end Registry

namespace Tff

/-- Over all declarations that texts and programs can make, the axioms of proof problems
have the model that they are meant for, unless a symbolic constant has the name of an
extreme; then they have no model at all. -/
theorem theory_satisfiable_unless_named {r : Registry} (h : r.Produced) :
    (Text.ofString "c__infimum__" ∉ r.symbolicConstants ∧
        Text.ofString "c__supremum__" ∉ r.symbolicConstants →
      ∃ M : Interpretation (Object r.symbolicConstants),
        M.IsIntended ∧ ∀ f ∈ theory r, M.Satisfies f.formula) ∧
    (Text.ofString "c__infimum__" ∈ r.symbolicConstants ∨
        Text.ofString "c__supremum__" ∈ r.symbolicConstants →
      ∀ (α : Type u) (M : Interpretation α), ∃ f ∈ theory r, ¬ M.Satisfies f.formula) := by
  constructor
  · intro hnames
    exact ⟨_, standard_theory (Registry.nodup_symbolicConstants h.nodup) hnames.1 hnames.2⟩
  · exact fun hname _ M => exists_not_satisfies hname M

/-- The declarations of two facts, in the order in which they are read. -/
def factRegistry : Registry :=
  (outcome (Encoding.addRules [⟨.ofAtom "p" [.function false "b" []], [], 1⟩,
    ⟨.ofAtom "p" [.function false "a" []], [], 2⟩]) ⟨.empty, .empty⟩).2.registry

theorem symbolicConstants_factRegistry :
    factRegistry.symbolicConstants = [Text.ofString "a", "b"] := by
  have hfunctions : factRegistry.functions =
      [⟨⟨"b", 0⟩, some .program, false⟩, ⟨⟨"a", 0⟩, some .program, false⟩] := by
    decide +kernel
  rw [Registry.symbolicConstants, Registry.sortedFunctions, hfunctions]
  simp +decide [mergeSort]

theorem theory_satisfiable_facts :
    ∃ M : Interpretation (Object factRegistry.symbolicConstants),
      M.IsIntended ∧ ∀ f ∈ theory factRegistry, M.Satisfies f.formula := by
  refine (theory_satisfiable_unless_named.{0} (.rules _ _ .empty)).1 ?_
  rw [← factRegistry, symbolicConstants_factRegistry]
  decide

theorem parse_infimum_fact :
    Rule.parse "p(c__infimum__)." = .ok [⟨.ofAtom "p" [.function false "c__infimum__" []], [], 1⟩] := by
  with_unfolding_all rfl

theorem symbolicConstants_infimum_fact :
    (Verification.ofProgram false "p(c__infimum__).").map (·.registry.symbolicConstants) =
      .ok ["c__infimum__"] := by
  simp only [Verification.ofProgram, Verification.complete, parse_infimum_fact, Verification.doing]
  decide +kernel

/-- The program of one fact about a constant named as the least object: whatever is
asserted of it can be proven. -/
theorem theory_infimum_fact :
    ∃ problem, Verification.ofProgram false "p(c__infimum__)." = .ok problem ∧
      ∀ (α : Type u) (M : Interpretation α), ∃ f ∈ theory problem.registry, ¬ M.Satisfies f.formula := by
  have hconstants := symbolicConstants_infimum_fact
  cases hok : Verification.ofProgram false "p(c__infimum__)." with
  | error e =>
    rw [hok] at hconstants
    cases hconstants
  | ok problem =>
    rw [hok] at hconstants
    have hlist : problem.registry.symbolicConstants = ["c__infimum__"] :=
      Except.ok.inj hconstants
    have hmem : Text.ofString "c__infimum__" ∈ problem.registry.symbolicConstants := by
      rw [hlist]
      exact mem_singleton_self _
    exact ⟨problem, rfl, fun _ M => exists_not_satisfies (.inl hmem) M⟩

end Tff

end LogicProgram
