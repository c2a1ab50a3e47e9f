import LogicProgram.Proofs.Completion.Complete
import LogicProgram.Proofs.Encoding.Program

/-!
# Completion in the sense of Clark

The completion of a program holds in an interpretation if every predicate that
is neither input nor built in holds of exactly the tuples that a rule supports,
and no constraint is violated. This does not mention the variables and formulas
of the encoding.
-/

namespace LogicProgram

open List

universe u

/-- The registry with a new interface: which predicates are input and output. -/
def Registry.withInterface (r : Registry) (inputs outputs : Symbol → Bool) : Registry :=
  { r with predicates := r.predicates.map fun d =>
      { d with isInput := inputs d.symbol, isOutput := outputs d.symbol } }

namespace Registry

variable {inputs outputs : Symbol → Bool}

theorem symbols_withInterface (r : Registry) :
    (r.withInterface inputs outputs).symbols = r.symbols := by
  simp [symbols, withInterface]

theorem grows_withInterface (r : Registry) : r.Grows (r.withInterface inputs outputs) :=
  Grows.of_eq rfl (symbols_withInterface r)

theorem mem_definedPredicates_withInterface {r : Registry} {p : Symbol} :
    p ∈ Completion.definedPredicates (r.withInterface inputs outputs) ↔
      p ∈ r.symbols ∧ inputs p = false ∧ p.isBuiltInPredicate = false := by
  rw [Completion.mem_definedPredicates]
  simp only [withInterface, mem_map, symbols]
  constructor
  · rintro ⟨_, ⟨d, hd, rfl⟩, hkind, rfl⟩
    exact ⟨⟨d, hd, rfl⟩, hkind⟩
  · rintro ⟨⟨d, hd, rfl⟩, hkind⟩
    exact ⟨_, ⟨d, hd, rfl⟩, hkind, rfl⟩

end Registry

namespace Completion

variable {I : Interpretation.{u}} {R : Registry} {σ : Valuation I} {s : Encoding.State}
  {rules : List Rule} {p : Symbol}

/-- A predicate holds of exactly the tuples that some rule supports. -/
def DefinedBy (rules : List Rule) (I : Interpretation.{u}) (p : Symbol) : Prop :=
  ∀ ds : List I.Object, ds.length = p.arity →
    (I.predicate p.name ds ↔ ∃ rule ∈ rules, rule.Supports I p.name ds)

/-- The completed definition of a predicate says what its rules do. -/
theorem holds_definitionFrom (hs : Encoding.Scoped s) (h : Encoding.Encoded.{u} s rules)
    (hR : s.registry.Grows R) (hI : I.Standard) {m : Nat}
    (hnew : ∀ v ∈ List.range' m (newParams s.encoding p), R.variableDomain v = some .program) :
    (definitionFrom s.encoding m p).formula.Holds R I σ ↔ DefinedBy rules I p := by
  rw [definitionFrom]
  rw [newParams] at hnew
  cases hp : s.encoding.definition? p with
  | some d =>
    obtain ⟨hd, rfl⟩ := Encoding.definition?_eq_some hp
    have hsub := Encoding.Scoped.params_subset hd
    have hnodup : d.params.Nodup := (nodup_append.mp (hs.nodup_of_mem hd)).1
    have hdomain : ∀ v ∈ d.params, R.variableDomain v = some .program := fun v hv =>
      (hR.domain (hs.below v (hsub hv))).trans ((hs.params d hd).2 v hv)
    rw [(isDefinition_ofRules d).holds_iff hnodup hdomain, (hs.params d hd).1]
    refine forall_congr' fun ds => imp_congr_right fun hlen => iff_congr Iff.rfl ?_
    have hrules := h.definitions d hd R hR I hI (assign σ d.params ds)
    rw [map_assign hnodup (hlen.trans (hs.params d hd).1.symm)] at hrules
    rw [Formula.holds_or, ← hrules]
    simp
  | none =>
    rw [hp] at hnew
    rw [(isDefinition_ofNoRules p _).holds_iff nodup_range' hnew, length_range']
    refine forall_congr' fun ds => imp_congr_right fun hlen => iff_congr Iff.rfl ?_
    have hnone : ¬ ∃ rule ∈ rules, rule.Supports I p.name ds := by
      rintro ⟨rule, hmem, hsupports⟩
      have hhead := h.heads rule hmem I p.name ds hsupports
      rw [hlen] at hhead
      exact Encoding.definition?_eq_none.mp hp hhead
    exact iff_of_false Bool.false_ne_true hnone

/-- All definitions and constraints of a completion hold. -/
def Holds (c : Completion) (r : Registry) (I : Interpretation.{u}) (σ : Valuation I) : Prop :=
  (∀ d ∈ c.definitions, d.formula.Holds r I σ) ∧ ∀ f ∈ c.constraints, f.Holds r I σ

/-- A completion defines some predicates, by name and arity and each once, and
says of them and of the constraints what the rules of a program do. -/
structure IsClark (rules : List Rule) (Defined : Symbol → Prop) (c : Completion) (r : Registry) :
    Prop where
  /-- Definitions come by name and arity, and no predicate has two. -/
  ordered : (c.definitions.map (·.predicate)).Pairwise Symbol.Before
  /-- The predicates that have a definition. -/
  defined : ∀ p, p ∈ c.definitions.map (·.predicate) ↔ Defined p
  /-- Which interpretations satisfy the completion. -/
  meaning : ∀ I : Interpretation.{u}, I.Standard → ∀ σ : Valuation I,
    c.Holds r I σ ↔ (∀ p, Defined p → DefinedBy rules I p) ∧ ∀ rule ∈ rules, ¬ rule.Violated I

/-- The completion of an encoded program is that of its rules. -/
theorem isClark_of_encoded {inputs outputs : Symbol → Bool} (hsymbols : s.registry.symbols.Nodup)
    (hs : Encoding.Scoped s) (h : Encoding.Encoded.{u} s rules) : IsClark.{u} rules
      (fun p => p ∈ s.registry.symbols ∧ inputs p = false ∧ p.isBuiltInPredicate = false)
      (completionIn s.encoding (s.registry.withInterface inputs outputs))
      (recorded (completionIn s.encoding (s.registry.withInterface inputs outputs)).definitions
        (withParams s.encoding (s.registry.withInterface inputs outputs))) := by
  generalize hr : s.registry.withInterface inputs outputs = r
  have hgrows : s.registry.Grows r := hr ▸ s.registry.grows_withInterface
  have hnodup : r.symbols.Nodup := hgrows.distinct hsymbols
  have hparams : r.Grows (withParams s.encoding r) := r.grows_addGenerated _ _
  have hrecorded := grows_recorded (completionIn s.encoding r).definitions (withParams s.encoding r)
  have hdefined : ∀ p, p ∈ definedPredicates r ↔
      p ∈ s.registry.symbols ∧ inputs p = false ∧ p.isBuiltInPredicate = false := by
    intro p
    rw [← hr, Registry.mem_definedPredicates_withInterface]
  have hpredicates : (completionIn s.encoding r).definitions.map (·.predicate) =
      definedPredicates r := map_predicate_definitionsFrom _ _ _
  refine ⟨?_, fun p => ?_, fun I hI σ => ?_⟩
  · rw [hpredicates]
    exact Registry.pairwise_sortedPredicates hnodup _
  · rw [hpredicates]
    exact hdefined p
  · refine and_congr ?_ (h.constraints _ (hgrows.trans (hparams.trans hrecorded)) I hI σ)
    have hdefinition : ∀ d ∈ (completionIn s.encoding r).definitions,
        (d.formula.Holds (recorded (completionIn s.encoding r).definitions
          (withParams s.encoding r)) I σ ↔ DefinedBy rules I d.predicate) := by
      intro d hd
      obtain ⟨-, m, hle, hsum, he⟩ := mem_definitionsFrom hd
      rw [he, predicate_definitionFrom]
      refine holds_definitionFrom hs h (hgrows.trans (hparams.trans hrecorded)) hI fun v hv => ?_
      have hmem : v ∈ List.range' r.variableTable.size
          (newParamsOfAll s.encoding (definedPredicates r)) := by
        rw [mem_range'_1] at hv ⊢
        omega
      exact hrecorded.domain_addGenerated hmem
    constructor
    · intro hholds p hp
      rw [← hdefined, ← hpredicates] at hp
      obtain ⟨d, hd, rfl⟩ := mem_map.mp hp
      exact (hdefinition d hd).mp (hholds d hd)
    · intro hrules d hd
      have hp := mem_map_of_mem (f := (·.predicate)) hd
      rw [hpredicates] at hp
      exact (hdefinition d hd).mpr (hrules d.predicate ((hdefined _).mp hp))

/-- Encoding and completing a program gives the completion of its rules. -/
theorem complete_isClark {r : Registry} {inputs outputs : Symbol → Bool} (hr : r.symbols.Nodup)
    (hrules : ∀ rule ∈ rules, rule.HasUnsignedComparisons)
    (hnames : ∀ rule ∈ rules, Text.ofString "_" ∉ rule.names)
    (h : Returns (Encoding.addRules rules) ⟨r, .empty⟩ () s) :
    ∃ c r', Returns (complete s.encoding) (s.registry.withInterface inputs outputs) c r' ∧
      IsClark.{u} rules
        (fun p => p ∈ s.registry.symbols ∧ inputs p = false ∧ p.isBuiltInPredicate = false) c r' := by
  have hscoped := Encoding.addRules_scoped (Encoding.Scoped.empty r) h
  exact ⟨_, _, complete_returns _ _, isClark_of_encoded (hscoped.2.distinct hr) hscoped.1
    (Encoding.addRules_encoded hrules hnames h)⟩

/-- Some of three numbers are selected, and the successor of a selected number that
is not selected may not exceed a limit. -/
def selection : List Rule :=
  let literal (sign : Rule.Sign) (name : Text) (t : Rule.Term) : Rule.BodyLiteral :=
    ⟨.plain, .literal ⟨sign, .symbolic (.function false name [t])⟩⟩
  [⟨.ofChoice "in" [.interval (.number 1) (.number 3)], [], 1⟩,
    ⟨.ofAtom "next" [.binary .add (.variable "X") (.number 1)],
      [literal .plain "in" (.variable "X")], 2⟩,
    ⟨.ofBoolean false,
      [literal .plain "next" (.variable "X"), literal .negated "in" (.variable "X"),
        literal .plain "limit" (.variable "Y"),
        ⟨.plain, .literal ⟨.plain, .comparison .greater (.variable "X") (.variable "Y")⟩⟩], 3⟩]

/-- The declarations and formulas of the selection. -/
def selected : Encoding.State := (outcome (Encoding.addRules selection) ⟨.empty, .empty⟩).2

theorem complete_isClark_selection :
    Returns (Encoding.addRules selection) ⟨.empty, .empty⟩ () selected ∧
    ∃ c r', Returns (complete selected.encoding)
        (selected.registry.withInterface (· = ⟨"limit", 1⟩) (fun _ => false)) c r' ∧
      IsClark.{0} selection (fun p => p ∈ selected.registry.symbols ∧
        decide (p = ⟨"limit", 1⟩) = false ∧ p.isBuiltInPredicate = false) c r' := by
  have hok : (outcome (Encoding.addRules selection) ⟨.empty, .empty⟩).1 = .ok () := by
    decide +kernel
  have hrun : Returns (Encoding.addRules selection) ⟨.empty, .empty⟩ () selected := .of_ok hok
  have hcomparisons : ∀ rule ∈ selection, rule.HasUnsignedComparisons := by
    simp [selection, Rule.HasUnsignedComparisons, Rule.Literal.HasUnsignedComparison]
  have hnames : ∀ rule ∈ selection, Text.ofString "_" ∉ rule.names := by decide
  have hnodup : Registry.empty.symbols.Nodup := nodup_nil
  exact ⟨hrun, complete_isClark hnodup hcomparisons hnames hrun⟩

end Completion

end LogicProgram
