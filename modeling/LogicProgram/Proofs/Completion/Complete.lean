import LogicProgram.Completion.Basic
import LogicProgram.Proofs.Encoding.Scoping
import LogicProgram.Proofs.Symbol

/-!
# What completion gives

Completing a program never fails. Its definitions are those of the predicates that are
neither input nor built in, by name and arity; a predicate without rules gets new
variables for its arguments.
-/

namespace LogicProgram.Completion

open List
open Returns (pure_iff bind_iff)

universe u

variable {body : Formula} {params : List Variable} {d : CompletedDefinition}

variable {e : Encoding} {r r' : Registry} {p : Symbol}

/-- How many variables are made for a predicate. -/
def newParams (e : Encoding) (p : Symbol) : Nat :=
  match e.definition? p with
  | some _ => 0
  | none => p.arity

/-- How many variables are made for several predicates. -/
def newParamsOfAll (e : Encoding) : List Symbol → Nat
  | [] => 0
  | p :: ps => newParams e p + newParamsOfAll e ps

/-- The completed definition of a predicate, with `n` the next free variable. -/
def definitionFrom (e : Encoding) (n : Nat) (p : Symbol) : CompletedDefinition :=
  match e.definition? p with
  | some d => ⟨p, ofRules d⟩
  | none => ⟨p, ofNoRules p (List.range' n p.arity)⟩

/-- The completed definitions of predicates one after the other. -/
def definitionsFrom (e : Encoding) : Nat → List Symbol → List CompletedDefinition
  | _, [] => []
  | n, p :: ps => definitionFrom e n p :: definitionsFrom e (n + newParams e p) ps

theorem completeOne_iff :
    Returns (completeOne e p) r d r' ↔ d = definitionFrom e r.variableTable.size p ∧
      r' = r.addGenerated (some .program) (newParams e p) := by
  rw [completeOne, definitionFrom, newParams]
  cases e.definition? p with
  | some f => rw [pure_iff, Registry.addGenerated_zero, eq_comm, @eq_comm _ r]
  | none =>
    simp only [bind_iff, pure_iff, Registering.generatedMany_iff]
    constructor
    · rintro ⟨_, _, ⟨rfl, rfl⟩, rfl, rfl⟩
      exact ⟨rfl, rfl⟩
    · rintro ⟨rfl, rfl⟩
      exact ⟨_, _, ⟨rfl, rfl⟩, rfl, rfl⟩

/-- Completing adds variables for arguments and nothing else. -/
theorem completeAll_iff {ps : List Symbol} {ds : List CompletedDefinition} :
    Returns (completeAll e ps) r ds r' ↔ ds = definitionsFrom e r.variableTable.size ps ∧
      r' = r.addGenerated (some .program) (newParamsOfAll e ps) := by
  induction ps generalizing r r' ds with
  | nil =>
    rw [completeAll, pure_iff, definitionsFrom, newParamsOfAll,
      Registry.addGenerated_zero, eq_comm, @eq_comm _ r]
  | cons p ps ih =>
    simp only [completeAll, bind_iff, pure_iff, completeOne_iff, ih]
    rw [definitionsFrom, newParamsOfAll, ← Registry.addGenerated_addGenerated]
    constructor
    · rintro ⟨_, _, ⟨rfl, rfl⟩, _, _, ⟨rfl, rfl⟩, rfl, rfl⟩
      exact ⟨by rw [Registry.size_addGenerated], rfl⟩
    · rintro ⟨rfl, rfl⟩
      exact ⟨_, _, ⟨rfl, rfl⟩, _, _, ⟨rfl, rfl⟩, by rw [Registry.size_addGenerated], rfl⟩

theorem predicate_definitionFrom (e : Encoding) (n : Nat) (p : Symbol) :
    (definitionFrom e n p).predicate = p := by
  rw [definitionFrom]
  split <;> rfl

theorem map_predicate_definitionsFrom (e : Encoding) (n : Nat) (ps : List Symbol) :
    (definitionsFrom e n ps).map (·.predicate) = ps := by
  induction ps generalizing n with
  | nil => rfl
  | cons p ps ih => rw [definitionsFrom, map_cons, ih, predicate_definitionFrom]

/-- Each definition is made with variables of its own. -/
theorem mem_definitionsFrom {n : Nat} {ps : List Symbol}
    (h : d ∈ definitionsFrom e n ps) : d.predicate ∈ ps ∧ ∃ m, n ≤ m ∧
      m + newParams e d.predicate ≤ n + newParamsOfAll e ps ∧
      d = definitionFrom e m d.predicate := by
  induction ps generalizing n with
  | nil => cases h
  | cons p ps ih =>
    rw [newParamsOfAll]
    rcases mem_cons.mp h with rfl | h
    · rw [predicate_definitionFrom]
      exact ⟨mem_cons_self, n, Nat.le_refl n, by omega, rfl⟩
    · obtain ⟨hmem, m, hle, hsum, hd⟩ := ih h
      exact ⟨mem_cons_of_mem p hmem, m, by omega, by omega, hd⟩

/-- A closed formula says of a predicate of variables what a body says. -/
inductive IsDefinition (p : Symbol) (params : List Variable) : Formula → Formula → Prop
  /-- The predicate is equivalent to the body. -/
  | equivalence (body : Formula) :
    IsDefinition p params body (.close .universal params (.iff [.atomOf p params, body]))
  /-- The predicate does not hold; its body is false. -/
  | negation :
    IsDefinition p params (.boolean false) (.close .universal params (.not (.atomOf p params)))

/-- The disjunction of its rules defines a predicate. -/
theorem isDefinition_ofRules (d : RuleFormulas) :
    IsDefinition d.predicate d.params (.or (d.rules.map (·.close .existential))) (ofRules d) :=
  .equivalence _

/-- A predicate without rules is false. -/
theorem isDefinition_ofNoRules (p : Symbol) (params : List Variable) :
    IsDefinition p params (.boolean false) (ofNoRules p params) := .negation

theorem IsDefinition.split_eq {f : Formula} (h : IsDefinition p params body f) :
    split f = .ok ((p.name, params.map .variable), body) := by
  cases h <;> cases params <;> rfl

/-- A definition speaks of all tuples. -/
theorem IsDefinition.holds_iff {f : Formula} {R : Registry}
    {I : Interpretation.{u}} {σ : Valuation I} (h : IsDefinition p params body f)
    (hnodup : params.Nodup) (hdomain : ∀ v ∈ params, R.variableDomain v = some .program) :
    f.Holds R I σ ↔ ∀ ds, ds.length = params.length →
      (I.predicate p.name ds ↔ body.Holds R I (assign σ params ds)) := by
  have hall : ∀ g : Formula, (g.close .universal params).Holds R I σ ↔
      ∀ ds, ds.length = params.length → g.Holds R I (assign σ params ds) := by
    intro g
    rw [Formula.holds_close, Quantifier.universal_holds_iff]
    simp only [forall₂_iff_length_eq fun v hv => Interpretation.admits_of_program (hdomain v hv)]
  have hatom : ∀ ds, ds.length = params.length →
      ((Formula.atomOf p params).Holds R I (assign σ params ds) ↔ I.predicate p.name ds) := by
    intro ds hlen
    rw [Formula.holds_atomOf, map_assign hnodup hlen]
  cases h with
  | equivalence body =>
    refine (hall _).trans (forall_congr' fun ds => imp_congr_right fun hlen => ?_)
    rw [Formula.holds_iff, hatom ds hlen]
  | negation =>
    refine (hall _).trans (forall_congr' fun ds => imp_congr_right fun hlen => ?_)
    rw [Formula.holds_not, hatom ds hlen]
    exact (iff_false_right Bool.false_ne_true).symm

/-- The body of a completed definition, if it has the form of one. -/
def bodyOf (d : CompletedDefinition) : Formula :=
  match split d.formula with
  | .ok (_, body) => body
  | .error _ => .boolean false

theorem IsDefinition.bodyOf_eq (h : IsDefinition p params body d.formula) : bodyOf d = body := by
  rw [bodyOf, h.split_eq]

/-- The registry with the dependencies of completed definitions. -/
def recorded (ds : List CompletedDefinition) (r : Registry) : Registry :=
  ds.foldl (fun r d => r.updatePredicate d.predicate (dependenciesOf (bodyOf d))) r

theorem recordDependencies_returns {ds : List CompletedDefinition}
    (h : ∀ d ∈ ds, ∃ a, split d.formula = .ok (a, bodyOf d)) (r : Registry) :
    Returns (recordDependencies ds) r () (recorded ds r) := by
  induction ds generalizing r with
  | nil => exact pure_iff.mpr ⟨rfl, rfl⟩
  | cons d ds ih =>
    obtain ⟨a, ha⟩ := h d mem_cons_self
    rw [recordDependencies, ha]
    refine bind_iff.mpr ⟨⟨⟩, _, Returns.modify_iff.mpr rfl, ?_⟩
    exact ih (fun d' hd' => h d' (mem_cons_of_mem d hd')) _

/-- What a predicate is called and whether it belongs to the interface. -/
def interfaceOf (d : PredicateDeclaration) : Symbol × Bool × Bool := (d.symbol, d.isInput, d.isOutput)

theorem interfaceOf_dependenciesOf (body : Formula) (d : PredicateDeclaration) :
    interfaceOf (dependenciesOf body d) = interfaceOf d := by
  have hfold : ∀ (as : List (Symbol × Polarity)) (d : PredicateDeclaration),
      interfaceOf (as.foldl (fun d a => d.addDependency a.1 a.2) d) =
        interfaceOf d := by
    intro as
    induction as with
    | nil => exact fun _ => rfl
    | cons a as ih => exact fun d => ih (d.addDependency a.1 a.2)
  exact hfold _ _

/-- Recording dependencies keeps variables and interface. -/
theorem recorded_spec (ds : List CompletedDefinition) (r : Registry) :
    (recorded ds r).variableTable = r.variableTable ∧
      (recorded ds r).predicates.map interfaceOf = r.predicates.map interfaceOf := by
  induction ds generalizing r with
  | nil => exact ⟨rfl, rfl⟩
  | cons d ds ih =>
    obtain ⟨htable, hinterface⟩ := ih (r.updatePredicate d.predicate (dependenciesOf (bodyOf d)))
    refine ⟨htable, hinterface.trans ?_⟩
    rw [Registry.updatePredicate, map_map]
    refine map_congr_left fun d' _ => ?_
    rw [Function.comp_apply]
    split
    · exact interfaceOf_dependenciesOf _ _
    · rfl

theorem symbols_eq_of_interface (h : r'.predicates.map interfaceOf = r.predicates.map interfaceOf) :
    r'.symbols = r.symbols := by
  have h' := congrArg (List.map Prod.fst) h
  rw [map_map, map_map] at h'
  exact h'

theorem grows_recorded (ds : List CompletedDefinition) (r : Registry) : r.Grows (recorded ds r) :=
  Registry.Grows.of_eq (recorded_spec ds r).1 (symbols_eq_of_interface (recorded_spec ds r).2)

/-- The registry with the variables that completion makes. -/
def withParams (e : Encoding) (r : Registry) : Registry :=
  r.addGenerated (some .program) (newParamsOfAll e (definedPredicates r))

/-- The completion of a program whose predicates are declared in a registry. -/
def completionIn (e : Encoding) (r : Registry) : Completion :=
  ⟨definitionsFrom e r.variableTable.size (definedPredicates r), e.constraints⟩

/-- The variables of the definition of a predicate, with `n` the next free variable. -/
def paramsFrom (e : Encoding) (n : Nat) (p : Symbol) : List Variable :=
  match e.definition? p with
  | some d => d.params
  | none => List.range' n p.arity

/-- The body of the definition of a predicate. -/
def bodyFrom (e : Encoding) (p : Symbol) : Formula :=
  match e.definition? p with
  | some d => .or (d.rules.map (·.close .existential))
  | none => .boolean false

/-- The definitions of the completion have the form of one. -/
theorem isDefinition_definitionFrom (e : Encoding) (n : Nat) (p : Symbol) :
    IsDefinition p (paramsFrom e n p) (bodyFrom e p) (definitionFrom e n p).formula := by
  rw [definitionFrom, paramsFrom, bodyFrom]
  cases hp : e.definition? p with
  | some d =>
    obtain ⟨-, rfl⟩ := Encoding.definition?_eq_some hp
    exact isDefinition_ofRules d
  | none => exact isDefinition_ofNoRules p _

/-- Completion succeeds. -/
theorem complete_returns (e : Encoding) (r : Registry) : Returns (complete e) r (completionIn e r)
      (recorded (completionIn e r).definitions (withParams e r)) := by
  rw [complete]
  refine bind_iff.mpr ⟨r, r, Returns.get_iff.mpr ⟨rfl, rfl⟩, ?_⟩
  refine bind_iff.mpr ⟨_, _, completeAll_iff.mpr ⟨rfl, rfl⟩, ?_⟩
  refine bind_iff.mpr ⟨⟨⟩, _, recordDependencies_returns (fun d hd => ?_) _, ?_⟩
  · obtain ⟨-, m, -, -, he⟩ := mem_definitionsFrom hd
    have h := isDefinition_definitionFrom e m d.predicate
    rw [← he] at h
    exact ⟨_, by rw [h.bodyOf_eq, h.split_eq]⟩
  · exact pure_iff.mpr ⟨rfl, rfl⟩

theorem mem_definedPredicates : p ∈ definedPredicates r ↔
    ∃ d ∈ r.predicates, (d.isInput = false ∧ d.symbol.isBuiltInPredicate = false) ∧ d.symbol = p := by
  rw [definedPredicates, Registry.mem_sortedPredicates]
  simp

end LogicProgram.Completion
