import LogicProgram.Proofs.Computation
import LogicProgram.Registry
import Mathlib.Data.List.Nodup

/-!
# Growth of the registry

Declarations are only ever added. A registry grows into another if every variable keeps
its number, name and domain and every predicate stays declared, once if it was declared
once.
-/

namespace LogicProgram

open List

namespace Registry

variable {n : Nat} {u : Unit} {v : Variable}

/-- The predicates that are declared, in the order of their declaration. -/
def symbols (r : Registry) : List Symbol := r.predicates.map (·.symbol)

/-- The name that a variable was declared with. -/
def nameOf (r : Registry) (v : Variable) : Text := (r.variableDeclaration v).name

/-- One registry has all declarations of another. -/
structure Grows (r r' : Registry) : Prop where
  size : r.variableTable.size ≤ r'.variableTable.size
  /-- Variables keep their names and domains. -/
  declared : ∀ v, v < r.variableTable.size → r'.variableDeclaration v = r.variableDeclaration v
  symbols : r.symbols ⊆ r'.symbols
  /-- No predicate is declared again. -/
  distinct : r.symbols.Nodup → r'.symbols.Nodup

variable {r r' r'' : Registry}

theorem Grows.refl (r : Registry) : r.Grows r :=
  ⟨Nat.le_refl _, fun _ _ => rfl, List.Subset.refl _, id⟩

theorem Grows.trans (h : r.Grows r') (h' : r'.Grows r'') : r.Grows r'' where
  size := Nat.le_trans h.size h'.size
  declared := fun v hv =>
    (h'.declared v (Nat.lt_of_lt_of_le hv h.size)).trans (h.declared v hv)
  symbols := fun _ hp => h'.symbols (h.symbols hp)
  distinct := fun hd => h'.distinct (h.distinct hd)

/-- Variables keep their domains. -/
theorem Grows.domain (h : r.Grows r') (hv : v < r.variableTable.size) :
    r'.variableDomain v = r.variableDomain v := by
  rw [variableDomain, variableDomain, h.declared v hv]

/-- Variables keep their names. -/
theorem Grows.nameOf (h : r.Grows r') (hv : v < r.variableTable.size) :
    r'.nameOf v = r.nameOf v := by
  rw [Registry.nameOf, Registry.nameOf, h.declared v hv]

/-- A change that keeps the variables and the symbols of predicates. -/
theorem Grows.of_eq (ht : r'.variableTable = r.variableTable) (hs : r'.symbols = r.symbols) :
    r.Grows r' where
  size := Nat.le_of_eq (by rw [ht])
  declared := fun v _ => by rw [variableDeclaration, variableDeclaration, ht]
  symbols := by rw [hs]; exact List.Subset.refl _
  distinct := by rw [hs]; exact id

/-- A predicate is declared if the search for it succeeds. -/
theorem isSome_predicate? {p : Symbol} : (r.predicate? p).isSome ↔ p ∈ r.symbols := by
  rw [predicate?, find?_isSome, symbols, mem_map]
  simp only [beq_iff_eq]

theorem symbols_declarePredicate (r : Registry) (p : Symbol) :
    (r.declarePredicate p).symbols = if p ∈ r.symbols then r.symbols else r.symbols ++ [p] := by
  rw [declarePredicate]
  by_cases hp : p ∈ r.symbols
  · rw [if_pos (isSome_predicate?.mpr hp), if_pos hp]
  · rw [if_neg (fun h => hp (isSome_predicate?.mp h)), if_neg hp]
    simp [symbols]

theorem mem_symbols_declarePredicate (r : Registry) (p : Symbol) :
    p ∈ (r.declarePredicate p).symbols := by
  rw [symbols_declarePredicate]
  split <;> simp_all

theorem variableTable_declarePredicate (r : Registry) (p : Symbol) :
    (r.declarePredicate p).variableTable = r.variableTable := by
  rw [declarePredicate]
  split <;> rfl

theorem grows_declarePredicate (r : Registry) (p : Symbol) : r.Grows (r.declarePredicate p) where
  size := Nat.le_of_eq (by rw [variableTable_declarePredicate])
  declared := fun v _ => by
    rw [variableDeclaration, variableDeclaration, variableTable_declarePredicate]
  symbols := by
    rw [symbols_declarePredicate]
    split <;> simp
  distinct := fun hd => by
    rw [symbols_declarePredicate]
    split
    · exact hd
    · next hp => exact nodup_append.mpr ⟨hd, by simp, fun q hq _ he => by
        rw [mem_singleton.mp he]; exact fun h => hp (h ▸ hq)⟩

theorem variableTable_declareFunction (r : Registry) (f : Symbol) :
    (r.declareFunction f).variableTable = r.variableTable := by
  rw [declareFunction]
  split <;> rfl

theorem grows_declareFunction (r : Registry) (f : Symbol) : r.Grows (r.declareFunction f) := by
  refine Grows.of_eq (variableTable_declareFunction r f) ?_
  rw [declareFunction]
  split <;> rfl

/-- A change that keeps the symbol of a predicate. -/
theorem grows_updatePredicate (r : Registry) (p : Symbol)
    {change : PredicateDeclaration → PredicateDeclaration}
    (hchange : ∀ d, (change d).symbol = d.symbol) : r.Grows (r.updatePredicate p change) := by
  refine Grows.of_eq rfl ?_
  rw [symbols, updatePredicate, map_map]
  refine map_congr_left fun d _ => ?_
  rw [Function.comp_apply]
  split
  · exact hchange d
  · rfl

/-- Several new variables, numbered from the first free number. -/
def addVariables (r : Registry) (ds : Array VariableDeclaration) : Registry :=
  { r with variableTable := r.variableTable ++ ds }

@[simp] theorem size_addVariables (r : Registry) (ds : Array VariableDeclaration) :
    (r.addVariables ds).variableTable.size = r.variableTable.size + ds.size := by
  simp [addVariables]

/-- A new variable is declared as it was added. -/
theorem variableDeclaration_addVariables (r : Registry) {ds : Array VariableDeclaration}
    {k : Nat} {d : VariableDeclaration} (hk : ds[k]? = some d) :
    (r.addVariables ds).variableDeclaration (r.variableTable.size + k) = d := by
  rw [variableDeclaration, addVariables, Array.getElem?_append_right (by omega)]
  simp [hk]

theorem grows_addVariables (r : Registry) (ds : Array VariableDeclaration) :
    r.Grows (r.addVariables ds) where
  size := by rw [size_addVariables]; omega
  declared := fun v hv => by
    rw [variableDeclaration, variableDeclaration, addVariables, Array.getElem?_append_left hv]
  symbols := List.Subset.refl _
  distinct := id

/-- One registry has all declarations of another and at most further variables. -/
structure AddsVariables (r r' : Registry) : Prop extends Grows r r' where
  predicates : r'.predicates = r.predicates

theorem AddsVariables.refl (r : Registry) : r.AddsVariables r := ⟨Grows.refl r, rfl⟩

theorem AddsVariables.trans (h : r.AddsVariables r') (h' : r'.AddsVariables r'') :
    r.AddsVariables r'' := ⟨h.toGrows.trans h'.toGrows, h'.predicates.trans h.predicates⟩

theorem addsVariables_addVariables (r : Registry) (ds : Array VariableDeclaration) :
    r.AddsVariables (r.addVariables ds) := ⟨grows_addVariables r ds, rfl⟩

/-- `n` new generated variables of one domain. -/
def addGenerated (r : Registry) (domain : Option Domain) (n : Nat) : Registry :=
  r.addVariables (Array.replicate n ⟨[], domain⟩)

@[simp] theorem size_addGenerated (r : Registry) (domain : Option Domain) (n : Nat) :
    (r.addGenerated domain n).variableTable.size = r.variableTable.size + n := by
  simp [addGenerated]

theorem grows_addGenerated (r : Registry) (domain : Option Domain) (n : Nat) :
    r.Grows (r.addGenerated domain n) := grows_addVariables r _

theorem addGenerated_zero (r : Registry) (domain : Option Domain) : r.addGenerated domain 0 = r := by
  simp [addGenerated, addVariables]

theorem addGenerated_addGenerated (r : Registry) (domain : Option Domain) (m n : Nat) :
    (r.addGenerated domain m).addGenerated domain n = r.addGenerated domain (m + n) := by
  rw [addGenerated, addGenerated, addGenerated, addVariables, addVariables, addVariables,
    Array.append_assoc, Array.replicate_append_replicate]

/-- Generated variables have the domain that they were made for. -/
theorem variableDomain_addGenerated (r : Registry) {domain : Option Domain}
    (hv : v ∈ List.range' r.variableTable.size n) :
    (r.addGenerated domain n).variableDomain v = domain := by
  obtain ⟨k, hk, rfl⟩ := mem_range'.mp hv
  rw [Nat.one_mul, variableDomain, addGenerated,
    variableDeclaration_addVariables r (d := ⟨[], domain⟩) (by simp [hk])]

/-- They keep it. -/
theorem Grows.domain_addGenerated {domain : Option Domain} (h : (r.addGenerated domain n).Grows r')
    (hv : v ∈ List.range' r.variableTable.size n) : r'.variableDomain v = domain := by
  have hlt : v < (r.addGenerated domain n).variableTable.size := by
    rw [size_addGenerated]
    exact (mem_range'_1.mp hv).2
  rw [h.domain hlt]
  exact r.variableDomain_addGenerated hv

/-- Giving the last variable its domain. -/
theorem assignDomain_last (r : Registry) (name : Text) (domain : Option Domain) :
    (r.addVariables #[⟨name, none⟩]).assignDomain r.variableTable.size domain =
      .ok (r.addVariables #[⟨name, domain⟩]) := by
  have hd : (r.addVariables #[⟨name, none⟩]).variableDomain r.variableTable.size = none := by
    have h := variableDeclaration_addVariables r (k := 0) (d := ⟨name, none⟩)
      (show #[(⟨name, none⟩ : VariableDeclaration)][0]? = _ from rfl)
    exact congrArg VariableDeclaration.domain h
  rw [assignDomain, hd]
  have ht : (r.variableTable ++ #[(⟨name, none⟩ : VariableDeclaration)]).modify
      r.variableTable.size (fun d => { d with domain }) = r.variableTable ++ #[⟨name, domain⟩] := by
    apply Array.ext_getElem?
    intro k
    rw [Array.getElem?_modify]
    rcases Nat.lt_trichotomy k r.variableTable.size with hk | rfl | hk
    · rw [if_neg (by omega), Array.getElem?_append_left hk, Array.getElem?_append_left hk]
    · simp
    · rw [if_neg (by omega)]
      rw [Array.getElem?_append_right (by omega), Array.getElem?_append_right (by omega),
        Array.getElem?_eq_none (by simp; omega), Array.getElem?_eq_none (by simp; omega)]
  rw [addVariables, addVariables, ht]

/-- Giving a variable the domain that it has. -/
theorem assignDomain_same {domain : Domain}
    (h : r.variableDomain v = some domain) : r.assignDomain v (some domain) = .ok r := by
  rw [assignDomain, h]
  exact if_pos rfl

end Registry

namespace Registering

variable {r r' : Registry} {domain : Option Domain}

theorem namedVariable_iff {name : Text} : Returns (namedVariable name) r v r' ↔
      v = r.variableTable.size ∧ r' = r.addVariables #[⟨name, none⟩] := by
  rw [namedVariable, Returns.modifyGet_iff, Registry.addVariable, Registry.addVariables,
    Prod.mk.injEq, eq_comm, @eq_comm _ _ r', Array.push_eq_append]

theorem generated_iff : Returns (generated domain) r v r' ↔
      v = r.variableTable.size ∧ r' = r.addGenerated domain 1 := by
  rw [generated, Returns.modifyGet_iff, Registry.addVariable, Registry.addGenerated,
    Registry.addVariables, Prod.mk.injEq, eq_comm, @eq_comm _ _ r', Array.push_eq_append]
  rfl

/-- Making several variables succeeds, and they are the next numbers. -/
theorem generatedMany_iff {vs : List Variable} : Returns (generatedMany domain n) r vs r' ↔
      vs = List.range' r.variableTable.size n ∧ r' = r.addGenerated domain n := by
  induction n generalizing r r' vs with
  | zero =>
    rw [generatedMany, Returns.pure_iff, Registry.addGenerated_zero, range'_zero, eq_comm,
      @eq_comm _ r]
  | succ n ih =>
    have hstep : (r.addGenerated domain 1).addGenerated domain n = r.addGenerated domain (n + 1) := by
      rw [Registry.addGenerated_addGenerated, Nat.add_comm]
    simp only [generatedMany, Returns.bind_iff, generated_iff, ih, Returns.pure_iff]
    constructor
    · rintro ⟨_, _, ⟨rfl, rfl⟩, _, _, ⟨rfl, rfl⟩, rfl, rfl⟩
      exact ⟨by rw [Registry.size_addGenerated, range'_succ], hstep⟩
    · rintro ⟨rfl, rfl⟩
      exact ⟨_, _, ⟨rfl, rfl⟩, _, _, ⟨rfl, rfl⟩,
        by rw [Registry.size_addGenerated, range'_succ], hstep⟩

theorem assignDomain_iff :
    Returns (assignDomain v domain) r u r' ↔ r.assignDomain v domain = .ok r' := by
  simp only [assignDomain, Returns.bind_iff, Returns.get_iff]
  constructor
  · rintro ⟨_, _, ⟨rfl, rfl⟩, h⟩
    split at h
    · next heq =>
      rw [heq]
      exact congrArg Except.ok (Returns.set_iff.mp h)
    · exact (Returns.throw_iff.mp h).elim
  · intro h
    refine ⟨r, r, ⟨rfl, rfl⟩, ?_⟩
    rw [h]
    exact Returns.set_iff.mpr rfl

theorem function_iff {f : Symbol} : Returns (function f) r u r' ↔ r' = r.declareFunction f := by
  rw [function, Returns.modify_iff, eq_comm]

theorem predicate_iff {p : Symbol} : Returns (predicate p) r u r' ↔ r' = r.declarePredicate p := by
  rw [predicate, Returns.modify_iff, eq_comm]

end Registering

end LogicProgram
