import LogicProgram.Proofs.Completion.Simplified
import LogicProgram.Proofs.Phrase.Specification
import LogicProgram.Proofs.Tff.OfFormula
import LogicProgram.Verification

/-!
# What is derived from a program

A proof problem takes its completed definitions and its integrity constraints from a
program.
-/

namespace LogicProgram

open List

/-- A formula that can be given to a prover: nothing is left open, nothing is bound
twice, and every term has a sort. -/
structure Formula.WellFormed (r : Registry) (f : Formula) : Prop where
  /-- No variable is free. -/
  closed : f.freeVariables = []
  /-- No variable is bound twice. -/
  distinct : f.binders.Nodup
  /-- Variables have domains. -/
  domains : ∀ v, v ∈ f.binders ∨ .variable v ∈ f.subterms → ∃ d, r.variableDomain v = some d
  /-- There are no intervals. -/
  intervals : ∀ lower upper, .interval lower upper ∉ f.subterms
  /-- There are no truth values among the terms. -/
  booleans : ∀ b, .boolean b ∉ f.subterms
  /-- Functions are constants. -/
  constants : ∀ name args, .function name args ∈ f.subterms → args = []
  /-- Operators on two terms are applied to integers. -/
  binary : ∀ op left right, .binary op left right ∈ f.subterms →
    r.isArithmetic left = .ok true ∧ r.isArithmetic right = .ok true
  /-- Operators on one term are applied to an integer. -/
  unary : ∀ op arg, .unary op arg ∈ f.subterms → r.isArithmetic arg = .ok true
  /-- The formula can be written in a proof problem, unless there are strings in it. -/
  written : (∃ text, f.tptp r = .ok text) ∨ ∃ s, .string s ∈ f.subterms

/-- Sorted formulas that are closed and bind distinct variables. -/
theorem Formula.Sorted.wellFormed {r : Registry} {f : Formula} (hf : f.Sorted r)
    (hclosed : ∀ v, v ∉ f.freeVariables) (hdistinct : f.binders.Nodup) : f.WellFormed r where
  closed := eq_nil_iff_forall_not_mem.mpr hclosed
  distinct := hdistinct
  domains := fun v hv => Option.isSome_iff_exists.mp
    (hv.elim (hf.binders v) fun hmem => hf.of_mem_subterms hmem)
  intervals := fun _ _ hmem => hf.of_mem_subterms hmem
  booleans := fun _ hmem => hf.of_mem_subterms hmem
  constants := fun _ _ hmem => hf.of_mem_subterms hmem
  binary := fun _ _ _ hmem =>
    have hsorted := hf.of_mem_subterms hmem
    ⟨hsorted.2.1.2, hsorted.2.2.2⟩
  unary := fun _ _ hmem => (hf.of_mem_subterms hmem).2.2
  written := by
    by_cases hstrings : ∃ s, Term.string s ∈ f.subterms
    · exact .inr hstrings
    · exact .inl (Formula.exists_tptp hf fun s hs => hstrings ⟨s, hs⟩)

namespace Problem

theorem mem_entries_add {part : SectionKind} {s : Statement} {p : Problem} {e : Entry} :
    e ∈ (p.add part s).entries ↔ e = ⟨part, s⟩ ∨ e ∈ p.entries := by
  have hsplit := takeWhile_append_dropWhile
    (p := fun e : Entry => decide (e.part.index ≤ part.index)) (l := p.entries)
  conv_rhs => rw [← hsplit]
  simp only [add, mem_append, mem_cons]
  exact or_left_comm

theorem mem_statements {part : SectionKind} {s : Statement} {p : Problem} :
    s ∈ p.statements part ↔ ⟨part, s⟩ ∈ p.entries := by
  simp only [statements, mem_map, mem_filter, beq_iff_eq]
  constructor
  · rintro ⟨⟨_, _⟩, ⟨hmem, rfl⟩, rfl⟩
    exact hmem
  · exact fun h => ⟨⟨part, s⟩, ⟨h, rfl⟩, rfl⟩

end Problem

namespace Verification

variable {s s' : Completion.State}

/-- Statements that are added come after those that there were. -/
theorem foldl_add {α : Type} (add : Problem → α → Problem) (as : List α) {Q : Problem.Entry → Prop}
    (hregistry : ∀ p a, (add p a).registry = p.registry)
    (hadd : ∀ a ∈ as, ∀ p e, e ∈ (add p a).entries → Q e ∨ e ∈ p.entries) (p : Problem) :
    (as.foldl add p).registry = p.registry ∧
      ∀ e ∈ (as.foldl add p).entries, Q e ∨ e ∈ p.entries := by
  induction as generalizing p with
  | nil => exact ⟨rfl, fun e he => .inr he⟩
  | cons a as ih =>
    rw [forall_mem_cons] at hadd
    obtain ⟨hsame, hentries⟩ := ih hadd.2 (add p a)
    refine ⟨hsame.trans (hregistry p a), fun e he => ?_⟩
    exact (hentries e he).elim .inl fun h => hadd.1 p e h

/-- The statements that a program gives have the formulas of its completion. -/
theorem problemOf_entries (s : Completion.State) : (problemOf s).registry = s.registry ∧
    ∀ e ∈ (problemOf s).entries, e.statement.formula ∈ s.completion.contents := by
  have hdefinitions := foldl_add
    (fun p (d : CompletedDefinition) => p.add .completedDefinitions
      { Statement.fresh .program d.formula with
        description := "completed definition of " ++ d.predicate.text })
    s.completion.definitions (Q := fun e => e.statement.formula ∈ s.completion.contents)
    (fun _ _ => rfl) (fun d hd p e he => by
      refine (Problem.mem_entries_add.mp he).imp_left fun heq => ?_
      rw [heq]
      exact mem_append_left _ (mem_map_of_mem hd)) (.empty s.registry)
  have hconstraints := foldl_add (fun p f => p.add .integrityConstraints (.fresh .program f))
    s.completion.constraints (Q := fun e => e.statement.formula ∈ s.completion.contents)
    (fun _ _ => rfl) (fun f hf p e he => by
      refine (Problem.mem_entries_add.mp he).imp_left fun heq => ?_
      rw [heq]
      exact mem_append_right _ hf)
  refine ⟨(hconstraints _).1.trans hdefinitions.1, fun e he => ?_⟩
  rcases (hconstraints _).2 e he with h | h
  · exact h
  · exact (hdefinitions.2 e h).resolve_right not_mem_nil

/-- The sections of what is derived from the program. -/
def IsDerived (part : SectionKind) : Prop :=
  part = .completedDefinitions ∨ part = .integrityConstraints

/-- The statements of a specification go to other sections. -/
theorem not_isDerived_sectionOf (kind : StatementKind) :
    ¬ IsDerived (Specification.sectionOf kind) := by
  cases kind <;> simp [IsDerived, Specification.sectionOf]

theorem addItems_entries (items : List Specification.Item) (p : Problem) :
    (items.foldl addItem p).registry = p.registry ∧
      ∀ e ∈ (items.foldl addItem p).entries, ¬ IsDerived e.part ∨ e ∈ p.entries := by
  refine foldl_add addItem items (Q := fun e => ¬ IsDerived e.part) (fun _ _ => rfl)
    (fun item _ p e he => ?_) p
  refine (Problem.mem_entries_add.mp he).imp_left fun heq => ?_
  rw [heq]
  exact not_isDerived_sectionOf item.kind

theorem nodup_empty : Registry.empty.symbols.Nodup :=
  nodup_nil

theorem doing_eq_ok {α : Type} {activity : Text} {x : Except Error α} {a : α} :
    doing activity x = .ok a ↔ x = .ok a := by
  cases x <;> simp [doing]

theorem step_eq_ok {α : Type} {build : Completion.Build α} {a : α} :
    step build s = .ok (a, s') ↔ Returns build s a s' := by
  rw [step, Returns, outcome]
  rcases hrun : (build.run s : Except Error α × Completion.State) with ⟨e | b, t⟩
  · simp
  · simp

/-- The completion of what the rules of a program are encoded as. -/
def completed (e : Encoding.State) : Completion.State :=
  ⟨Completion.recorded (Completion.completionIn e.encoding e.registry).definitions
    (Completion.withParams e.encoding e.registry), Completion.completionIn e.encoding e.registry⟩

/-- A program has a completion if it is read and encoded. -/
theorem complete_eq_ok {r : Registry} {program : Text} : complete r program = .ok s ↔
    ∃ rules e, Rule.parse program = .ok rules ∧
      Returns (Encoding.addRules rules) ⟨r, .empty⟩ () e ∧ s = completed e := by
  rw [complete, except_bind_eq_ok]
  simp only [doing_eq_ok]
  refine exists_congr fun rules => ?_
  rcases hencoded : outcome (Encoding.addRules rules) ⟨r, .empty⟩ with ⟨encoded, e⟩
  have hencoded' : ((Encoding.addRules rules).run ⟨r, .empty⟩ :
      Except Error Unit × Encoding.State) = (encoded, e) := hencoded
  have hcomplete : ((Completion.complete e.encoding).run e.registry : Except Error Completion × Registry) =
      (.ok (completed e).completion, (completed e).registry) := Completion.complete_returns _ _
  simp only [hencoded', except_bind_eq_ok, doing_eq_ok, Returns, hencoded, hcomplete]
  constructor
  · rintro ⟨hparse, u, rfl, c, hc, hs⟩
    cases hc
    exact ⟨e, hparse, rfl, (Except.ok.inj hs).symm⟩
  · rintro ⟨_, hparse, he, rfl⟩
    obtain ⟨rfl, rfl⟩ := Prod.mk.inj he
    exact ⟨hparse, (), rfl, _, rfl, rfl⟩

/-- The completion of a program keeps its variables apart. -/
theorem complete_separated {r : Registry} {program : Text} (hr : r.symbols.Nodup)
    (h : complete r program = .ok s) : Completion.Separated s := by
  obtain ⟨rules, e, -, hencoded, rfl⟩ := complete_eq_ok.mp h
  have hscoped := Encoding.addRules_scoped (Encoding.Scoped.empty r) hencoded
  exact Completion.separated_of_complete hscoped.1 (hscoped.2.distinct hr) (Completion.complete_returns _ _)

/-- Simplified or not, the formulas are well formed. -/
theorem simplified_wellFormed {b : Bool} (hs : Completion.Separated s)
    (h : simplified b s = .ok s') : ∀ f ∈ s'.completion.contents, f.WellFormed s'.registry := by
  cases b with
  | false =>
    obtain rfl := Except.ok.inj h
    intro f hf
    have hclosed := hs.closed hf
    exact (hclosed.sorted _ (.refl _)).wellFormed hclosed.free hclosed.nodup
  | true =>
    have hmap : (step Completion.simplify s).map (·.2) = .ok s' := h
    cases hstep : step Completion.simplify s with
    | error e =>
      rw [hstep] at hmap
      cases hmap
    | ok a =>
      rw [hstep] at hmap
      obtain rfl := Except.ok.inj hmap
      intro f hf
      obtain ⟨hfree, hnodup, hsorted⟩ := hs.simplify (step_eq_ok.mp hstep) f hf
      exact hsorted.wellFormed hfree hnodup

/-- The formulas of a completion are those of its problem. -/
theorem problemOf_wellFormed (h : ∀ f ∈ s.completion.contents, f.WellFormed s.registry) :
    ∀ e ∈ (problemOf s).entries, e.statement.formula.WellFormed (problemOf s).registry := by
  intro e he
  rw [(problemOf_entries s).1]
  exact h _ ((problemOf_entries s).2 e he)

/-- Every completed definition and every integrity constraint of a problem is closed,
binds no variable twice, and has sorts throughout: variables have domains, there are no
intervals, truth values or applied functions among its terms, and operators are applied
to integers. It can be written for a prover unless it has strings. -/
theorem derived_wellFormed {simplify : Bool} {program : Text} {p : Problem}
    (h : ofProgram simplify program = .ok p ∨
      ∃ specification, ofSpecification simplify program specification = .ok p)
    {part : SectionKind} (hpart : part = .completedDefinitions ∨ part = .integrityConstraints)
    {statement : Statement} (hstatement : statement ∈ p.statements part) :
    statement.formula.WellFormed p.registry := by
  have hentry := Problem.mem_statements.mp hstatement
  rcases h with h | ⟨specification, h⟩
  · simp only [ofProgram, except_bind_eq_ok] at h
    obtain ⟨s, hs, s', hs', hp⟩ := h
    obtain rfl := Except.ok.inj hp
    exact problemOf_wellFormed (simplified_wellFormed (complete_separated nodup_empty hs) hs') _ hentry
  · rcases hparse : outcome (Specification.parse specification) Registry.empty with ⟨parsed, r⟩
    have hparse' : ((Specification.parse specification).run Registry.empty :
        Except Error Specification × Registry) = (parsed, r) := hparse
    have hnodup := (Registry.declaring_grows.parseSpecification specification _).distinct nodup_empty
    rw [hparse] at hnodup
    simp only [ofSpecification, hparse', except_bind_eq_ok] at h
    obtain ⟨spec, -, s, hs, -, -, ⟨formulas, s₁⟩, hs₁, s', hs', hp⟩ := h
    obtain rfl := Except.ok.inj hp
    have hseparated := (complete_separated hnodup hs).restrictToOutput (step_eq_ok.mp hs₁)
    have hwellFormed := problemOf_wellFormed (simplified_wellFormed hseparated hs')
    obtain ⟨hregistry, hentries⟩ := addItems_entries
      (spec.items.zipWith (fun item formula => { item with formula }) formulas) (problemOf s')
    rw [hregistry]
    exact hwellFormed _ ((hentries _ hentry).resolve_left fun hnot => hnot hpart)

/-- Every `q` is the successor of an `r`, and every `p` is a `q`. -/
def successorRules : List Rule :=
  let x : Rule.Term := .variable "X"
  let plain (name : Text) (t : Rule.Term) : Rule.BodyLiteral :=
    ⟨.plain, .literal ⟨.plain, .symbolic (.function false name [t])⟩⟩
  [⟨.ofAtom "q" [.binary .add x (.number 1)], [plain "r" x], 1⟩,
    ⟨.ofAtom "p" [x], [plain "q" x], 1⟩]

theorem parse_successor : Rule.parse "q(X+1):-r(X).p(X):-q(X)." = .ok successorRules := by
  with_unfolding_all rfl

/-- The declarations of `r` as an input and of `p` as an output. -/
def interface : Registry :=
  ⟨[], [⟨⟨"r", 1⟩, true, false, none⟩, ⟨⟨"p", 1⟩, false, true, none⟩], #[]⟩

theorem parse_interface : ((Specification.parse "input: r/1. output: p/1.").run .empty :
    Except Error Specification × Registry) = (.ok ⟨[]⟩, interface) := by
  with_unfolding_all rfl

/-- The program as it is encoded. -/
def successor : Encoding.State := (outcome (Encoding.addRules successorRules) ⟨interface, .empty⟩).2

theorem complete_successor :
    complete interface "q(X+1):-r(X).p(X):-q(X)." = .ok (completed successor) := by
  have hok : (outcome (Encoding.addRules successorRules) ⟨interface, .empty⟩).1 = .ok () := by
    decide +kernel
  exact complete_eq_ok.mpr ⟨_, _, parse_successor, Returns.of_ok hok, rfl⟩

theorem definedPredicates_successor :
    Completion.definedPredicates successor.registry = [⟨"p", 1⟩, ⟨"q", 1⟩] :=
  Symbol.map_mergeSort_eq _ (by decide +kernel) (by decide)

theorem privatePredicates_successor :
    Completion.privatePredicates (completed successor).registry = [⟨"q", 1⟩] := by
  refine Symbol.map_mergeSort_eq _ ?_ (by decide)
  rw [completed, Completion.completionIn, Completion.withParams, definedPredicates_successor]
  decide +kernel

theorem length_definitions_successor :
    ((ofSpecification true "q(X+1):-r(X).p(X):-q(X)." "input: r/1. output: p/1.").map
      fun p => (p.statements .completedDefinitions).length) = .ok 1 := by
  have hprivate := privatePredicates_successor
  have hcheck : Completion.checkConsistency (completed successor).registry [] = .ok () := by
    rw [Completion.checkConsistency, Completion.interfaceFault?, hprivate, completed,
      Completion.completionIn, Completion.withParams, definedPredicates_successor]
    decide +kernel
  have hrestricted : step (Completion.restrictToOutput []) (completed successor) =
      step (if Completion.hasOutput (completed successor).registry then Completion.hideEach [⟨"q", 1⟩] []
        else return []) (completed successor) :=
    hprivate ▸ rfl
  simp only [ofSpecification, parse_interface, doing, complete_successor]
  show Except.map _ (Completion.checkConsistency (completed successor).registry [] >>= fun _ =>
    step (Completion.restrictToOutput []) (completed successor) >>= _) = _
  rw [hcheck, hrestricted, completed, Completion.completionIn, Completion.withParams,
    definedPredicates_successor]
  decide +kernel

theorem derived_wellFormed_successor :
    ∃ problem statement,
      ofSpecification true "q(X+1):-r(X).p(X):-q(X)." "input: r/1. output: p/1." = .ok problem ∧
      statement ∈ problem.statements .completedDefinitions ∧
      statement.formula.WellFormed problem.registry := by
  have hlength := length_definitions_successor
  cases hok : ofSpecification true "q(X+1):-r(X).p(X):-q(X)." "input: r/1. output: p/1." with
  | error e =>
    rw [hok] at hlength
    cases hlength
  | ok problem =>
    rw [hok] at hlength
    obtain ⟨statement, hstatement⟩ := exists_mem_of_length_pos
      (Nat.lt_of_lt_of_eq Nat.one_pos (Except.ok.inj hlength).symm)
    exact ⟨problem, statement, rfl, hstatement,
      derived_wellFormed (.inr ⟨_, hok⟩) (.inl rfl) hstatement⟩

end Verification

end LogicProgram
