import LogicProgram.Problem.Proof
import LogicProgram.Proofs.Computation
import Mathlib.Data.List.Basic

/-!
# Steps of a proof run

What is submitted to the prover, which statuses change, and how a run in one
direction is put together from the proofs of single statements. A run only ever
changes statuses: the statements, their sections and the declarations stay.
-/

namespace LogicProgram

open List
open Returns (bind_iff get_iff pure_iff)

namespace Problem

variable {u : Unit} {p : Problem} {d : Direction} {status : ProofStatus}

/-- The formulas that are submitted in a role. -/
def submitted (p : Problem) (role : Text) : List Formula :=
  (((p.sections roleInObligation).flatMap (·.formulas)).filter (·.role == role)).map (·.formula)

/-- The axioms of the next obligation. -/
def obligationAxioms (p : Problem) : List Formula := p.submitted "axiom"

/-- The conjectures of the next obligation, of which a run only submits one. -/
def obligationConjectures (p : Problem) : List Formula := p.submitted "conjecture"

/-- Naming statements keeps all of them in order. -/
theorem named_role (role? : Statement → Option Text) (role : Text) (count : Nat)
    (ss : List Statement) :
    (((named count ss).filterMap fun (name, s) => (role? s).map fun role =>
        ({ name, description := s.description, role, formula := s.formula } :
          AnnotatedFormula)).filter (·.role == role)).map (·.formula) =
      (ss.filter (role? · == some role)).map (·.formula) := by
  induction ss generalizing count with
  | nil => rfl
  | cons s ss ih =>
    rw [named]
    split
    all_goals
      rw [filterMap_cons]
      cases hr : role? s with
      | none => simp only [Option.map_none, ih, filter_cons, hr]; rfl
      | some t =>
        simp only [Option.map_some, filter_cons, hr, Option.some_beq_some]
        split
        · simp only [map_cons, ih]
        · exact ih _

/-- What is submitted in a role, section by section. -/
theorem submitted_eq (p : Problem) (role : Text) :
    p.submitted role = SectionKind.all.flatMap fun part =>
      ((p.entries.filter fun e => roleInObligation e.statement == some role).filter
        (·.part == part)).map (·.statement.formula) := by
  simp only [submitted, sections, flatMap_map, filter_flatMap, map_flatMap,
    named_role, statements]
  congr 1
  funext part
  simp only [filter_map, map_map, filter_filter]
  congr 2
  funext e
  exact Bool.and_comm _ _

/-- Every section is listed. -/
theorem mem_all_sections (part : SectionKind) : part ∈ SectionKind.all := by
  cases part <;> decide

/-- A formula is submitted in the role of its statement. -/
theorem mem_submitted {role : Text} {f : Formula} : f ∈ p.submitted role ↔
      ∃ e ∈ p.entries, roleInObligation e.statement = some role ∧ e.statement.formula = f := by
  rw [submitted_eq]
  simp only [mem_flatMap, mem_map, mem_filter, beq_iff_eq]
  constructor
  · rintro ⟨_, _, e, ⟨⟨he, hr⟩, _⟩, hf⟩
    exact ⟨e, he, hr, hf⟩
  · rintro ⟨e, he, hr, hf⟩
    exact ⟨e.part, mem_all_sections e.part, e, ⟨⟨he, hr⟩, rfl⟩, hf⟩

/-- The axioms of the next obligation are what is assumed or proven. -/
theorem mem_obligationAxioms {f : Formula} : f ∈ p.obligationAxioms ↔
      ∃ e ∈ p.entries, e.statement.status.isAxiom = true ∧ e.statement.formula = f := by
  rw [obligationAxioms, mem_submitted]
  refine exists_congr fun e => and_congr_right fun _ => and_congr_left fun _ => ?_
  unfold roleInObligation
  have hne : "conjecture" ≠ Text.ofString "axiom" := by decide
  split_ifs with h₁ h₂ <;> simp [h₁, hne]

/-- If one statement is to be proven now, its formula is the conjecture. -/
theorem obligationConjectures_eq {e : Entry}
    (h : p.entries.filter (·.statement.status == .toProveNow) = [e]) :
    p.obligationConjectures = [e.statement.formula] := by
  have hne : "axiom" ≠ Text.ofString "conjecture" := by decide
  have hrole : (fun e : Entry => roleInObligation e.statement ==
      some (Text.ofString "conjecture")) = fun e => e.statement.status == .toProveNow := by
    funext e
    cases hs : e.statement.status <;>
      simp [roleInObligation, hs, ProofStatus.isAxiom, hne]
  rw [obligationConjectures, submitted_eq]
  simp only [hrole, h]
  cases hpart : e.part <;> simp [SectionKind.all, hpart]

/-- The entry with another status. -/
def Entry.mark (status : ProofStatus) (e : Entry) : Entry :=
  { e with statement := { e.statement with status } }

/-- A statement as it was added, whatever has become of its proof. -/
def Entry.unmarked (e : Entry) : Entry := e.mark .toProveLater

/-- The same statements in the same sections over the same declarations, with
statuses that may differ. -/
structure SameStatements (p q : Problem) : Prop where
  registry : p.registry = q.registry
  /-- The statements agree up to their statuses. -/
  entries : p.entries.map Entry.unmarked = q.entries.map Entry.unmarked

theorem SameStatements.trans {p q o : Problem} (h : SameStatements p q)
    (h' : SameStatements q o) : SameStatements p o :=
  ⟨h.registry.trans h'.registry, h.entries.trans h'.entries⟩

@[simp] theorem setStatus_registry (i : Nat) (status : ProofStatus) (p : Problem) :
    (p.setStatus i status).registry = p.registry := rfl

theorem getElem?_setStatus (i j : Nat) (status : ProofStatus) (p : Problem) :
    (p.setStatus i status).entries[j]? =
      if i = j then (p.entries[j]?).map (Entry.mark status) else p.entries[j]? := by
  show (p.entries.modify i (Entry.mark status))[j]? = _
  rw [getElem?_modify]
  split <;> simp

/-- A status that is given twice is the one given last. -/
theorem setStatus_setStatus (i : Nat) (first second : ProofStatus) (p : Problem) :
    (p.setStatus i first).setStatus i second = p.setStatus i second := by
  have he : ((p.setStatus i first).setStatus i second).entries =
      (p.setStatus i second).entries := by
    refine ext_getElem? fun j => ?_
    rw [getElem?_setStatus, getElem?_setStatus, getElem?_setStatus]
    split
    · cases p.entries[j]? <;> rfl
    · rfl
  cases p
  exact congrArg (fun entries => ({ registry := _, entries, proving := _ } : Problem)) he

theorem sameStatements_setStatus (i : Nat) (status : ProofStatus) (p : Problem) :
    SameStatements p (p.setStatus i status) := by
  refine ⟨rfl, ext_getElem? fun j => ?_⟩
  rw [getElem?_map, getElem?_map, getElem?_setStatus]
  split
  · cases p.entries[j]? <;> rfl
  · rfl

theorem sameStatements_reset (d : Direction) (p : Problem) : SameStatements p (p.reset d) := by
  refine ⟨rfl, ?_⟩
  show _ = (p.entries.map _).map Entry.unmarked
  rw [map_map]
  rfl

/-- Of the statements only one is to be proven now, if none was before. -/
theorem filter_toProveNow {i : Nat} {e : Entry} (he : p.entries[i]? = some e)
    (hnone : ∀ e ∈ p.entries, e.statement.status ≠ .toProveNow) :
    (p.setStatus i .toProveNow).entries.filter (·.statement.status == .toProveNow) =
      [e.mark .toProveNow] := by
  show (p.entries.modify i (Entry.mark .toProveNow)).filter _ = _
  generalize p.entries = es at he hnone
  induction es generalizing i with
  | nil => simp at he
  | cons e' es ih =>
    obtain ⟨hhead, htail⟩ := forall_mem_cons.mp hnone
    cases i with
    | zero =>
      have hee : e' = e := by simpa using he
      have hrest : es.filter (·.statement.status == .toProveNow) = [] := by
        simpa using htail
      rw [modify_zero_cons, filter_cons, hrest, hee]
      rfl
    | succ i =>
      rw [modify_succ_cons, filter_cons, ih (by simpa using he) htail]
      simp [hhead]

end Problem

namespace Proving

variable {σ : Type} {prover : ProverStep σ} {s s' : ProofState σ}

@[simp] theorem report_iff {e : ProofEvent} :
    Returns (report e) s u s' ↔ { s with events := s.events ++ [e] } = s' := by
  rw [report, Returns.modify_iff]

@[simp] theorem update_iff {f : Problem → Problem} :
    Returns (update f) s u s' ↔ { s with problem := f s.problem } = s' := by
  rw [update, Returns.modify_iff]

@[simp] theorem ofExcept_iff {α : Type} {x : Except Error α} {a : α} :
    Returns (ofExcept x) s a s' ↔ x = .ok a ∧ s = s' := by
  cases x <;> simp [ofExcept]

/-- The proof of a statement submits its obligation and records the verdict. -/
theorem proveStatement_iff {i : Nat} {e : Problem.Entry} :
    Returns (proveStatement prover i e) s status s' ↔ ∃ formula text verdict t,
        e.statement.formula.human s.problem.registry = .ok formula ∧
        (s.problem.setStatus i .toProveNow).obligation.result = .ok text ∧
        Returns (prover text) ⟨s.problem.setStatus i .toProveNow,
          s.events ++ [.started e.part formula .toProveNow], s.environment⟩ verdict t ∧
        status = ProofStatus.ofOutcome verdict.outcome ∧
        s' = ⟨t.problem.setStatus i status, t.events ++ [.finished e.part status verdict],
          t.environment⟩ := by
  simp only [proveStatement, ask, bind_iff, update_iff, get_iff, ofExcept_iff,
    report_iff, Returns.rethrow_iff, pure_iff]
  constructor
  · rintro ⟨_, _, rfl, _, _, ⟨rfl, rfl⟩, formula, _, ⟨hf, rfl⟩, _, _, rfl, _, _, ⟨rfl, rfl⟩,
      text, _, ⟨ht, rfl⟩, verdict, t, hv, _, _, rfl, _, _, rfl, rfl, rfl⟩
    exact ⟨formula, text, verdict, t, hf, ht, hv, rfl, rfl⟩
  · rintro ⟨formula, text, verdict, t, hf, ht, hv, rfl, rfl⟩
    exact ⟨(), _, rfl, _, _, ⟨rfl, rfl⟩, formula, _, ⟨hf, rfl⟩, (), _, rfl, _, _, ⟨rfl, rfl⟩,
      text, _, ⟨ht, rfl⟩, verdict, t, hv, (), _, rfl, (), _, rfl, rfl, rfl⟩

/-- Reporting what is assumed changes nothing but the events. -/
theorem reportAssumed_problem {r : Registry} {es : List Problem.Entry}
    (h : Returns (reportAssumed r es) s u s') : s'.problem = s.problem := by
  induction es generalizing s with
  | nil =>
    simp only [reportAssumed, pure_iff] at h
    rw [h.2]
  | cons e es ih =>
    rw [reportAssumed] at h
    split at h
    · simp only [bind_iff, ofExcept_iff, report_iff] at h
      obtain ⟨_, _, ⟨_, rfl⟩, _, _, rfl, hrest⟩ := h
      rw [ih hrest]
    · exact ih h

/-- A run in a direction resets the statuses and proves what is pending. -/
theorem proveDirection_returns (h : Returns (proveDirection prover d) s status s') :
    ∃ t t', t.problem = s.problem.reset d ∧
      Returns (provePending prover (t.problem.entries.length + 1)) t status t' ∧
      s'.problem = t'.problem := by
  simp only [proveDirection, bind_iff, update_iff, get_iff, report_iff,
    pure_iff] at h
  obtain ⟨_, _, rfl, _, _, ⟨rfl, rfl⟩, _, _, rfl, _, t, hassumed, _, t', hfrom, _, _, rfl, rfl,
    rfl⟩ := h
  have ht := reportAssumed_problem hassumed
  refine ⟨t, t', ht, ?_, rfl⟩
  rw [ht]
  exact hfrom

/-- The statements of a run in several directions, one after the other. -/
theorem proveDirections_cons {ds : List Direction}
    (h : Returns (proveDirections prover (d :: ds)) s .proven s') :
    ∃ t, Returns (proveDirection prover d) s .proven t ∧
      Returns (proveDirections prover ds) t .proven s' := by
  simp only [proveDirections, bind_iff, pure_iff] at h
  obtain ⟨status, t, hd, others, _, hds, hstatus, rfl⟩ := h
  split at hstatus
  next hp => exact ⟨t, hp ▸ hd, hstatus ▸ hds⟩
  next hp => exact absurd hstatus hp

/-- An accepted run is the run in its directions, with the problem in use. -/
theorem prove_returns (h : Returns (prove prover d) s status s') : s.problem.proving = false ∧ ∃ t,
      Returns (proveDirections prover d.parts) (setProving true s) status t ∧
      s' = setProving false t := by
  have hdef : outcome (prove prover d) s =
      if s.problem.proving then
        (.error (Fault.logic "a proof is already running on this problem"), s)
      else ((outcome (proveDirections prover d.parts) (setProving true s)).1,
        setProving false (outcome (proveDirections prover d.parts) (setProving true s)).2) := rfl
  rw [Returns, hdef] at h
  split at h
  next => simp at h
  next hp =>
    simp only [Prod.mk.injEq] at h
    exact ⟨by simpa using hp, _, Prod.ext h.1 rfl, h.2.symm⟩

theorem outcome_report (e : ProofEvent) (s : ProofState σ) :
    outcome (report e) s = (.ok (), { s with events := s.events ++ [e] }) := rfl

theorem outcome_update (f : Problem → Problem) (s : ProofState σ) :
    outcome (update f) s = (.ok (), { s with problem := f s.problem }) := rfl

theorem outcome_ofExcept {α : Type} (x : Except Error α) (s : ProofState σ) :
    outcome (ofExcept x) s = (x, s) := by
  cases x <;> rfl

/-- A prover only changes what it keeps itself. -/
theorem outcome_ofProver (p : Prover σ) (text : Text) (s : ProofState σ) :
    outcome (ProverStep.ofProver p text) s =
      ((outcome (p text) s.environment).1,
        { s with environment := (outcome (p text) s.environment).2 }) := rfl

/-- While a run is going on, another is refused. -/
theorem outcome_prove_of_proving (prover : ProverStep σ) (d : Direction)
    (h : s.problem.proving = true) : outcome (prove prover d) s =
      (.error (Fault.logic "a proof is already running on this problem"), s) := by
  show (if s.problem.proving then _ else _) = _
  rw [if_pos h]

/-- An accepted run is the run in its directions, however it ends. -/
theorem outcome_prove (prover : ProverStep σ) (d : Direction) (h : s.problem.proving = false) :
    outcome (prove prover d) s = ((outcome (proveDirections prover d.parts) (setProving true s)).1,
        setProving false (outcome (proveDirections prover d.parts) (setProving true s)).2) := by
  show (if s.problem.proving then _ else _) = _
  rw [if_neg (by simp [h])]
  rfl

end Proving

end LogicProgram
