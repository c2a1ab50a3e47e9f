import LogicProgram.Proofs.Problem.Reading
import LogicProgram.Proofs.Semantics

/-!
# Soundness of proof runs

If a run of a sound prover ends as proven, then what was to be proven follows from what
was assumed. Statements that were proven earlier are axioms of later obligations; the
invariant of a run is that every axiom follows from what is assumed in its direction.
-/

namespace LogicProgram

open List
open Returns (pure_iff bind_iff get_iff)

universe u

variable {i : Nat} {d : Direction}

/-- A formula is true wherever the axioms are, in a class of interpretations such
as those of a background theory. -/
def Entails (K : Interpretation.{u} → Prop) (r : Registry) (axioms : List Formula) (f : Formula) :
    Prop :=
  ∀ I, K I → ∀ σ : Valuation I, SortRespecting r σ → (∀ a ∈ axioms, a.Holds r I σ) → f.Holds r I σ

namespace Entails

variable {K : Interpretation.{u} → Prop} {r : Registry} {axioms : List Formula} {f : Formula}

theorem of_mem (h : f ∈ axioms) : Entails K r axioms f :=
  fun _ _ _ _ hall => hall f h

/-- What follows from consequences follows. -/
theorem trans {middle : List Formula} (h : ∀ g ∈ middle, Entails K r axioms g)
    (h' : Entails K r middle f) : Entails K r axioms f :=
  fun I hK σ hσ hall => h' I hK σ hσ fun g hg => h g hg I hK σ hσ hall

end Entails

/-- A prover that, in every state of the proof of a problem, leaves the problem alone and answers
proven only if the axioms of the obligation submitted entail its conjecture. -/
structure ProverStep.Sound {σ : Type} (K : Interpretation.{u} → Prop) (p : Problem)
    (prover : ProverStep σ) : Prop where
  /-- The problem is the same after every answer. -/
  keeps : ∀ text s verdict s', p.SameStatements s.problem → Returns (prover text) s verdict s' →
    s'.problem = s.problem
  /-- Only what is entailed is called proven. -/
  entails : ∀ text s verdict s' conjecture, p.SameStatements s.problem →
    Returns (prover text) s verdict s' → verdict.outcome = .proven →
    s.problem.obligation.result = .ok text → s.problem.obligationConjectures = [conjecture] →
    Entails K s.problem.registry s.problem.obligationAxioms conjecture

namespace Problem

/-- The formulas of the statements of some kinds. -/
def formulasOf (p : Problem) (kinds : List StatementKind) : List Formula :=
  (p.entries.filter fun e => kinds.contains e.statement.kind).map (·.statement.formula)

/-- What a direction assumes. -/
def assumedIn (p : Problem) (d : Direction) : List Formula :=
  (p.entries.filter fun e => e.statement.initialStatus d == .assumedProven).map
    (·.statement.formula)

/-- What a direction sets out to prove follows from what it assumes. -/
def Established (K : Interpretation.{u} → Prop) (d : Direction) (p : Problem) : Prop :=
  ∀ e ∈ p.entries, e.statement.initialStatus d = .toProveLater →
    Entails K p.registry (p.assumedIn d) e.statement.formula

/-- The invariant of a run: every axiom follows from what is assumed, and no
statement is left marked as being proven. -/
structure Invariant (K : Interpretation.{u} → Prop) (o : Problem) (assumed : List Formula)
    (p : Problem) : Prop where
  same : SameStatements o p
  follows : ∀ e ∈ p.entries, e.statement.status.isAxiom = true →
    Entails K o.registry assumed e.statement.formula
  /-- Nothing is being proven between two steps. -/
  idle : ∀ e ∈ p.entries, e.statement.status ≠ .toProveNow

variable {K : Interpretation.{u} → Prop} {assumed : List Formula} {o p : Problem}

/-- Resetting establishes the invariant, with nothing proven yet. -/
theorem invariant_reset (hd : d ≠ .both) (h : SameStatements o p) :
    Invariant K o (p.assumedIn d) (p.reset d) := by
  have hstatus : ∀ s : Statement, s.initialStatus d ≠ .toProveNow ∧
      s.initialStatus d ≠ .proven := by
    intro s
    cases d with
    | both => exact absurd rfl hd
    | forward | backward => cases hk : s.kind <;> simp only [Statement.initialStatus, hk] <;>
        (try split_ifs) <;> simp
  refine ⟨h.trans (sameStatements_reset d p), ?_, ?_⟩
  · intro e he hgiven
    obtain ⟨e₀, he₀, rfl⟩ := mem_map.mp he
    have hassumed : e₀.statement.initialStatus d = .assumedProven := by
      have h : (e₀.statement.initialStatus d).isAxiom = true := hgiven
      have hproven := (hstatus e₀.statement).2
      simpa [ProofStatus.isAxiom, hproven] using h
    apply Entails.of_mem
    exact mem_map.mpr ⟨e₀, mem_filter.mpr ⟨he₀, by simp [hassumed]⟩, rfl⟩
  · intro e he
    obtain ⟨e₀, _, rfl⟩ := mem_map.mp he
    exact (hstatus e₀.statement).1

/-- What the forward direction assumes, by the kinds of statements. -/
theorem assumedIn_forward (p : Problem) :
    p.assumedIn .forward = p.formulasOf [.program, .axiomatic, .assumption] := by
  unfold assumedIn formulasOf
  congr 2
  funext e
  cases hk : e.statement.kind <;> simp only [Statement.initialStatus, hk] <;>
    (try split_ifs) <;> decide

/-- What the backward direction assumes, by the kinds of statements. -/
theorem assumedIn_backward (p : Problem) :
    p.assumedIn .backward = p.formulasOf [.axiomatic, .assumption, .assertion] := by
  unfold assumedIn formulasOf
  congr 2
  funext e
  cases hk : e.statement.kind <;> simp only [Statement.initialStatus, hk] <;>
    (try split_ifs) <;> decide

/-- At the start only the kind and the direction of a statement count. -/
theorem initialStatus_unmarked (hd : d ≠ .both) (e : Entry) :
    e.unmarked.statement.initialStatus d = e.statement.initialStatus d := by
  cases d with
  | both => exact absurd rfl hd
  | forward | backward => cases hk : e.statement.kind <;>
      simp only [Statement.initialStatus, Entry.unmarked, Entry.mark, hk]

/-- What is established does not depend on statuses. -/
theorem established_congr {q : Problem} (h : SameStatements p q)
    (hd : d ≠ .both) : Established K d p ↔ Established K d q := by
  -- Both sides are read off the statements without their statuses.
  have hassumed : ∀ o : Problem, o.assumedIn d =
      ((o.entries.map Entry.unmarked).filter fun e =>
        e.statement.initialStatus d == .assumedProven).map (·.statement.formula) := by
    intro o
    rw [filter_map, map_map]
    simp only [Function.comp_def, initialStatus_unmarked hd]
    rfl
  have hestablished : ∀ o : Problem, Established K d o ↔
      ∀ e ∈ o.entries.map Entry.unmarked, e.statement.initialStatus d = .toProveLater →
        Entails K o.registry (o.assumedIn d) e.statement.formula := by
    intro o
    rw [forall_mem_map]
    simp only [initialStatus_unmarked hd]
    rfl
  rw [hestablished, hestablished, hassumed, hassumed, h.registry, h.entries]

/-- While a statement is being proven, the axioms are those of before. -/
theorem Invariant.axioms_follow (h : Invariant K o assumed p) {f : Formula}
    (hf : f ∈ (p.setStatus i .toProveNow).obligationAxioms) : Entails K o.registry assumed f := by
  obtain ⟨e, he, hgiven, rfl⟩ := mem_obligationAxioms.mp hf
  obtain ⟨j, hj⟩ := getElem?_of_mem he
  rw [getElem?_setStatus] at hj
  split at hj
  · obtain ⟨e₀, _, rfl⟩ := Option.map_eq_some_iff.mp hj
    exact absurd hgiven (by simp [Entry.mark, ProofStatus.isAxiom])
  · exact h.follows e (mem_of_getElem? hj) hgiven

/-- A statement that follows may become an axiom. -/
theorem Invariant.setProven (h : Invariant K o assumed p) {e : Entry}
    (he : p.entries[i]? = some e) (hf : Entails K o.registry assumed e.statement.formula) :
    Invariant K o assumed (p.setStatus i .proven) := by
  have hentry : ∀ e' ∈ (p.setStatus i .proven).entries,
      e' = e.mark .proven ∨ e' ∈ p.entries := by
    intro e' he'
    obtain ⟨j, hj⟩ := getElem?_of_mem he'
    rw [getElem?_setStatus] at hj
    split at hj
    next hij =>
      rw [← hij, he] at hj
      exact .inl (by simpa using hj.symm)
    next => exact .inr (mem_of_getElem? hj)
  refine ⟨h.same.trans (sameStatements_setStatus i .proven p), ?_, ?_⟩
  · intro e' he' hgiven
    rcases hentry e' he' with rfl | hold
    · exact hf
    · exact h.follows e' hold hgiven
  · intro e' he'
    rcases hentry e' he' with rfl | hold
    · simp [Entry.mark]
    · exact h.idle e' hold

end Problem

namespace Proving

open Problem

variable {σ : Type} {K : Interpretation.{u} → Prop} {prover : ProverStep σ} {o : Problem}
  {assumed : List Formula} {s s' : ProofState σ}

/-- A statement that is proven follows from what is assumed. -/
theorem proveStatement_sound (hp : prover.Sound K o) (hinv : Invariant K o assumed s.problem)
    {e : Entry} (he : s.problem.entries[i]? = some e) {status : ProofStatus}
    (h : Returns (proveStatement prover i e) s status s') :
    s'.problem = s.problem.setStatus i status ∧
      (status = .proven → Entails K o.registry assumed e.statement.formula) := by
  obtain ⟨formula, text, verdict, t, _, htext, hverdict, hstatus, rfl⟩ := proveStatement_iff.mp h
  have hsame := hinv.same.trans (sameStatements_setStatus i .toProveNow s.problem)
  have hkeeps := hp.keeps _ _ _ _ hsame hverdict
  constructor
  · show t.problem.setStatus i status = _
    rw [hkeeps, setStatus_setStatus]
  · intro hproven
    have houtcome : verdict.outcome = .proven := by
      rw [hproven] at hstatus
      cases ho : verdict.outcome <;> simp [ho, ProofStatus.ofOutcome] at hstatus ⊢
    have hconjecture := obligationConjectures_eq (filter_toProveNow he hinv.idle)
    have hent := hp.entails _ _ _ _ _ hsame hverdict houtcome htext hconjecture
    rw [setStatus_registry, ← hinv.same.registry] at hent
    exact hent.trans fun f hf => hinv.axioms_follow hf

/-- If a run ends as proven, what was pending follows from what is assumed. -/
theorem provePending_sound (hp : prover.Sound K o) {rounds : Nat}
    (hinv : Invariant K o assumed s.problem)
    (h : Returns (provePending prover rounds) s .proven s') : SameStatements o s'.problem ∧
      ∀ e ∈ s.problem.entries, e.statement.status.isPending = true →
        Entails K o.registry assumed e.statement.formula := by
  induction rounds generalizing s with
  | zero => cases (pure_iff.mp h).1
  | succ rounds ih =>
    simp only [provePending, bind_iff, get_iff] at h
    obtain ⟨_, _, ⟨rfl, rfl⟩, h⟩ := h
    split at h
    next hnone =>
      rw [← (pure_iff.mp h).2]
      refine ⟨hinv.same, fun e he hpending => ?_⟩
      obtain ⟨j, hj⟩ := getElem?_of_mem he
      exact absurd hpending (find?_eq_none.mp hnone (e, j) (mem_zipIdx_iff_getElem?.mpr hj))
    next e i hnext =>
      have he : s.problem.entries[i]? = some e :=
        mem_zipIdx_iff_getElem?.mp (mem_of_find?_eq_some hnext)
      simp only [bind_iff] at h
      obtain ⟨status, t, hstatement, hrest⟩ := h
      obtain ⟨ht, hent⟩ := proveStatement_sound hp hinv he hstatement
      split at hrest
      next hproven =>
        rw [hproven] at ht
        obtain ⟨hsame, hlater⟩ := ih (ht ▸ hinv.setProven he (hent hproven)) hrest
        refine ⟨hsame, fun e' he' hpending => ?_⟩
        obtain ⟨j, hj⟩ := getElem?_of_mem he'
        by_cases hij : i = j
        · rw [← hij, he] at hj
          exact Option.some.inj hj ▸ hent hproven
        · refine hlater e' (mem_of_getElem? (i := j) ?_) hpending
          rw [ht, getElem?_setStatus, if_neg hij, hj]
      next hnot => exact absurd (pure_iff.mp hrest).1 hnot

/-- If a direction ends as proven, its goals follow from what it assumes. -/
theorem proveDirection_sound (hp : prover.Sound K o) (hd : d ≠ .both)
    (hsame : SameStatements o s.problem) (h : Returns (proveDirection prover d) s .proven s') :
    SameStatements o s'.problem ∧ Established K d s.problem := by
  obtain ⟨t, t', ht, hrun, hs'⟩ := proveDirection_returns h
  have hinv : Invariant K o (s.problem.assumedIn d) t.problem := by
    rw [ht]
    exact invariant_reset hd hsame
  obtain ⟨hafter, hpending⟩ := provePending_sound hp hinv hrun
  refine ⟨hs' ▸ hafter, fun e he hlater => ?_⟩
  rw [← hsame.registry]
  refine hpending { e with statement := e.statement.reset d } ?_ ?_
  · rw [ht]
    exact mem_map_of_mem he
  · show (e.statement.initialStatus d).isPending = true
    rw [hlater]
    rfl

/-- Directions that end as proven are all established. -/
theorem proveDirections_sound (hp : prover.Sound K o) {ds : List Direction}
    (hds : ∀ d ∈ ds, d ≠ .both) (hsame : SameStatements o s.problem)
    (h : Returns (proveDirections prover ds) s .proven s') :
    ∀ d ∈ ds, Established K d s.problem := by
  induction ds generalizing s with
  | nil => simp
  | cons d ds ih =>
    obtain ⟨hd, hrest⟩ := forall_mem_cons.mp hds
    obtain ⟨t, hfirst, hothers⟩ := proveDirections_cons h
    obtain ⟨hafter, hestablished⟩ := proveDirection_sound hp hd hsame hfirst
    refine forall_mem_cons.mpr ⟨hestablished, fun d' hd' => ?_⟩
    have hothers := ih hrest hafter hothers d' hd'
    rw [← established_congr hafter (hrest d' hd')] at hothers
    exact (established_congr hsame (hrest d' hd')).mp hothers

/-- If a run of a sound prover ends as proven, then in each of its directions what
was to be proven is entailed by what is given: forward, the assertions and the
lemmas of that direction by the program, the axioms and the assumptions;
backward, the program and the lemmas of that direction by the axioms, the
assumptions and the assertions. -/
theorem prove_sound {d : Direction} (hp : prover.Sound K s.problem)
    (h : Returns (prove prover d) s .proven s') :
    (.forward ∈ d.parts → ∀ e ∈ s.problem.entries,
      e.statement.kind = .assertion ∨
        e.statement.kind = .auxiliary ∧ e.statement.direction ∈ [.forward, .both] →
      Entails K s.problem.registry (s.problem.formulasOf [.program, .axiomatic, .assumption])
        e.statement.formula) ∧
    (.backward ∈ d.parts → ∀ e ∈ s.problem.entries,
      e.statement.kind = .program ∨
        e.statement.kind = .auxiliary ∧ e.statement.direction ∈ [.backward, .both] →
      Entails K s.problem.registry (s.problem.formulasOf [.axiomatic, .assumption, .assertion])
        e.statement.formula) := by
  obtain ⟨_, t, hrun, _⟩ := prove_returns h
  have hparts : ∀ d' ∈ d.parts, d' ≠ .both := by cases d <;> decide
  have hestablished := proveDirections_sound hp hparts (s := setProving true s) ⟨rfl, rfl⟩ hrun
  constructor
  · intro hd e he hkind
    rw [← assumedIn_forward]
    apply hestablished .forward hd e he
    rcases hkind with hk | ⟨hk, hdir⟩
    · simp only [Statement.initialStatus, hk]
    · have hne : e.statement.direction ≠ .backward := by rintro heq; simp [heq] at hdir
      simp only [Statement.initialStatus, hk, if_neg hne]
  · intro hd e he hkind
    rw [← assumedIn_backward]
    apply hestablished .backward hd e he
    rcases hkind with hk | ⟨hk, hdir⟩
    · simp only [Statement.initialStatus, hk]
    · have hne : e.statement.direction ≠ .forward := by rintro heq; simp [heq] at hdir
      simp only [Statement.initialStatus, hk, if_neg hne]

/-- Whether a text states its conjecture as an axiom, too. -/
def remembers (text : Text) : Bool :=
  (Tff.readings text).any fun c => c.role == "conjecture" &&
    (Tff.readings text).any fun a => a.role == "axiom" && a.content == c.content

/-- A prover that reads what it is given and knows no more than the axioms in it. -/
def remember : Prover Unit := fun text =>
  return ⟨if remembers text then .proven else .notProven, none⟩

/-- A program, a lemma and an assertion that say the same, of which the assertion
is left as proven by an earlier run. -/
def agreement : ProofState Unit :=
  let p : Formula := .atom "p" []
  let program := (Problem.empty .empty).add .completedDefinitions (.fresh .program p)
  let lemmas := program.add .lemmas (.fresh .auxiliary p)
  ⟨lemmas.add .assertions { Statement.fresh .assertion p with status := .proven }, [], ()⟩

/-- The statements of the agreement are the same proposition in every state. -/
theorem statement_agreement {p : Problem} (h : agreement.problem.SameStatements p) {e : Entry}
    (he : e ∈ p.entries) : e.statement.name = [] ∧ e.statement.description = [] ∧
      e.statement.formula = .atom "p" [] := by
  have hall : ∀ x ∈ agreement.problem.entries.map Entry.unmarked, x.statement.name = [] ∧
      x.statement.description = [] ∧ x.statement.formula = .atom "p" [] :=
    forall_mem_cons.mpr ⟨⟨rfl, rfl, rfl⟩, forall_mem_cons.mpr
      ⟨⟨rfl, rfl, rfl⟩, forall_mem_singleton.mpr ⟨rfl, rfl, rfl⟩⟩⟩
  exact hall e.unmarked (h.entries ▸ mem_map_of_mem he)

/-- What is submitted for the agreement says what its statements are. -/
theorem mem_readings_agreement {p : Problem} (h : agreement.problem.SameStatements p) {text : Text}
    (htext : p.obligation.result = .ok text) {x : Tff.Stated} (hx : x ∈ Tff.readings text) :
    x ∈ Tff.preamble .empty ∨ x.content = "p" ∧
      ∃ e ∈ p.entries, roleInObligation e.statement = some x.role := by
  have hregistry : p.registry = .empty := h.registry.symm
  have hformula : (Formula.atom "p" []).tptp .empty = .ok "p" := rfl
  have hcontent : Document.formulaText .empty (.atom "p" []) = "p" := rfl
  have hlines : p.OnLines := by
    refine ⟨hregistry ▸ by decide +kernel, fun e he => ?_, fun e he => ?_, fun e he => ?_⟩
    · rw [(statement_agreement h he).1]
      decide
    · rw [(statement_agreement h he).2.1]
      decide
    · rw [(statement_agreement h he).2.2, hregistry, hcontent]
      decide
  have hwritten : p.obligation.result = .ok (Document.tptpText p.registry
      (p.sectionsWith fun _ e => roleInObligation e.statement)) := by
    rw [obligation, sections_eq, Document.result_tptp]
    intro a ha
    obtain ⟨j, e, role, he, -, rfl⟩ := mem_sectionsWith.mp ha
    exact ⟨_, by rw [annotated, (statement_agreement h (mem_of_getElem? he)).2.2, hregistry, hformula]⟩
  rw [Except.ok.inj (htext.symm.trans hwritten), hlines.readings_eq (fun _ e role hrole => ?_),
    mem_append, hregistry] at hx
  · refine hx.imp_right fun hx => ?_
    obtain ⟨a, ha, rfl⟩ := mem_map.mp hx
    obtain ⟨j, e, role, he, hrole, rfl⟩ := mem_sectionsWith.mp ha
    have hmem := mem_of_getElem? he
    refine ⟨?_, e, hmem, hrole⟩
    exact (congrArg (Document.formulaText .empty) (statement_agreement h hmem).2.2).trans hcontent
  · unfold roleInObligation at hrole
    split_ifs at hrole
    all_goals
      obtain rfl := Option.some.inj hrole
      decide

theorem remember_sound (K : Interpretation.{u} → Prop) :
    (ProverStep.ofProver remember).Sound K agreement.problem := by
  have hreturns : ∀ {text s verdict s'}, Returns (ProverStep.ofProver remember text) s verdict s' →
      verdict = ⟨if remembers text then .proven else .notProven, none⟩ ∧ s' = s := by
    intro text s verdict s' h
    have heq := Prod.mk.inj h
    exact ⟨(Except.ok.inj heq.1).symm, heq.2.symm⟩
  refine ⟨fun text s verdict s' _ h => by rw [(hreturns h).2], ?_⟩
  intro text s verdict s' conjecture hsame h hproven htext hconjecture
  have hremembers : remembers text = true := by
    by_contra hnot
    rw [(hreturns h).1] at hproven
    simp [hnot] at hproven
  obtain ⟨c, hc, hrole⟩ := any_eq_true.mp hremembers
  rw [Bool.and_eq_true, beq_iff_eq] at hrole
  obtain ⟨a, ha, hgiven⟩ := any_eq_true.mp hrole.2
  rw [Bool.and_eq_true, beq_iff_eq, beq_iff_eq] at hgiven
  have hp : ∀ x ∈ Tff.preamble .empty, x.content ≠ "p" := by decide +kernel
  -- The conjecture is none of the preamble, so that it is the proposition, and so is the axiom.
  have hc := ((mem_readings_agreement hsame htext hc).resolve_left fun h => Tff.role_preamble h hrole.1).1
  obtain ⟨e, he, hrole⟩ := ((mem_readings_agreement hsame htext ha).resolve_left
    fun h => hp a h (hgiven.2.trans hc)).2
  rw [hgiven.1] at hrole
  have hmem : conjecture ∈ s.problem.obligationConjectures := hconjecture ▸ mem_cons_self
  obtain ⟨e', he', -, rfl⟩ := mem_submitted.mp hmem
  refine Entails.of_mem (mem_submitted.mpr ⟨e, he, hrole, ?_⟩)
  rw [(statement_agreement hsame he).2.2, (statement_agreement hsame he').2.2]

theorem prove_sound_agreement :
    (outcome (prove (.ofProver remember) .both) agreement).1 = .ok .proven ∧
    Entails (fun _ : Interpretation.{0} => True) agreement.problem.registry
      (agreement.problem.formulasOf [.program, .axiomatic, .assumption])
      (.atom "p" []) := by
  have hproven : (outcome (prove (.ofProver remember) .both) agreement).1 = .ok .proven := by
    decide +kernel
  have hrun : Returns (prove (.ofProver remember) .both) agreement .proven
      (outcome (prove (.ofProver remember) .both) agreement).2 := .of_ok hproven
  have hentry : agreement.problem.entries[2]? = some ⟨.assertions,
      { Statement.fresh .assertion (.atom "p" []) with status := .proven }⟩ := rfl
  have hsound := (prove_sound (remember_sound fun _ => True) hrun).1 (by decide)
  exact ⟨hproven, hsound _ (mem_of_getElem? hentry) (.inl rfl)⟩

end Proving

end LogicProgram
