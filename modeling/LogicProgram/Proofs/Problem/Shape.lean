import LogicProgram.Proofs.Problem.Process
import LogicProgram.Proofs.Problem.Reading

/-!
# The shape of a proof run

A run in one direction asks the prover for the statements that are to be proven, in
order and once each, until one is not proven.
-/

namespace LogicProgram

open List

variable {i : Nat} {e : Entry} {c : ProverCall}

/-- A request to the prover in a proof run. -/
structure ProverCall where
  /-- The position of the statement to be proven. -/
  position : Nat
  entry : Problem.Entry
  text : Text
  answer : Except Error Verdict

namespace ProverCall

/-- The status that the statement is left in. After an error it is still being proven. -/
def status (c : ProverCall) : ProofStatus :=
  match c.answer with
  | .ok v => .ofOutcome v.outcome
  | .error _ => .toProveNow

/-- What a run gives that ends with the request. -/
def result (c : ProverCall) : Except Error ProofStatus :=
  match c.answer with
  | .ok v => .ok (.ofOutcome v.outcome)
  | .error e => .error (.during ("failed to prove " ++ c.entry.part.singular) e)

/-- Only a proof and a disproof say more than that nothing was proven. -/
theorem status_eq (c : ProverCall) : (∀ v, c.answer = .ok v → c.status =
      if v.outcome = .proven then .proven else if v.outcome = .disproven then .disproven else .notProven) ∧
    ∀ e, c.answer = .error e → c.status = .toProveNow := by
  refine ⟨fun v h => ?_, fun e h => by rw [status, h]⟩
  rw [status, h]
  cases hv : v.outcome <;> simp [hv, ProofStatus.ofOutcome]

theorem result_eq_of_proven (h : c.status = .proven) : c.result = .ok .proven := by
  unfold status at h
  unfold result
  split at h
  next => rw [h]
  next => cases h

end ProverCall

namespace Problem

/-- The statements to be proven in a direction, with their positions. -/
def pendingIn (p : Problem) (d : Direction) : List (Entry × Nat) :=
  p.entries.zipIdx.filter (·.1.statement.initialStatus d == .toProveLater)

/-- The role of a statement at `j` in the proof of the one at `i`, after those at
`proven`. -/
def roleAfter (d : Direction) (proven : List Nat) (i j : Nat) (e : Entry) : Option Text :=
  if j = i then some "conjecture"
  else if e.statement.initialStatus d = .assumedProven ∨ j ∈ proven then
    some "axiom"
  else none

/-- What is submitted for the statement at `i` after those at `proven`. -/
def obligationAfter (p : Problem) (d : Direction) (proven : List Nat) (i : Nat) : Document :=
  .tptp p.registry (p.sectionsWith (roleAfter d proven i))

/-- The status of a statement after requests to the prover. -/
def statusAfter (d : Direction) (calls : List ProverCall) (i : Nat) (e : Entry) : ProofStatus :=
  match calls.find? (·.position == i) with
  | some c => c.status
  | none => e.statement.initialStatus d

/-- Every formula can be written for people and for provers. -/
def Renderable (p : Problem) : Prop :=
  ∀ e ∈ p.entries, (∃ t, e.statement.formula.human p.registry = .ok t) ∧
    ∃ t, e.statement.formula.tptp p.registry = .ok t

/-- What a run gives after its last request, if there was one. -/
def resultAfter (calls : List ProverCall) : Except Error ProofStatus :=
  match calls.getLast? with
  | some c => c.result
  | none => .ok .proven

/-- The course of a run that has still some statements to prove, after those at
`proven`: the requests that it makes, and what the prover keeps before and after. -/
inductive Course {σ : Type} (prover : Prover σ) (p : Problem) (d : Direction) :
    List Nat → List (Entry × Nat) → σ → List ProverCall → σ → Prop where
  | finished (proven : List Nat) (env : σ) : Course prover p d proven [] env [] env
  | proven {proven : List Nat} {rest : List (Entry × Nat)} {env env' env'' : σ} {c : ProverCall}
      {calls : List ProverCall} (htext : (p.obligationAfter d proven c.position).result = .ok c.text)
      (hanswer : outcome (prover c.text) env = (c.answer, env')) (hstatus : c.status = .proven)
      (hrest : Course prover p d (proven ++ [c.position]) rest env' calls env'') :
      Course prover p d proven ((c.entry, c.position) :: rest) env (c :: calls) env''
  | stopped {proven : List Nat} {rest : List (Entry × Nat)} {env env' : σ} {c : ProverCall}
      (htext : (p.obligationAfter d proven c.position).result = .ok c.text)
      (hanswer : outcome (prover c.text) env = (c.answer, env')) (hstatus : c.status ≠ .proven) :
      Course prover p d proven ((c.entry, c.position) :: rest) env [c] env'

/-- The prover gives the answers of requests, one after the other. -/
inductive Answers {σ : Type} (prover : Prover σ) : σ → List ProverCall → σ → Prop where
  | nil (env : σ) : Answers prover env [] env
  | cons {env env' env'' : σ} {c : ProverCall} {calls : List ProverCall}
      (hanswer : outcome (prover c.text) env = (c.answer, env'))
      (hrest : Answers prover env' calls env'') : Answers prover env (c :: calls) env''

namespace Course

variable {σ : Type} {prover : Prover σ} {p : Problem} {d : Direction} {proven : List Nat}
  {left : List (Entry × Nat)} {env env' : σ} {calls : List ProverCall}

theorem answers (h : Course prover p d proven left env calls env') : Answers prover env calls env' := by
  induction h with
  | finished => exact .nil _
  | proven _ hanswer _ _ ih => exact .cons hanswer ih
  | stopped _ hanswer _ => exact .cons hanswer (.nil _)

theorem isPrefix (h : Course prover p d proven left env calls env') :
    calls.map (fun c => (c.entry, c.position)) <+: left := by
  induction h with
  | finished => exact prefix_rfl
  | proven _ _ _ _ ih => exact prefix_cons_inj _ |>.mpr ih
  | stopped => exact prefix_cons_inj _ |>.mpr nil_prefix

/-- A request submits what has been proven before it as axioms. -/
theorem text_eq (h : Course prover p d proven left env calls env') {before after : List ProverCall}
    (hcalls : calls = before ++ c :: after) :
    (p.obligationAfter d (proven ++ before.map (·.position)) c.position).result = .ok c.text := by
  induction h generalizing before with
  | finished => simp at hcalls
  | @proven proven rest env env' env'' c' calls htext _ _ _ ih =>
    cases before with
    | nil =>
      obtain ⟨rfl, rfl⟩ := cons_eq_cons.mp hcalls
      simpa using htext
    | cons c'' before =>
      obtain ⟨rfl, rfl⟩ := cons_eq_cons.mp hcalls
      simpa using ih rfl
  | stopped htext _ _ =>
    cases before with
    | nil =>
      obtain ⟨rfl, rfl⟩ := cons_eq_cons.mp hcalls
      simpa using htext
    | cons c'' before => simp at hcalls

/-- All statements but the last that the prover is asked for are proven. -/
theorem earlier (h : Course prover p d proven left env calls env') :
    ∀ c ∈ calls.dropLast, c.status = .proven := by
  induction h with
  | finished => simp
  | @proven _ _ _ _ _ c calls _ _ hstatus _ ih =>
    cases calls with
    | nil => simp
    | cons c' calls => exact forall_mem_cons.mpr ⟨hstatus, ih⟩
  | stopped => simp

/-- The run only stops before the end at a statement that is not proven. -/
theorem complete (h : Course prover p d proven left env calls env')
    (hall : ∀ c ∈ calls, c.status = .proven) :
    calls.map (fun c => (c.entry, c.position)) = left := by
  induction h with
  | finished => rfl
  | proven _ _ _ _ ih => rw [map_cons, ih fun c hc => hall c (mem_cons_of_mem _ hc)]
  | stopped _ _ hstatus => exact absurd (hall _ mem_cons_self) hstatus

/-- No statement is submitted twice, if none is listed twice. -/
theorem nodup (h : Course prover p d proven left env calls env') (hleft : (left.map Prod.snd).Nodup) :
    (calls.map (·.position)).Nodup := by
  have hsublist := (h.isPrefix.sublist.map Prod.snd).nodup hleft
  rwa [map_map] at hsublist

end Course

theorem nodup_pendingIn (p : Problem) (d : Direction) : ((p.pendingIn d).map Prod.snd).Nodup := by
  have hsublist : ((p.pendingIn d).map Prod.snd).Sublist (p.entries.zipIdx.map Prod.snd) :=
    filter_sublist.map Prod.snd
  rw [zipIdx_map_snd] at hsublist
  exact hsublist.nodup nodup_range'

variable {p : Problem} {d : Direction} {done : List ProverCall} {i : Nat}

/-- At the start of a run nothing is proven or being proven. -/
theorem initialStatus_cases (hd : d ≠ .both) (s : Statement) :
    s.initialStatus d = .assumedProven ∨ s.initialStatus d = .toProveLater ∨
      s.initialStatus d = .ignored := by
  unfold Statement.initialStatus
  split
  · exact absurd rfl hd
  · exact .inl rfl
  · exact .inl rfl
  · exact .inl rfl
  · exact .inl rfl
  · split
    · exact .inr (.inr rfl)
    · exact .inr (.inl rfl)
  · split
    · exact .inr (.inr rfl)
    · exact .inr (.inl rfl)
  · exact .inr (.inl rfl)
  · exact .inr (.inl rfl)

theorem statusAfter_of_not_mem (h : i ∉ done.map (·.position)) (e : Entry) :
    statusAfter d done i e = e.statement.initialStatus d := by
  have hnone : done.find? (·.position == i) = none := by simpa using h
  rw [statusAfter, hnone]

theorem statusAfter_of_mem (hdone : ∀ c ∈ done, c.status = .proven) (h : i ∈ done.map (·.position))
    (e : Entry) : statusAfter d done i e = .proven := by
  obtain ⟨c', hc', rfl⟩ := mem_map.mp h
  have hsome : (done.find? (·.position == c'.position)).isSome := by
    rw [find?_isSome]
    exact ⟨c', hc', beq_self_eq_true _⟩
  obtain ⟨c, hc⟩ := Option.isSome_iff_exists.mp hsome
  rw [statusAfter, hc]
  exact hdone c (mem_of_find?_eq_some hc)

/-- An answer changes the status of the statement that it is for. -/
theorem marked_statusAfter_setStatus (h : c.position ∉ done.map (·.position)) :
    (p.marked (statusAfter d done)).setStatus c.position c.status =
      p.marked (statusAfter d (done ++ [c])) := by
  rw [marked_setStatus]
  refine marked_congr fun j e _ => ?_
  unfold statusAfter
  rw [find?_append]
  split
  next hj =>
    have hnone : done.find? (·.position == j) = none := by simpa [← hj] using h
    simp [hnone, hj]
  next hj =>
    have hlast : [c].find? (·.position == j) = none := by simpa using hj
    rw [hlast, Option.or_none]

/-- The next statement is the conjecture, what has been proven an axiom. -/
theorem obligation_statusAfter (hd : d ≠ .both) (hdone : ∀ c ∈ done, c.status = .proven) (i : Nat) :
    ((p.marked (statusAfter d done)).setStatus i .toProveNow).obligation =
      p.obligationAfter d (done.map (·.position)) i := by
  rw [marked_setStatus, obligation, obligationAfter, sections_marked]
  refine congrArg (fun role? => Document.tptp p.registry (p.sectionsWith role?)) ?_
  funext j e
  rw [roleAfter]
  by_cases hij : i = j
  · rw [if_pos hij, if_pos hij.symm]
    rfl
  rw [if_neg hij, if_neg (Ne.symm hij)]
  by_cases hj : j ∈ done.map (·.position)
  · rw [statusAfter_of_mem hdone hj, if_pos (.inr hj)]
    rfl
  · rw [statusAfter_of_not_mem hj]
    rcases initialStatus_cases hd e.statement with h | h | h
    · rw [h, if_pos (.inl rfl)]
      rfl
    · rw [h, if_neg (by simp [hj])]
      rfl
    · rw [h, if_neg (by simp [hj])]
      rfl

/-- The statements that have a role can be written. -/
theorem Renderable.result_eq (h : p.Renderable) (role? : Nat → Entry → Option Text) :
    (Document.tptp p.registry (p.sectionsWith role?)).result =
      .ok (Document.tptpText p.registry (p.sectionsWith role?)) := by
  refine Document.result_tptp fun a ha => ?_
  obtain ⟨j, e, role, he, _, rfl⟩ := mem_sectionsWith.mp ha
  exact (h e (mem_of_getElem? he)).2

theorem Renderable.marked (h : p.Renderable) (status : Nat → Entry → ProofStatus) :
    (p.marked status).Renderable := by
  intro e he
  obtain ⟨i, he⟩ := mem_iff_getElem?.mp he
  rw [getElem?_marked] at he
  obtain ⟨e', he', rfl⟩ := Option.map_eq_some_iff.mp he
  exact h e' (mem_of_getElem? he')

/-- A position stands once among all. -/
theorem zipIdx_filter_eq {α : Type} {l : List α} {a : α} (k : Nat) (h : l[i]? = some a) :
    (l.zipIdx k).filter (·.2 == k + i) = [(a, k + i)] := by
  induction l generalizing i k with
  | nil => simp at h
  | cons b l ih =>
    rw [zipIdx_cons, filter_cons]
    cases i with
    | zero =>
      have hrest : (l.zipIdx (k + 1)).filter (·.2 == k) = [] := by
        rw [filter_eq_nil_iff]
        intro x hx
        have hle := le_snd_of_mem_zipIdx hx
        simp only [beq_iff_eq]
        omega
      have hb : b = a := by simpa using h
      simp [hrest, hb]
    | succ i =>
      have ih := ih (k + 1) (by simpa using h)
      rw [show k + 1 + i = k + (i + 1) by omega] at ih
      rw [ih, if_neg (by simp)]

/-- One conjecture is submitted, which is the statement to be proven. -/
theorem conjectures_obligationAfter (he : p.entries[i]? = some e) (proven : List Nat) :
    ((p.sectionsWith (roleAfter d proven i)).flatMap (·.formulas)).filter
        (·.role == Text.ofString "conjecture") =
      [p.annotated i e "conjecture"] := by
  have hne : "axiom" ≠ Text.ofString "conjecture" := by decide
  have hzip := zipIdx_filter_eq 0 he
  rw [Nat.zero_add] at hzip
  -- Of a section only the position `i` is left, if it is in there.
  have hpart : ∀ part : SectionKind, (((p.entries.zipIdx.filter (·.1.part == part)).filterMap
      fun x => (roleAfter d proven i x.2 x.1).map (p.annotated x.2 x.1)).filter
        (·.role == Text.ofString "conjecture")) =
      ([(e, i)].filter (·.1.part == part)).map fun x =>
        p.annotated x.2 x.1 "conjecture" := by
    intro part
    rw [← hzip, filter_filter, filter_filterMap, filterMap_filter, ← filterMap_eq_map,
      filterMap_filter]
    refine filterMap_congr fun x _ => ?_
    obtain ⟨e', j⟩ := x
    by_cases hpart : e'.part = part
    · by_cases hj : j = i
      · simp [hpart, hj, roleAfter, annotated]
      · by_cases hgiven : e'.statement.initialStatus d = .assumedProven ∨ j ∈ proven
        · simp [hpart, hj, roleAfter, annotated, hgiven, hne]
        · simp [hj, roleAfter, hgiven]
    · simp [hpart]
  rw [sectionsWith, flatMap_map, filter_flatMap, flatMap_congr fun part _ => hpart part]
  cases he' : e.part <;> simp [SectionKind.all, he']

theorem isLabel_roleAfter {proven : List Nat} {j : Nat} {role : Text}
    (h : roleAfter d proven i j e = some role) : Tff.IsLabel role := by
  unfold roleAfter at h
  split_ifs at h
  all_goals
    obtain rfl := Option.some.inj h
    decide

/-- One conjecture is submitted, under the name of its statement. -/
theorem conjectures_tptpText (hlines : p.OnLines) (he : p.entries[i]? = some e) (proven : List Nat) :
    (Tff.readings (Document.tptpText p.registry (p.sectionsWith (roleAfter d proven i)))).filter
        (·.role == Text.ofString "conjecture") =
      [Document.statedAs p.registry (p.annotated i e "conjecture")] := by
  have hnone : (Tff.preamble p.registry).filter (·.role == Text.ofString "conjecture") = [] :=
    filter_eq_nil_iff.mpr fun x hx => by simpa using Tff.role_preamble hx
  rw [hlines.readings_eq fun _ _ _ => isLabel_roleAfter, filter_append, filter_map, hnone, nil_append]
  exact congrArg (map (Document.statedAs p.registry)) (conjectures_obligationAfter he proven)

/-- The statements to be proven come section by section, as they were added. -/
theorem Ordered.pendingIn_eq (h : p.Ordered) (d : Direction) :
    (p.pendingIn d).map (·.1.statement) = SectionKind.all.flatMap fun part =>
      (p.statements part).filter (·.initialStatus d == .toProveLater) := by
  have hpending : (p.pendingIn d).map (·.1.statement) =
      (p.entries.filter (·.statement.initialStatus d == .toProveLater)).map (·.statement) := by
    have hfst : p.entries = p.entries.zipIdx.map Prod.fst := (zipIdx_map_fst 0 p.entries).symm
    conv => rhs; rw [hfst, filter_map, map_map]
    rfl
  have hpart : ∀ part, (p.statements part).filter (·.initialStatus d == .toProveLater) =
      ((p.entries.filter (·.statement.initialStatus d == .toProveLater)).filter
        (·.part == part)).map (·.statement) := by
    intro part
    rw [statements, filter_map, filter_filter, filter_filter]
    simp only [Function.comp_def, Bool.and_comm]
  simp only [hpending, hpart]
  rw [← map_flatMap, flatMap_filter_part (h.sublist filter_sublist)]

/-- What was to be proven and is not proven yet is pending, and nothing else. -/
theorem isPending_statusAfter (hd : d ≠ .both) (hdone : ∀ c ∈ done, c.status = .proven) (i : Nat)
    (e : Entry) : (statusAfter d done i e).isPending =
      (e.statement.initialStatus d == .toProveLater && !(done.map (·.position)).contains i) := by
  by_cases hi : i ∈ done.map (·.position)
  · rw [statusAfter_of_mem hdone hi, contains_iff_mem.mpr hi, Bool.not_true, Bool.and_false]
    rfl
  · rw [statusAfter_of_not_mem hi, Bool.eq_false_iff.mpr (mt contains_iff_mem.mp hi), Bool.not_false,
      Bool.and_true]
    rcases initialStatus_cases hd e.statement with h | h | h
    all_goals
      rw [h]
      rfl

/-- The next statement to be proven is the first of those that are left. -/
theorem nextPending?_statusAfter (hd : d ≠ .both) (hdone : ∀ c ∈ done, c.status = .proven)
    {left : List (Entry × Nat)}
    (hleft : p.pendingIn d = done.map (fun c => (c.entry, c.position)) ++ left) :
    (p.marked (statusAfter d done)).nextPending? =
      left.head?.map fun x => (x.1.mark (x.1.statement.initialStatus d), x.2) := by
  -- No position is listed twice, so those that are left are not among the others.
  have hnot : ∀ x ∈ left, x.2 ∉ done.map (·.position) := by
    have hnodup := nodup_pendingIn p d
    rw [hleft, map_append, map_map] at hnodup
    exact fun x hx hmem => (nodup_append.mp hnodup).2.2 _ hmem _ (mem_map_of_mem hx) rfl
  have hfilter : p.entries.zipIdx.filter (fun x => (statusAfter d done x.2 x.1).isPending) = left := by
    simp only [isPending_statusAfter hd hdone, Bool.and_comm (_ == _)]
    rw [← filter_filter]
    show (p.pendingIn d).filter _ = left
    rw [hleft, filter_append, filter_eq_nil_iff.mpr ?_, filter_eq_self.mpr ?_, nil_append]
    · exact fun x hx => by simpa using hnot x hx
    · rintro _ hx
      obtain ⟨c, hc, rfl⟩ := mem_map.mp hx
      simpa using ⟨c, hc, rfl⟩
  rw [nextPending?, zipIdx_marked, find?_map]
  show ((p.entries.zipIdx.find? fun x => (statusAfter d done x.2 x.1).isPending).map _) = _
  rw [← head?_filter, hfilter]
  cases left with
  | nil => rfl
  | cons x left =>
    rw [head?_cons, Option.map_some, Option.map_some, statusAfter_of_not_mem (hnot x mem_cons_self)]

/-- What a run gives is decided by its last request. -/
theorem resultAfter_cons (h : c.status = .proven) (calls : List ProverCall) :
    resultAfter (c :: calls) = resultAfter calls := by
  cases calls with
  | nil => exact ProverCall.result_eq_of_proven h
  | cons c' calls => rw [resultAfter, getLast?_cons_cons, resultAfter]

end Problem

namespace Proving

open Problem

variable {σ : Type} {prover : Prover σ} {p : Problem} {d : Direction} {s : ProofState σ}

/-- A statement is submitted, and the answer says how the step ends. -/
theorem outcome_proveStatement {formula : Text} {env : σ}
    (hformula : e.statement.formula.human s.problem.registry = .ok formula)
    (hpart : c.entry.part = e.part)
    (htext : (s.problem.setStatus c.position .toProveNow).obligation.result = .ok c.text)
    (hanswer : outcome (prover c.text) s.environment = (c.answer, env)) :
    ∃ events, outcome (proveStatement (.ofProver prover) c.position e) s =
      (c.result, ⟨s.problem.setStatus c.position c.status, events, env⟩) := by
  simp only [proveStatement, ask, outcome_bind, outcome_update, outcome_get, outcome_report,
    outcome_ofExcept, setStatus_registry, hformula, htext, outcome_rethrow, outcome_ofProver, hanswer]
  unfold ProverCall.result ProverCall.status
  cases hc : c.answer with
  | error e' => exact ⟨_, by rw [hpart]⟩
  | ok v => exact ⟨_, by simp only [setStatus_setStatus]; rfl⟩

/-- After a statement that is pending, the run goes on if it is proven. -/
theorem outcome_provePending {q : ProverStep σ} {rounds : Nat} {t : ProofState σ}
    (hnext : s.problem.nextPending? = some (e, i))
    (hrun : outcome (proveStatement q i e) s = (c.result, t)) :
    outcome (provePending q (rounds + 1)) s =
      if c.status = .proven then outcome (provePending q rounds) t else (c.result, t) := by
  rw [provePending, outcome_bind, outcome_get]
  simp only [hnext]
  rw [outcome_bind, hrun]
  unfold ProverCall.result ProverCall.status
  cases c.answer with
  | error e' => rfl
  | ok v =>
    simp only
    split
    · rfl
    · rfl

/-- A statement is submitted after those that have been proven. -/
theorem proveStatement_call (prover : Prover σ) (hd : d ≠ .both) (hp : p.Renderable)
    {done : List ProverCall} (he : p.entries[i]? = some e) (hdone : ∀ c ∈ done, c.status = .proven)
    (hi : i ∉ done.map (·.position)) (hs : s.problem = p.marked (statusAfter d done))
    (now : ProofStatus) :
    ∃ (c : ProverCall) (events : List ProofEvent) (env : σ), c.position = i ∧ c.entry = e ∧
      (p.obligationAfter d (done.map (·.position)) c.position).result = .ok c.text ∧
      outcome (prover c.text) s.environment = (c.answer, env) ∧
      outcome (proveStatement (.ofProver prover) i (e.mark now)) s =
        (c.result, ⟨p.marked (statusAfter d (done ++ [c])), events, env⟩) := by
  obtain ⟨text, htext⟩ : ∃ text, (p.obligationAfter d (done.map (·.position)) i).result = .ok text :=
    ⟨_, hp.result_eq _⟩
  obtain ⟨⟨formula, hformula⟩, -⟩ := hp e (mem_of_getElem? he)
  rcases hanswer : outcome (prover text) s.environment with ⟨answer, env⟩
  have hregistry : s.problem.registry = p.registry := by rw [hs]; rfl
  have hobligation : (s.problem.setStatus i .toProveNow).obligation.result = .ok text := by
    rw [hs, obligation_statusAfter hd hdone, htext]
  obtain ⟨events, hrun⟩ := outcome_proveStatement (c := ⟨i, e, text, answer⟩) (e := e.mark now)
    (hregistry ▸ hformula) rfl hobligation hanswer
  rw [hs, marked_statusAfter_setStatus hi] at hrun
  exact ⟨⟨i, e, text, answer⟩, events, env, rfl, rfl, htext, hanswer, hrun⟩

/-- With a round for each statement left and one more, a run ends. -/
theorem provePending_course (prover : Prover σ) (hd : d ≠ .both) (hp : p.Renderable) (rounds : Nat)
    (left : List (Entry × Nat)) (done : List ProverCall) (hrounds : left.length < rounds)
    (hleft : p.pendingIn d = done.map (fun c => (c.entry, c.position)) ++ left)
    (hdone : ∀ c ∈ done, c.status = .proven) (hs : s.problem = p.marked (statusAfter d done)) :
    ∃ calls events env, Course prover p d (done.map (·.position)) left s.environment calls env ∧
      outcome (provePending (.ofProver prover) rounds) s =
        (resultAfter calls, ⟨p.marked (statusAfter d (done ++ calls)), events, env⟩) := by
  -- The statements of `done` are proven and the others as at the start, so that the search of a
  -- round finds the first that is left.
  have hnext := nextPending?_statusAfter hd hdone hleft
  rw [← hs] at hnext
  obtain ⟨rounds, rfl⟩ := Nat.exists_eq_succ_of_ne_zero (Nat.ne_zero_of_lt hrounds)
  induction left generalizing rounds done s with
  | nil =>
    refine ⟨[], s.events, s.environment, .finished _ _, ?_⟩
    rw [provePending, outcome_bind, outcome_get, append_nil, ← hs]
    simp only [hnext]
    rfl
  | cons x left ih =>
    obtain ⟨e, i⟩ := x
    have hmem : (e, i) ∈ p.pendingIn d := hleft ▸ mem_append_right _ mem_cons_self
    have he : p.entries[i]? = some e := mem_zipIdx_iff_getElem?.mp (mem_of_mem_filter hmem)
    have hi : i ∉ done.map (·.position) := by
      have hnodup := nodup_pendingIn p d
      rw [hleft, map_append, map_map] at hnodup
      exact fun hmem => (nodup_append.mp hnodup).2.2 _ hmem _ mem_cons_self rfl
    obtain ⟨c, events, env, rfl, rfl, htext, hanswer, hrun⟩ := proveStatement_call prover hd hp
      he hdone hi hs (e.statement.initialStatus d)
    rw [outcome_provePending hnext hrun]
    by_cases hproven : c.status = .proven
    · have hleft' : p.pendingIn d = (done ++ [c]).map (fun c => (c.entry, c.position)) ++ left := by
        rw [hleft, map_append, append_assoc]
        rfl
      have hdone' : ∀ c' ∈ done ++ [c], c'.status = .proven :=
        forall_mem_append.mpr ⟨hdone, forall_mem_singleton.mpr hproven⟩
      obtain ⟨rounds, rfl⟩ := Nat.exists_eq_succ_of_ne_zero
        (Nat.ne_zero_of_lt (Nat.lt_of_succ_lt_succ hrounds))
      obtain ⟨calls, events', env', hcourse, hout⟩ := ih (done ++ [c])
        (s := ⟨p.marked (statusAfter d (done ++ [c])), events, env⟩) hleft' hdone' rfl
        (nextPending?_statusAfter hd hdone' hleft') rounds (Nat.lt_of_succ_lt_succ hrounds)
      rw [map_append] at hcourse
      refine ⟨c :: calls, events', env', .proven htext hanswer hproven hcourse, ?_⟩
      rw [if_pos hproven, hout, resultAfter_cons hproven, append_assoc, singleton_append]
    · exact ⟨[c], events, env, .stopped htext hanswer hproven, if_neg hproven⟩

/-- What is assumed can be reported if it can be written. -/
theorem outcome_reportAssumed {r : Registry} {es : List Entry}
    (h : ∀ e ∈ es, ∃ t, e.statement.formula.human r = .ok t) (s : ProofState σ) :
    ∃ events, outcome (reportAssumed r es) s = (.ok (), { s with events }) := by
  induction es generalizing s with
  | nil => exact ⟨s.events, rfl⟩
  | cons e es ih =>
    rw [forall_mem_cons] at h
    obtain ⟨⟨formula, hformula⟩, h⟩ := h
    rw [reportAssumed]
    split
    · rw [outcome_bind, hformula, outcome_ofExcept]
      simp only [outcome_bind, outcome_report]
      exact ih h _
    · exact ih h s

/-- A run in a single direction takes its course from the start. -/
theorem proveDirection_course (hd : d ≠ .both) (hp : s.problem.Renderable) (prover : Prover σ) :
    ∃ calls events env,
      Course prover s.problem d [] (s.problem.pendingIn d) s.environment calls env ∧
      outcome (proveDirection (.ofProver prover) d) s =
        (resultAfter calls, ⟨s.problem.marked (statusAfter d calls), events, env⟩) := by
  have hreset : s.problem.reset d = s.problem.marked (statusAfter d []) := reset_eq d s.problem
  have hlength : (s.problem.marked (statusAfter d [])).entries.length = s.problem.entries.length :=
    length_mapIdx
  have hwritable : ∀ e ∈ (s.problem.marked (statusAfter d [])).entries,
      ∃ t, e.statement.formula.human s.problem.registry = .ok t := fun e he => (hp.marked _ e he).1
  obtain ⟨events, hassumed⟩ := outcome_reportAssumed hwritable
    ⟨s.problem.marked (statusAfter d []), s.events ++
      [.directionStarted d (s.problem.marked (statusAfter d [])).pendingCount], s.environment⟩
  have hrounds : (s.problem.pendingIn d).length < s.problem.entries.length + 1 :=
    Nat.lt_succ_of_le (Nat.le_trans (length_filter_le _ _) (Nat.le_of_eq length_zipIdx))
  obtain ⟨calls, events', env, hcourse, hpending⟩ := provePending_course prover hd hp
    (s := ⟨s.problem.marked (statusAfter d []), events, s.environment⟩)
    _ (s.problem.pendingIn d) [] hrounds rfl (by simp) rfl
  rw [proveDirection, outcome_bind, outcome_update, hreset]
  simp only [outcome_bind, outcome_get, outcome_report, marked_registry, hassumed, hlength, hpending]
  cases hresult : resultAfter calls with
  | error e => exact ⟨calls, events', env, hcourse, by rw [hresult]; rfl⟩
  | ok status => exact ⟨calls, events' ++ [.directionFinished d status], env, hcourse, by rw [hresult]; rfl⟩

/-- A run leaves a problem in use. -/
theorem proveDirection_inUse (prover : Prover σ) (d : Direction) (hs : s.problem.proving = true) :
    (outcome (proveDirection (.ofProver prover) d) s).2.problem.proving = true := by
  have hrun := Process.Follows.proveDirection (Process.ofProver_follows prover) d
  rw [← hrun.same s hs]
  exact hrun.keeps.run hs

/-- A run in a single direction, with the problem in use. -/
theorem outcome_prove_single (q : ProverStep σ) (hd : d ≠ .both) (hfree : s.problem.proving = false) :
    outcome (prove q d) s = ((outcome (proveDirection q d) (setProving true s)).1,
      setProving false (outcome (proveDirection q d) (setProving true s)).2) := by
  have hparts : d.parts = [d] := by
    cases d with
    | both => exact absurd rfl hd
    | forward => rfl
    | backward => rfl
  rw [outcome_prove q d hfree, hparts, proveDirections, outcome_bind]
  rcases outcome (proveDirection q d) (setProving true s) with ⟨e | status, t⟩
  · rfl
  · cases status <;> rfl

/-- A run in both directions is one in each, unless the first fails. -/
theorem outcome_prove_both (prover : Prover σ) (hfree : s.problem.proving = false) :
    outcome (prove (.ofProver prover) .both) s =
      outcome (do
        let status ← prove (.ofProver prover) .forward
        let other ← prove (.ofProver prover) .backward
        return if status = .proven then other else status) s := by
  have huse := proveDirection_inUse prover .forward (s := setProving true s) rfl
  rw [outcome_prove _ _ hfree, outcome_bind, outcome_prove_single _ (by decide) hfree]
  simp only [Direction.parts, proveDirections, outcome_bind]
  rcases hforward : outcome (proveDirection (.ofProver prover) .forward)
    (setProving true s) with ⟨e | status, t⟩
  · rfl
  · -- Between the directions the problem is free for a moment.
    rw [hforward] at huse
    have hagain : setProving true (setProving false t) = t := by
      show { t with problem := { t.problem with proving := true } } = t
      rw [← huse]
    simp only
    rw [outcome_prove_single _ (by decide) rfl, hagain]
    rcases outcome (proveDirection (.ofProver prover) .backward) t with ⟨e | other, u⟩
    · rfl
    · cases other <;> rfl

/-- What a run in one direction does: the requests that it makes and what they leave
behind. -/
structure RunShape (prover : Prover σ) (d : Direction) (s : ProofState σ) (calls : List ProverCall)
    (s' : ProofState σ) : Prop where
  /-- The prover is asked just that. -/
  answers : Answers prover s.environment calls s'.environment
  /-- The requests are for the first statements that are to be proven. -/
  order : calls.map (fun c => (c.entry, c.position)) <+: s.problem.pendingIn d
  /-- What is to be proven comes section by section, as it was added. -/
  sectionwise : (s.problem.pendingIn d).map (·.1.statement) = SectionKind.all.flatMap fun part =>
    (s.problem.statements part).filter (·.initialStatus d == .toProveLater)
  /-- No statement is submitted twice. -/
  once : (calls.map (·.position)).Nodup
  /-- What is submitted is the proof problem with the statement to be proven as its conjecture, and
  what is assumed and what has been proven before as its axioms. -/
  texts : ∀ before c after, calls = before ++ c :: after → c.text = Document.tptpText
    s.problem.registry (s.problem.sectionsWith (roleAfter d (before.map (·.position)) c.position))
  /-- If nothing breaks its line, then this is what the text says, after what all problems over the
  declarations say. -/
  reading : s.problem.OnLines → ∀ before c after, calls = before ++ c :: after →
    Tff.readings c.text = Tff.preamble s.problem.registry ++ ((s.problem.sectionsWith
      (roleAfter d (before.map (·.position)) c.position)).flatMap (·.formulas)).map
        (Document.statedAs s.problem.registry)
  /-- The statement to be proven is the only conjecture then. -/
  conjecture : s.problem.OnLines → ∀ c ∈ calls,
    (Tff.readings c.text).filter (·.role == Text.ofString "conjecture") =
      [⟨nameAfter (s.problem.entries.take c.position) c.entry, "conjecture",
        Document.formulaText s.problem.registry c.entry.statement.formula⟩]
  /-- The problem as a whole is written with the same names, before and after. -/
  written : ∀ q ∈ [s.problem, s'.problem],
    (q.document .tptp).result = .ok (Document.tptpText s.problem.registry
      (s.problem.sectionsWith fun _ _ => some "axiom")) ∧
    q.document .human = .human s.problem.registry
      (s.problem.sectionsWith fun _ _ => some "axiom")
  /-- An answer other than that it is proven or disproven leaves a statement as not proven, and an
  error as being proven. -/
  answered : ∀ c ∈ calls, (∀ v, c.answer = .ok v → c.status =
      if v.outcome = .proven then .proven else if v.outcome = .disproven then .disproven else .notProven) ∧
    ∀ e, c.answer = .error e → c.status = .toProveNow
  /-- Only the last request may be for a statement that is not proven. -/
  earlier : ∀ c ∈ calls.dropLast, c.status = .proven
  /-- If all are proven, nothing is left out. -/
  complete : (∀ c ∈ calls, c.status = .proven) →
    calls.map (fun c => (c.entry, c.position)) = s.problem.pendingIn d
  /-- The statements have the statuses of the answers, all others those of the start. -/
  statuses : s'.problem = s.problem.marked (statusAfter d calls)
  /-- The same holds of a run after this one. -/
  again : s'.problem.proving = false ∧ s'.problem.Ordered ∧ s'.problem.Renderable

/-- A run in one direction submits the statements to be proven until one is not, and a
run in both directions is two of these. -/
theorem prove_shape (prover : Prover σ) (hfree : s.problem.proving = false) (hordered : s.problem.Ordered)
    (hrenderable : s.problem.Renderable) :
    (∀ d ≠ .both, ∃ calls s', outcome (prove (.ofProver prover) d) s = (resultAfter calls, s') ∧
      RunShape prover d s calls s') ∧
    outcome (prove (.ofProver prover) .both) s =
      outcome (do
        let status ← prove (.ofProver prover) .forward
        let other ← prove (.ofProver prover) .backward
        return if status = .proven then other else status) s := by
  refine ⟨fun d hd => ?_, outcome_prove_both prover hfree⟩
  obtain ⟨calls, events, env, hcourse, hrun⟩ := proveDirection_course (s := setProving true s) hd
    hrenderable prover
  have hpositions : ∀ c ∈ calls, s.problem.entries[c.position]? = some c.entry := by
    intro c hc
    have hmem := hcourse.isPrefix.subset (mem_map_of_mem hc)
    exact mem_zipIdx_iff_getElem?.mp (mem_of_mem_filter hmem)
  have hstatuses : (setProving false (⟨(setProving true s).problem.marked (statusAfter d calls), events, env⟩ :
      ProofState σ)).problem = s.problem.marked (statusAfter d calls) := by
    show ({ registry := _, entries := _, proving := false } : Problem) = _
    rw [← hfree]
    rfl
  have htexts : ∀ before c after, calls = before ++ c :: after → c.text = Document.tptpText
      s.problem.registry (s.problem.sectionsWith (roleAfter d (before.map (·.position)) c.position)) := by
    intro before c after hcalls
    exact Except.ok.inj ((hcourse.text_eq hcalls).symm.trans (hrenderable.result_eq _))
  refine ⟨calls, _, by rw [outcome_prove_single _ hd hfree, hrun], ?_⟩
  exact {
    answers := hcourse.answers
    order := hcourse.isPrefix
    sectionwise := hordered.pendingIn_eq d
    once := hcourse.nodup (nodup_pendingIn _ d)
    texts := htexts
    reading := fun hlines before c after hcalls => by
      rw [htexts before c after hcalls, hlines.readings_eq fun _ _ _ => isLabel_roleAfter]
    conjecture := fun hlines c hc => by
      obtain ⟨before, after, hcalls⟩ := append_of_mem hc
      exact htexts before c after hcalls ▸ conjectures_tptpText hlines (hpositions c hc) _
    written := by
      have hwhole : ∀ q : Problem, (∀ format, q.document format = s.problem.document format) →
          (q.document .tptp).result = .ok (Document.tptpText s.problem.registry
            (s.problem.sectionsWith fun _ _ => some "axiom")) ∧
          q.document .human = .human s.problem.registry
            (s.problem.sectionsWith fun _ _ => some "axiom") := by
        intro q hq
        rw [hq, hq, document_eq, document_eq]
        exact ⟨hrenderable.result_eq _, rfl⟩
      refine forall_mem_cons.mpr ⟨hwhole _ fun _ => rfl, forall_mem_singleton.mpr (hwhole _ fun format => ?_)⟩
      rw [hstatuses, document_marked]
    answered := fun c _ => c.status_eq
    earlier := hcourse.earlier
    complete := hcourse.complete
    statuses := hstatuses
    again := ⟨rfl, hstatuses ▸ hordered.marked _, hstatuses ▸ hrenderable.marked _⟩ }

/-- A prover that proves what it is asked first, and nothing after that. -/
def tiring : Prover Nat := fun _ => do
  let asked ← get
  set (asked + 1)
  return ⟨if asked = 0 then .proven else .notProven, none⟩

/-- A program, lemmas for each direction and two assertions, of which one was given up
in an earlier run. -/
def interrupted : ProofState Nat :=
  let atom (name : String) : Formula := .atom (Text.ofString name) []
  let assertions := ((Problem.empty .empty).add .assertions
    { Statement.fresh .assertion (atom "q") with status := .toProveNow }).add .assertions
      (.fresh .assertion (atom "r"))
  let lemmas := (assertions.add .lemmas { Statement.fresh .auxiliary (atom "p") with direction :=
    .backward }).add
    .lemmas { Statement.fresh .auxiliary (atom "s") with name := "step" }
  ⟨lemmas.add .completedDefinitions (.fresh .program (atom "p")), [], 0⟩

theorem ordered_interrupted : interrupted.problem.Ordered :=
  ((((ordered_empty _).add _ _).add _ _).add _ _).add _ _ |>.add _ _

theorem renderable_interrupted : interrupted.problem.Renderable := by
  have hok : ∀ e ∈ interrupted.problem.entries,
      (e.statement.formula.human interrupted.problem.registry).toBool = true ∧
        (e.statement.formula.tptp interrupted.problem.registry).toBool = true := by decide
  have hexists : ∀ x : Except Error Text, x.toBool = true → ∃ t, x = .ok t := by
    intro x hx
    cases x with
    | error e => cases hx
    | ok t => exact ⟨t, rfl⟩
  exact fun e he => ⟨hexists _ (hok e he).1, hexists _ (hok e he).2⟩

theorem onLines_interrupted : interrupted.problem.OnLines :=
  ⟨by decide +kernel, by decide, by decide, by decide⟩

theorem prove_shape_interrupted :
    interrupted.problem.proving = false ∧ interrupted.problem.Ordered ∧ interrupted.problem.Renderable ∧
    interrupted.problem.OnLines ∧
    (outcome (prove (.ofProver tiring) .forward) interrupted).1 = .ok .notProven ∧
    ∃ calls s', outcome (prove (.ofProver tiring) .forward) interrupted = (resultAfter calls, s') ∧
      RunShape tiring .forward interrupted calls s' := by
  have hstatus : (outcome (prove (.ofProver tiring) .forward) interrupted).1 = .ok .notProven := by
    decide +kernel
  exact ⟨rfl, ordered_interrupted, renderable_interrupted, onLines_interrupted, hstatus,
    (prove_shape tiring rfl ordered_interrupted renderable_interrupted).1 .forward (by decide)⟩

/-- A prover that keeps what it is asked. -/
def recording : Prover (List Text) := fun text => do
  modify (· ++ [text])
  return ⟨.proven, none⟩

/-- An assertion with a comment that breaks its line, before what looks like a conjecture. -/
def miscommented : ProofState (List Text) :=
  let description := "as \ntff(other, conjecture, $false)."
  ⟨(Problem.empty .empty).add .assertions
    { Statement.fresh .assertion (.atom "p" []) with description }, [], []⟩

/-- A comment of two lines adds a conjecture to the one that is to be proven. -/
theorem prove_shape_miscommented :
    miscommented.problem.entries.map (fun e => (e.statement.formula.tptp .empty).toBool) = [true] ∧
    (outcome (prove (.ofProver recording) .forward) miscommented).2.environment.map (fun text =>
      ((Tff.readings text).filter (·.role == Text.ofString "conjecture")).map (·.name)) =
        [[Text.ofString "other", "statement_1"]] := by
  decide +kernel

end Proving

end LogicProgram
