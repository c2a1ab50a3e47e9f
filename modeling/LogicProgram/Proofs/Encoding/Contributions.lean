import LogicProgram.Proofs.Encoding.Attempts

/-!
# The contributions of rules

Rules are added one by one, whether or not the ones before were accepted. The encoding
is at all times that of the accepted rules: each has one entry, among the constraints or
with the predicate of its head, in the order of the rules.
-/

namespace LogicProgram

open List

/-- The predicate that a head of one atom speaks of. -/
def Rule.Head.symbol? : Rule.Head → Option Symbol
  | .literal ⟨_, .symbolic (.function _ name args)⟩ => some ⟨name, args.length⟩
  | .choice _ _ [⟨⟨_, .symbolic (.function _ name args)⟩, _⟩] => some ⟨name, args.length⟩
  | _ => none

/-- The head of a constraint. -/
def Rule.Head.isFalsity : Rule.Head → Bool
  | .literal ⟨_, .boolean false⟩ => true
  | _ => false

namespace Encoding

variable {s s' : State} {e e' : Encoding} {rule : Rule}

/-- The open formula that a rule is read as in a state, over the variables for the
arguments of its predicate. -/
def Contributes (params : List Variable) (s : State) (rule : Rule) (f : OpenFormula) : Prop :=
  ∃ isChoice name args fs chosen c c' s₁ c₁, Returns (body rule.body) ⟨s.registry, []⟩ fs c ∧
    Returns (headShape rule.head) c (if isChoice then .choice name args else .atom name args) c' ∧
    Returns (headParams ⟨name, args.length⟩) ⟨c'.registry, s.encoding⟩ params s₁ ∧
    Returns (chooseValues args params) ⟨s₁.registry, c'.scope⟩ chosen c₁ ∧
    f = ⟨c₁.scope, contribution isChoice ⟨name, args.length⟩ params fs chosen⟩

/-- The formula that a constraint is read as in a state. -/
def Excludes (s : State) (rule : Rule) (f : Formula) : Prop :=
  ∃ fs c c', Returns (body rule.body) ⟨s.registry, []⟩ fs c ∧ Returns (headShape rule.head) c .constraint c' ∧
    f = .close .universal c'.scope (.not (.and fs))

/-- The rules that were accepted, each with the state that it was added to, are what
an encoding consists of. -/
structure Records (e : Encoding) (accepted : List (State × Rule)) : Prop where
  distinct : (e.definitions.map (·.predicate)).Nodup
  /-- A definition has an entry for each rule of its predicate, over its variables. -/
  rules : ∀ d ∈ e.definitions, Forall₂ (fun a => Contributes d.params a.1 a.2)
    (accepted.filter fun a => a.2.head.symbol? = some d.predicate) d.rules
  heads : ∀ a ∈ accepted, ∀ p ∈ a.2.head.symbol?, p ∈ e.definitions.map (·.predicate)
  constraints : Forall₂ (fun a => Excludes a.1 a.2) (accepted.filter (·.2.head.isFalsity)) e.constraints

/-- The outcome of adding rules one by one: those that were accepted, each with the
state that it was added to, and the state at the end. -/
def attempts : List Rule → State → List (State × Rule) × State
  | [], s => ([], s)
  | rule :: rules, s =>
    let rest := attempts rules (outcome (addRule rule) s).2
    (if (outcome (addRule rule) s).1.isOk then (s, rule) :: rest.1 else rest.1, rest.2)

/-- At most a definition without entries was added, for a new predicate. -/
def Opens (e e' : Encoding) : Prop :=
  e' = e ∨ ∃ p params, p ∉ e.definitions.map (·.predicate) ∧
    e' = { e with definitions := e.definitions ++ [⟨p, params, []⟩] }

theorem headParams_opens {p : Symbol} {params : List Variable} (h : Returns (headParams p) s params s') :
    Opens s.encoding s'.encoding ∧ ∃ d ∈ s'.encoding.definitions, d.predicate = p ∧ d.params = params := by
  rcases headParams_cases h with ⟨d, hd, rfl, rfl⟩ | ⟨hnone, -, rfl⟩
  · exact ⟨.inl rfl, d, (definition?_eq_some hd).1, (definition?_eq_some hd).2, rfl⟩
  · exact ⟨.inr ⟨p, params, definition?_eq_none.mp hnone, rfl⟩, _, mem_append_right _ mem_cons_self, rfl, rfl⟩

theorem addDefinition_fails_opens {isChoice : Bool} {name : Text} {args : List Rule.Term} {fs : List Formula}
    {scope : List Variable} {err : Error} (h : Fails (addDefinition isChoice name args fs scope) s err s') :
    Opens s.encoding s'.encoding := by
  rcases Fails.bind_iff.mp h with h | ⟨params, s₁, hparams, h⟩
  · exact (headParams_not_fails h).elim
  · rcases Fails.bind_iff.mp h with h | ⟨_, _, -, h⟩
    · rw [inRule_fails h]
      exact (headParams_opens hparams).1
    · exact (Fails.modify_iff.mp h).elim

/-- A rule that fails changes no entry. -/
theorem addRule_fails_opens {err : Error} (h : Fails (addRule rule) s err s') :
    Opens s.encoding s'.encoding := by
  rcases Fails.bind_iff.mp h with h | ⟨⟨fs, scope⟩, _, hbody, h⟩
  · rw [inRule_fails h]
    exact .inl rfl
  obtain ⟨r, -, rfl⟩ := inRule_iff.mp hbody
  rcases Fails.bind_iff.mp h with h | ⟨⟨shape, scope'⟩, _, hshape, h⟩
  · rw [inRule_fails h]
    exact .inl rfl
  obtain ⟨r', -, rfl⟩ := inRule_iff.mp hshape
  cases shape with
  | trivial => exact (Fails.pure_iff.mp h).elim
  | constraint => exact (Fails.modify_iff.mp h).elim
  | atom name args | choice name args => exact addDefinition_fails_opens (s := ⟨r', s.encoding⟩) h

namespace Records

variable {accepted : List (State × Rule)}

theorem empty (r : Registry) : Records (State.mk r .empty).encoding [] where
  distinct := nodup_nil
  rules := nofun
  heads := nofun
  constraints := .nil

/-- Nothing is recorded of a new definition, as no rule was accepted for it. -/
theorem opens (h : Records e accepted) (ho : Opens e e') : Records e' accepted := by
  rcases ho with rfl | ⟨p, params, hp, rfl⟩
  · exact h
  refine ⟨?_, fun d hd => ?_, fun a ha q hq => ?_, h.constraints⟩
  · rw [map_append, nodup_append_comm]
    exact nodup_cons.mpr ⟨hp, h.distinct⟩
  · rcases mem_append.mp hd with hd | hd
    · exact h.rules d hd
    · obtain rfl := mem_singleton.mp hd
      have hnone : (accepted.filter fun a => a.2.head.symbol? = some p) = [] :=
        filter_eq_nil_iff.mpr fun a ha he => hp (h.heads a ha p (of_decide_eq_true he))
      show Forall₂ _ (accepted.filter fun a => a.2.head.symbol? = some p) []
      rw [hnone]
      exact .nil
  · rw [map_append]
    exact mem_append_left _ (h.heads a ha q hq)

/-- An accepted rule is recorded if its predicate has a definition. -/
theorem heads_append (h : Records e accepted)
    (hp : ∀ p ∈ rule.head.symbol?, p ∈ e.definitions.map (·.predicate)) :
    ∀ a ∈ accepted ++ [(s, rule)], ∀ p ∈ a.2.head.symbol?, p ∈ e.definitions.map (·.predicate) := by
  intro a ha p hap
  rcases mem_append.mp ha with ha | ha
  · exact h.heads a ha p hap
  · obtain rfl := mem_singleton.mp ha
    exact hp p hap

/-- A rule that says nothing. -/
theorem trivial (h : Records e accepted) (hhead : rule.head = .ofBoolean true) :
    Records e (accepted ++ [(s, rule)]) where
  distinct := h.distinct
  rules := fun d hd => by simpa [hhead, Rule.Head.symbol?] using h.rules d hd
  heads := h.heads_append (by simp [hhead, Rule.Head.symbol?])
  constraints := by simpa [hhead, Rule.Head.isFalsity] using h.constraints

/-- A constraint is the last one. -/
theorem constraint (h : Records e accepted) (hhead : rule.head = .ofBoolean false) {f : Formula}
    (hf : Excludes s rule f) :
    Records { e with constraints := e.constraints ++ [f] } (accepted ++ [(s, rule)]) where
  distinct := h.distinct
  rules := fun d hd => by simpa [hhead, Rule.Head.symbol?] using h.rules d hd
  heads := h.heads_append (by simp [hhead, Rule.Head.symbol?])
  constraints := by
    rw [filter_append, filter_cons_of_pos (by rw [hhead]; rfl)]
    exact rel_append h.constraints (.cons hf .nil)

/-- A rule for a predicate has the last entry of its definition. -/
theorem definition (h : Records e accepted) {d₀ : RuleFormulas} (hd₀ : d₀ ∈ e.definitions)
    (hsymbol : rule.head.symbol? = some d₀.predicate)
      (hfalsity : rule.head.isFalsity = false) {f : OpenFormula}
    (hf : Contributes d₀.params s rule f) :
    Records (e.addRuleFormula d₀.predicate f) (accepted ++ [(s, rule)]) where
  distinct := by
    rw [map_predicate_addRuleFormula]
    exact h.distinct
  rules := fun d hd => by
    rcases mem_addRuleFormula h.distinct hd₀ hd with ⟨hd, hne⟩ | rfl
    · simpa [hsymbol, hne.symm] using h.rules d hd
    · rw [filter_append, filter_cons_of_pos (by exact decide_eq_true hsymbol)]
      exact rel_append (h.rules d₀ hd₀) (.cons hf .nil)
  heads := by
    rw [map_predicate_addRuleFormula]
    refine h.heads_append fun p hp => ?_
    obtain rfl := Option.some.inj (hsymbol.symm.trans hp)
    exact mem_map_of_mem hd₀
  constraints := by simpa [hfalsity, addRuleFormula] using h.constraints

end Records

/-- An accepted rule is recorded last. -/
theorem addRule_records {accepted : List (State × Rule)} {u : Unit} (h : Records s.encoding accepted)
    (hrule : Returns (addRule rule) s u s') : Records s'.encoding (accepted ++ [(s, rule)]) := by
  obtain ⟨fs, c, shape, c', hbody, hshape, hadds⟩ := addRule_returns hrule
  have hhead := (headShape_found hshape).head
  have hdefinition : ∀ isChoice name args,
      Returns (headShape rule.head) c (if isChoice then .choice name args else .atom name args) c' →
      rule.head.symbol? = some ⟨name, args.length⟩ → rule.head.isFalsity = false →
      Returns (addDefinition isChoice name args fs c'.scope) ⟨c'.registry, s.encoding⟩ u s' →
      Records s'.encoding (accepted ++ [(s, rule)]) := by
    intro isChoice name args hshape hsymbol hfalsity hadds
    obtain ⟨params, s₁, chosen, c₁, hparams, hchosen, rfl⟩ := addDefinition_returns hadds
    obtain ⟨hopens, d, hd, hpredicate, rfl⟩ := headParams_opens hparams
    have hf : Contributes d.params s rule _ :=
      ⟨isChoice, name, args, fs, chosen, c, c', s₁, c₁, hbody, hshape, hparams, hchosen, rfl⟩
    have hrecords := (h.opens hopens).definition hd
        (hsymbol.trans (congrArg some hpredicate.symm)) hfalsity hf
    rwa [hpredicate] at hrecords
  cases shape with
  | trivial =>
    subst hadds
    exact h.trivial hhead
  | constraint =>
    subst hadds
    exact h.constraint hhead ⟨fs, c, c', hbody, hshape, rfl⟩
  | atom name args => exact hdefinition false name args hshape (hhead ▸ rfl) (hhead ▸ rfl) hadds
  | choice name args => exact hdefinition true name args hshape (hhead ▸ rfl) (hhead ▸ rfl) hadds

/-- What is recorded after further rules. -/
theorem attempts_records {accepted : List (State × Rule)} (rules : List Rule)
    (h : Records s.encoding accepted) :
    Records (attempts rules s).2.encoding (accepted ++ (attempts rules s).1) := by
  induction rules generalizing s accepted with
  | nil => simpa [attempts] using h
  | cons rule rules ih =>
    rw [attempts]
    rcases fails_or_returns (addRule rule) s with ⟨err, hfails⟩ | ⟨u, hreturns⟩
    · rw [hfails]
      exact ih (h.opens (addRule_fails_opens hfails))
    · have hrest := ih (addRule_records h hreturns)
      rw [append_assoc] at hrest
      rw [hreturns]
      exact hrest

/-- The encoding is at all times that of the accepted rules, and a further rule that
fails adds at most a definition without entries. -/
theorem attempts_accumulate (r : Registry) (rules : List Rule) :
    let run := attempts rules ⟨r, .empty⟩
    Records run.2.encoding run.1 ∧
    ∀ rule e s', Fails (addRule rule) run.2 e s' →
      s'.encoding.constraints = run.2.encoding.constraints ∧
      run.2.encoding.definitions <+: s'.encoding.definitions ∧
      ∀ d ∈ s'.encoding.definitions, d ∈ run.2.encoding.definitions ∨ d.rules = [] := by
  intro run
  refine ⟨attempts_records rules (Records.empty r), fun rule e s' hfails => ?_⟩
  rcases addRule_fails_opens hfails with h | ⟨p, params, -, h⟩
  · rw [h]
    exact ⟨rfl, prefix_rfl, fun d hd => .inl hd⟩
  · rw [h]
    refine ⟨rfl, prefix_append _ _, fun d hd => ?_⟩
    rcases mem_append.mp hd with hd | hd
    · exact .inl hd
    · exact .inr (by rw [mem_singleton.mp hd])

end Encoding

end LogicProgram
