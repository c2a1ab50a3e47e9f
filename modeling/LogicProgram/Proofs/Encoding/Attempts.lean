import LogicProgram.Proofs.Encoding.Scoping

/-!
# Rules that fail

A rule without a first-order reading leaves the declarations behind that were made
before it failed, and sometimes variables for the arguments of a predicate.
-/

namespace LogicProgram.Encoding

open Returns (bind_iff get_iff pure_iff)

variable {e : Error} {step : Step α} {scope : List Variable}

variable {α : Type} {c c' c'' : RuleContext} {s s' : State}

theorem Step.outcome_register (step : Registering α) (c : RuleContext) :
    (outcome (Step.register step) c).2 = ⟨(outcome step c.registry).2, c.scope⟩ := by
  rcases hrun : outcome step c.registry with ⟨e | a, r⟩
  all_goals
    have hrun' : (step.run c.registry : Except Error α × Registry) = _ := hrun
    simp only [Step.register, outcome_bind, outcome_get, hrun']
    rfl

/-- A relation between states that holds of everything that a single step does. -/
structure Step.Allowed (R : RuleContext → RuleContext → Prop) : Prop where
  refl : ∀ c, R c c
  trans : ∀ {c c' c''}, R c c' → R c' c'' → R c c''
  generated : ∀ c domain n, R c ⟨c.registry.addGenerated domain n, c.scope⟩
  function : ∀ c f, R c ⟨c.registry.declareFunction f, c.scope⟩
  predicate : ∀ c p, R c ⟨c.registry.declarePredicate p, c.scope⟩
  ruleVariable : ∀ name z, Always R (chooseValue (.variable name) z)

namespace Step.Allowed

variable {R : RuleContext → RuleContext → Prop} (hR : Allowed R)

include hR

theorem pure (a : α) : Always R (Pure.pure a : Step α) := Always.pure hR.refl a

theorem unsupported (feature : Text) :
    Always R (Step.unsupported feature : Step α) := Always.throw hR.refl _

theorem integer : Always R Step.integer :=
  Always.of_returns fun c => ⟨_, _, Step.integer_iff.mpr ⟨rfl, rfl⟩, hR.generated c _ 1⟩

theorem objects (n : Nat) : Always R (Step.objects n) :=
  Always.of_returns fun c => ⟨_, _, Step.objects_iff.mpr ⟨rfl, rfl⟩, hR.generated c _ n⟩

theorem declarePredicate (p : Symbol) :
    Always R (Step.register (Registering.predicate p)) := by
  intro c
  rw [Step.outcome_register]
  exact hR.predicate c p

theorem generatedObject :
    Always R (Step.register (Registering.generated (some .program))) :=
  Always.of_returns fun c =>
    ⟨_, _, Step.register_iff.mpr ⟨_, Registering.generated_iff.mpr ⟨rfl, rfl⟩, rfl⟩,
      hR.generated c _ 1⟩

/-- One computation follows on another. -/
theorem bind {β : Type} {x : Step α} {f : α → Step β} (hx : Always R x)
    (hf : ∀ a, Always R (f a)) : Always R (x >>= f) := Always.bind hR.trans hx hf

/-- A check that may fail. -/
theorem guard {p : Prop} [Decidable p] {feature : Text} {f : Unit → Step α}
    (hf : ∀ u, Always R (f u)) : Always R (if p then Step.unsupported feature >>= f else f ()) := by
  split
  · exact hR.bind (hR.unsupported feature) hf
  · exact hf ()

theorem chooseValue_function (external : Bool) (name : Text)
    (args : List Rule.Term) (z : Variable) :
    Always R (chooseValue (.function external name args) z) := by
  rw [chooseValue]
  refine hR.guard fun _ => hR.guard fun _ => hR.bind ?_ fun _ => hR.pure _
  intro c
  rw [Step.outcome_register]
  exact hR.function c ⟨name, 0⟩

/-- The values of a term, whose parts run one after the other. -/
theorem chooseValue (t : Rule.Term) (z : Variable) :
    Always R (chooseValue t z) := by
  induction t generalizing z with
  | number n | string s | infimum | supremum => exact hR.pure _
  | var name => exact hR.ruleVariable name z
  | function external name args => exact hR.chooseValue_function external name args z
  | binary op left right ihl ihr =>
    have hint : ∀ {β : Type} {f : Variable → Step β}, (∀ v, Always R (f v)) →
        Always R (Step.integer >>= f) := hR.bind hR.integer
    cases op
    case add | subtract | multiply =>
      exact hint fun i => hint fun j => hR.bind (ihl i) fun _ => hR.bind (ihr j) fun _ => hR.pure _
    case divide | modulo =>
      exact hint fun i => hint fun j => hint fun q => hint fun r =>
        hR.bind (ihl i) fun _ => hR.bind (ihl j) fun _ => hR.pure _
    all_goals exact hR.unsupported _
  | unary op arg ih =>
    cases op with
    | minus => exact hR.bind hR.integer fun n => hR.bind (ih n) fun _ => hR.pure _
    | absolute | bitNegation => exact hR.unsupported _
  | interval lower upper ihl ihu =>
    exact hR.bind hR.integer fun i => hR.bind hR.integer fun j => hR.bind hR.integer fun k =>
      hR.bind (ihl i) fun _ => hR.bind (ihu j) fun _ => hR.pure _
  | pool ts => exact hR.unsupported _

theorem chooseValues (ts : List Rule.Term) (zs : List Variable) :
    Always R (chooseValues ts zs) := by
  induction ts generalizing zs with
  | nil => exact hR.pure _
  | cons t ts ih =>
    cases zs with
    | nil => exact hR.pure _
    | cons z zs =>
      exact hR.bind (hR.chooseValue t z) fun _ => hR.bind (ih zs) fun _ => hR.pure _

theorem bodyAtom (sign : Rule.Sign) (name : Text) (args : List Rule.Term) :
    Always R (bodyAtom sign name args) := by
  rw [Encoding.bodyAtom]
  refine hR.bind (hR.declarePredicate _) fun _ => hR.bind (hR.objects _) fun params => ?_
  dsimp only
  split
  · exact hR.pure _
  · exact hR.bind (hR.chooseValues args params) fun _ => hR.pure _

theorem bodyComparison (op : Comparison) (left right : Rule.Term) :
    Always R (bodyComparison op left right) :=
  hR.bind hR.generatedObject fun x => hR.bind hR.generatedObject fun y =>
    hR.bind (hR.chooseValue left x) fun _ => hR.bind (hR.chooseValue right y) fun _ => hR.pure _

theorem bodyLiteral (l : Rule.Literal) : Always R (bodyLiteral l) := by
  obtain ⟨sign, atom⟩ := l
  cases atom with
  | boolean value =>
    rw [Encoding.bodyLiteral]
    dsimp only
    split
    · exact hR.bind (Always.throw hR.refl _) fun _ => hR.pure _
    · exact hR.pure _
  | symbolic t =>
    cases t
    case function external name args =>
      cases external with
      | true => exact hR.unsupported _
      | false => exact hR.bodyAtom sign name args
    all_goals exact hR.unsupported _
  | comparison op left right => exact hR.bodyComparison op left right

theorem body (bs : List Rule.BodyLiteral) : Always R (body bs) := by
  induction bs with
  | nil => exact hR.pure _
  | cons b bs ih =>
    refine hR.bind ?_ fun _ => hR.bind ih fun _ => hR.pure _
    obtain ⟨sign, element⟩ := b
    rw [bodyElement]
    refine hR.guard fun _ => ?_
    cases element with
    | literal l => exact hR.bodyLiteral l
    | _ => exact hR.unsupported _

theorem headAtom (t : Rule.Term) (place : Text) : Always R (headAtom t place) := by
  cases t
  case function external name args =>
    cases external with
    | true => exact hR.unsupported _
    | false => exact hR.bind (hR.declarePredicate _) fun _ => hR.pure _
  all_goals exact hR.unsupported _

theorem headShape (head : Rule.Head) : Always R (headShape head) := by
  cases head with
  | literal l =>
    obtain ⟨sign, atom⟩ := l
    rw [Encoding.headShape, literalShape]
    refine hR.guard fun _ => ?_
    cases atom with
    | boolean value => cases value <;> exact hR.pure _
    | symbolic t => exact hR.bind (hR.headAtom t _) fun _ => hR.pure _
    | comparison op left right => exact hR.unsupported _
  | choice left right elements =>
    rcases elements with _ | ⟨element, _ | ⟨other, rest⟩⟩
    · exact hR.guard fun _ => hR.unsupported _
    · obtain ⟨⟨sign, atom⟩, condition⟩ := element
      refine hR.guard fun _ => hR.guard fun _ => hR.guard fun _ => ?_
      cases atom with
      | symbolic t => exact hR.bind (hR.headAtom t _) fun _ => hR.pure _
      | _ => exact hR.unsupported _
    · exact hR.guard fun _ => hR.unsupported _
  | disjunction elements => exact hR.unsupported _

end Step.Allowed

section Registries

variable {R : Registry → Registry → Prop}

/-- For a variable of a rule at most one variable is made. -/
theorem always_chooseValue_variable (hrefl : ∀ r, R r r)
    (htrans : ∀ {r r' r''}, R r r' → R r' r'' → R r r'') (hnew : ∀ r ds, R r (r.addVariables ds))
    (hassign : ∀ {r v domain r'}, r.assignDomain v domain = .ok r' → R r r')
    (name : Text) (z : Variable) :
    Always (fun c c' => R c.registry c'.registry) (chooseValue (.variable name) z) := by
  have hsame : ∀ c : RuleContext, R c.registry c.registry := fun c => hrefl c.registry
  have hvariable : Always (fun c c' => R c.registry c'.registry) (Step.ruleVariable name) := by
    refine Always.bind htrans (Always.get hsame) fun c₀ => ?_
    dsimp only
    split
    · exact Always.pure hsame _
    · refine Always.bind htrans (fun c => ?_) fun v =>
        Always.bind htrans (fun c => hsame c) fun _ => Always.pure hsame _
      rw [Step.outcome_register]
      exact (Registering.namedVariable_iff.mpr ⟨rfl, rfl⟩ : Returns _ c.registry _ _) ▸ hnew _ _
  refine Always.bind htrans hvariable fun v => Always.bind htrans (fun c => ?_) fun _ =>
    Always.pure hsame _
  rw [Step.outcome_register]
  simp only [Registering.assignDomain, outcome_bind, outcome_get]
  split
  · next hr => exact hassign hr
  · exact hrefl _

/-- Whatever becomes of it, a step of the encoding does to the registry what `R` allows. -/
abbrev Build.Keeps (R : Registry → Registry → Prop) (x : Build α) : Prop :=
  Always (fun s s' => R s.registry s'.registry) x

theorem keeps_inRule (hstep : Always (fun c c' => R c.registry c'.registry) step)
    (scope : List Variable) : Build.Keeps R (inRule scope step) := by
  intro s
  have hs := hstep ⟨s.registry, scope⟩
  rcases hrun : outcome step ⟨s.registry, scope⟩ with ⟨e | a, c⟩
  all_goals
    have hrun' : (step.run ⟨s.registry, scope⟩ : Except Error α × RuleContext) = _ := hrun
    rw [hrun] at hs
    simp only [inRule, outcome_bind, outcome_get, hrun']
    exact hs

namespace Step.Allowed

variable (hR : Allowed fun c c' => R c.registry c'.registry)

include hR

theorem keeps_rfl (s : State) : R s.registry s.registry := hR.refl ⟨s.registry, []⟩

theorem keeps_bind {β : Type} {x : Build α} {f : α → Build β}
    (hx : x.Keeps R) (hf : ∀ a, (f a).Keeps R) : Build.Keeps R (x >>= f) :=
  Always.bind (fun {s t u} h h' =>
    @Allowed.trans _ hR ⟨s.registry, []⟩ ⟨t.registry, []⟩ ⟨u.registry, []⟩ h h') hx hf

theorem headParams (p : Symbol) : (headParams p).Keeps R := by
  refine hR.keeps_bind (fun s => hR.keeps_rfl s) fun s => ?_
  dsimp only
  split
  · exact fun s => hR.keeps_rfl s
  · exact hR.keeps_bind (keeps_inRule (hR.objects _) _) fun _ =>
      hR.keeps_bind (fun s => hR.keeps_rfl s) fun _ s => hR.keeps_rfl s

theorem addDefinition (isChoice : Bool) (name : Text) (args : List Rule.Term) (fs : List Formula)
    (scope : List Variable) : (addDefinition isChoice name args fs scope).Keeps R :=
  hR.keeps_bind (hR.headParams _) fun params =>
    hR.keeps_bind (keeps_inRule (hR.chooseValues args params) scope) fun _ s => hR.keeps_rfl s

/-- What every step does to the registry is what a rule does to it. -/
theorem addRule (rule : Rule) : (addRule rule).Keeps R := by
  refine hR.keeps_bind (keeps_inRule (hR.body _) _) fun ⟨fs, scope⟩ =>
    hR.keeps_bind (keeps_inRule (hR.headShape _) _) fun ⟨shape, scope'⟩ => ?_
  cases shape with
  | trivial | constraint => exact fun s => hR.keeps_rfl s
  | atom name args | choice name args => exact hR.addDefinition _ _ _ _ _

theorem addRules (rules : List Rule) : (addRules rules).Keeps R := by
  induction rules with
  | nil => exact fun s => hR.keeps_rfl s
  | cons rule rules ih => exact hR.keeps_bind (hR.addRule rule) fun _ => ih

end Step.Allowed

end Registries

/-- A well-formed scope stays well formed, and declarations are only added. -/
def RuleContext.Extends (c c' : RuleContext) : Prop :=
  c.WellFormed → c.registry.Grows c'.registry ∧ c'.WellFormed

theorem RuleContext.extends_of_grows {r : Registry} (h : c.registry.Grows r) :
    c.Extends ⟨r, c.scope⟩ := fun hc => ⟨h, hc.grows h⟩

/-- A name has a program variable, in scope or new. -/
theorem chooseValue_variable_returns (hc : c.WellFormed) (name : Text) (z : Variable) :
    ∃ f c', Returns (chooseValue (.variable name) z) c f c' := by
  have hfound : ∃ v c₁ r, Returns (Step.ruleVariable name) c v c₁ ∧
      c₁.registry.assignDomain v (some .program) = .ok r := by
    simp only [Step.ruleVariable, bind_iff, get_iff]
    generalize hknown : (if (name == "_") = true then none
      else c.scope.find? fun v => (c.registry.variableDeclaration v).name == name) = known
    cases known with
    | some v =>
      have hv : v ∈ c.scope := by
        split at hknown
        · cases hknown
        · exact List.mem_of_find?_eq_some hknown
      refine ⟨v, c, _, ⟨c, c, ⟨rfl, rfl⟩, ?_⟩, Registry.assignDomain_same (hc.domain v hv)⟩
      rw [hknown]
      exact pure_iff.mpr ⟨rfl, rfl⟩
    | none =>
      refine ⟨_, ⟨c.registry.addVariables #[⟨name, none⟩], c.scope ++ [c.registry.variableTable.size]⟩,
        _, ⟨c, c, ⟨rfl, rfl⟩, ?_⟩, Registry.assignDomain_last _ _ _⟩
      rw [hknown]
      simp only [bind_iff, Step.register_iff, Registering.namedVariable_iff,
        Returns.modify_iff, pure_iff]
      exact ⟨_, _, ⟨_, ⟨rfl, rfl⟩, rfl⟩, ⟨⟩, _, rfl, rfl, rfl⟩
  obtain ⟨v, c₁, r, hv, hr⟩ := hfound
  refine ⟨isValue z v, ⟨r, c₁.scope⟩, ?_⟩
  simp only [chooseValue, bind_iff, Step.register_iff, Registering.assignDomain_iff,
    pure_iff]
  exact ⟨v, c₁, hv, ⟨⟩, _, ⟨r, hr, rfl⟩, rfl, rfl⟩

theorem Step.allowed_extends : Step.Allowed RuleContext.Extends where
  refl := fun c hc => ⟨Registry.Grows.refl _, hc⟩
  trans := fun h h' hc => ⟨(h hc).1.trans (h' (h hc).2).1, (h' (h hc).2).2⟩
  generated := fun c domain n => RuleContext.extends_of_grows (c.registry.grows_addGenerated domain n)
  function := fun c f => RuleContext.extends_of_grows (c.registry.grows_declareFunction f)
  predicate := fun c p => RuleContext.extends_of_grows (c.registry.grows_declarePredicate p)
  ruleVariable := by
    intro name z c hc
    obtain ⟨f, c', h⟩ := chooseValue_variable_returns hc name z
    obtain ⟨v, -, -, -, hallocates⟩ := chooseValue_variable hc h
    rw [h]
    exact ⟨hallocates.grows, hallocates.wellFormed hc⟩

/-- A step of a rule that fails has changed the registry only. -/
theorem inRule_fails (h : Fails (inRule scope step) s e s') :
    s' = ⟨(outcome step ⟨s.registry, scope⟩).2.registry, s.encoding⟩ := by
  rcases hrun : outcome step ⟨s.registry, scope⟩ with ⟨e' | a, c⟩
  · have hrun' : (step.run ⟨s.registry, scope⟩ : Except Error α × RuleContext) = (.error e', c) := hrun
    rw [Fails, inRule] at h
    simp only [outcome_bind, outcome_get, hrun'] at h
    exact (congrArg Prod.snd h).symm
  · have hreturns : Returns (inRule scope step) s (a, c.scope) ⟨c.registry, s.encoding⟩ :=
      inRule_iff.mpr ⟨c.registry, hrun, rfl⟩
    exact (h.not_returns hreturns).elim

/-- A failed step of a rule does no harm. -/
theorem Scoped.inRule_fails (hs : Scoped s)
    (hc : RuleContext.WellFormed ⟨s.registry, scope⟩) (hstep : Always RuleContext.Extends step)
    (h : Fails (inRule scope step) s e s') : Scoped s' ∧ s.registry.Grows s'.registry := by
  rw [Encoding.inRule_fails h]
  have hgrows := (hstep ⟨s.registry, scope⟩ hc).1
  exact ⟨hs.grows hgrows, hgrows⟩

theorem headParams_not_fails {p : Symbol} (h : Fails (headParams p) s e s') : False := by
  rcases Fails.bind_iff.mp h with h | ⟨_, _, hget, h⟩
  · exact Fails.get_iff.mp h
  · obtain ⟨rfl, rfl⟩ := get_iff.mp hget
    split at h
    · exact Fails.pure_iff.mp h
    · rcases Fails.bind_iff.mp h with h | ⟨_, _, -, h⟩
      · have hobjects : Returns (inRule [] (Step.objects p.arity)) s (_, []) _ :=
          inRule_iff.mpr ⟨_, Step.objects_iff.mpr ⟨rfl, rfl⟩, rfl⟩
        exact h.not_returns hobjects
      · rcases Fails.bind_iff.mp h with h | ⟨_, _, -, h⟩
        · exact Fails.modify_iff.mp h
        · exact Fails.pure_iff.mp h

/-- If a rule for a predicate fails, it does so at the arguments. -/
theorem addDefinition_fails {isChoice : Bool} {name : Text} {args : List Rule.Term}
    {fs : List Formula} (hs : Scoped s) (hp : (⟨name, args.length⟩ : Symbol) ∈ s.registry.symbols)
    (hc : RuleContext.WellFormed ⟨s.registry, scope⟩)
    (h : Fails (addDefinition isChoice name args fs scope) s e s') :
    Scoped s' ∧ s.registry.Grows s'.registry := by
  rcases Fails.bind_iff.mp h with h | ⟨params, s₁, hparams, h⟩
  · exact (headParams_not_fails h).elim
  · obtain ⟨_, hs₁, hnew, -, -⟩ := headParams_scoped hs hp hparams scope
    rcases Fails.bind_iff.mp h with h | ⟨_, _, -, h⟩
    · have hvalues := hs₁.inRule_fails (hnew.wellFormed hc)
        (Step.allowed_extends.chooseValues args params) h
      exact ⟨hvalues.1, hnew.grows.trans hvalues.2⟩
    · exact (Fails.modify_iff.mp h).elim

/-- A rule that fails keeps the variables apart. -/
theorem addRule_fails {rule : Rule} (hs : Scoped s) (h : Fails (addRule rule) s e s') :
    Scoped s' ∧ s.registry.Grows s'.registry := by
  rcases Fails.bind_iff.mp h with h | ⟨⟨fs, scope⟩, _, hbody, h⟩
  · exact hs.inRule_fails (RuleContext.wellFormed_nil _) (Step.allowed_extends.body _) h
  · obtain ⟨r, hfs, rfl⟩ := inRule_iff.mp hbody
    have hyields := body_yields (RuleContext.wellFormed_nil _) hfs
    have hc := hyields.allocates.wellFormed (RuleContext.wellFormed_nil _)
    have hgrows := hyields.allocates.grows
    have hs₁ := hs.grows hgrows
    rcases Fails.bind_iff.mp h with h | ⟨⟨shape, scope'⟩, _, hshape, h⟩
    · have hhead := hs₁.inRule_fails hc (Step.allowed_extends.headShape _) h
      exact ⟨hhead.1, hgrows.trans hhead.2⟩
    · obtain ⟨r', hhead, rfl⟩ := inRule_iff.mp hshape
      have hfound := headShape_found hhead
      have hc' := hfound.allocates.wellFormed hc
      have hs₂ := hs₁.grows hfound.allocates.grows
      have hgrows₂ := hgrows.trans hfound.allocates.grows
      cases shape with
      | trivial => exact (Fails.pure_iff.mp h).elim
      | constraint => exact (Fails.modify_iff.mp h).elim
      | atom name args | choice name args =>
        have hdefinition := addDefinition_fails hs₂ (hfound.declared _ rfl) hc' h
        exact ⟨hdefinition.1, hgrows₂.trans hdefinition.2⟩

/-- Whatever becomes of a rule, the variables stay apart. -/
theorem addRule_attempted (hs : Scoped s) (rule : Rule) : Scoped (outcome (addRule rule) s).2 ∧
      s.registry.Grows (outcome (addRule rule) s).2.registry := by
  rcases fails_or_returns (addRule rule) s with ⟨e, h⟩ | ⟨u, h⟩
  · exact addRule_fails hs h
  · exact addRule_scoped hs h

/-- The states in which rules and declarations can leave the encoding of a program. -/
inductive Attempted : State → Prop
  /-- Some declarations, in which no predicate is declared twice, and no rules. -/
  | start {r : Registry} : r.symbols.Nodup → Attempted ⟨r, .empty⟩
  /-- After a further rule, whether or not it was accepted. -/
  | rule {s : State} (rule : Rule) : Attempted s → Attempted (outcome (addRule rule) s).2
  /-- After further declarations or a change of the interface. -/
  | declare {s : State} {r : Registry} : Attempted s → s.registry.Grows r → Attempted ⟨r, s.encoding⟩

/-- An attempted encoding keeps its variables apart. -/
theorem Attempted.scoped (h : Attempted s) : Scoped s ∧ s.registry.symbols.Nodup := by
  induction h with
  | start hnodup => exact ⟨Scoped.empty _, hnodup⟩
  | rule rule _ ih =>
    have hrule := addRule_attempted ih.1 rule
    exact ⟨hrule.1, hrule.2.distinct ih.2⟩
  | declare _ hgrows ih => exact ⟨ih.1.grows hgrows, hgrows.distinct ih.2⟩

/-- Rules that were all accepted were attempted. -/
theorem Attempted.addRules (hs : Attempted s) {rules : List Rule} {u : Unit}
    (h : Returns (addRules rules) s u s') : Attempted s' := by
  induction rules generalizing s with
  | nil =>
    obtain ⟨-, rfl⟩ := pure_iff.mp h
    exact hs
  | cons rule rules ih =>
    obtain ⟨_, s₁, hrule, hrules⟩ := bind_iff.mp h
    have hs₁ := hs.rule rule
    rw [hrule] at hs₁
    exact ih hs₁ hrules

end LogicProgram.Encoding
