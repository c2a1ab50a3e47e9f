import LogicProgram.Proofs.Completion.Dependency

/-!
# Dependencies and their cycles

A dependency is recorded with the join of all signs that were added for it, by the
completion or one by one, whatever their order.
-/

namespace LogicProgram

open List

namespace Polarity

/-- The occurrences of any of several signs. -/
def joinAll (signs : List Polarity) : Polarity := signs.foldl join none

theorem joinAll_concat (signs : List Polarity) (sign : Polarity) :
    joinAll (signs ++ [sign]) = (joinAll signs).join sign := foldl_concat _ _ _ _

/-- The order of the signs does not matter. -/
theorem joinAll_perm {signs signs' : List Polarity} (h : signs.Perm signs') :
    joinAll signs = joinAll signs' :=
  have : RightCommutative join := ⟨fun p q r => by rw [join_assoc, join_comm q, ← join_assoc]⟩
  h.foldl_eq none

end Polarity

namespace PredicateDeclaration

/-- The dependencies of a predicate are those for which signs were added, each with the join of
its signs. -/
def Records (d : PredicateDeclaration) (signs : Symbol → List Polarity) : Prop :=
  ∀ q sign, (q, sign) ∈ d.dependencies.getD [] ↔ signs q ≠ [] ∧ sign = Polarity.joinAll (signs q)

variable {d : PredicateDeclaration} {signs : Symbol → List Polarity}

theorem Records.any_iff (h : d.Records signs) (p : Symbol) :
    (d.dependencies.getD []).any (·.1 == p) = true ↔ signs p ≠ [] := by
  simp only [any_eq_true, beq_iff_eq]
  constructor
  · rintro ⟨⟨_, sign⟩, hmem, rfl⟩
    exact ((h _ sign).mp hmem).1
  · exact fun hne => ⟨_, (h p _).mpr ⟨hne, rfl⟩, rfl⟩

/-- A sign that is added comes after those that were added before. -/
theorem Records.addDependency (h : d.Records signs) (p : Symbol) (sign : Polarity) :
    (d.addDependency p sign).Records fun q => if q = p then signs q ++ [sign] else signs q := by
  intro q sign'
  simp only [PredicateDeclaration.addDependency, Option.getD_some]
  by_cases hne : signs p = []
  · rw [if_neg (fun hany => (h.any_iff p).mp hany hne), mem_append, mem_singleton, h,
      Prod.mk.injEq]
    by_cases hq : q = p
    · subst hq
      simp [hne, Polarity.joinAll, Polarity.join, Polarity.none]
    · simp [hq]
  · rw [if_pos ((h.any_iff p).mpr hne), mem_map]
    by_cases hq : q = p
    · -- The one entry of the dependency is widened.
      subst hq
      rw [if_pos rfl, Polarity.joinAll_concat]
      constructor
      · rintro ⟨⟨x, old⟩, hx, heq⟩
        by_cases hxq : x = q
        · subst hxq
          rw [if_pos rfl, Prod.mk.injEq] at heq
          exact ⟨by simp, by rw [← heq.2, ((h _ old).mp hx).2]⟩
        · rw [if_neg hxq, Prod.mk.injEq] at heq
          exact absurd heq.1 hxq
      · rintro ⟨-, rfl⟩
        exact ⟨(q, Polarity.joinAll (signs q)), (h _ _).mpr ⟨hne, rfl⟩, if_pos rfl⟩
    · rw [if_neg hq, ← h]
      constructor
      · rintro ⟨⟨x, old⟩, hx, heq⟩
        by_cases hxp : x = p
        · rw [if_pos hxp, Prod.mk.injEq] at heq
          exact absurd (heq.1.symm.trans hxp) hq
        · rw [if_neg hxp] at heq
          exact heq ▸ hx
      · exact fun hx => ⟨(q, sign'), hx, if_neg hq⟩

/-- Signs that are added one after the other. -/
theorem Records.addAll (h : d.Records signs) (added : List (Symbol × Polarity)) :
    (added.foldl (fun d a => d.addDependency a.1 a.2) d).Records fun q =>
      signs q ++ (added.filter (·.1 = q)).map (·.2) := by
  induction added generalizing d signs with
  | nil => simpa using h
  | cons a added ih =>
    have hall := ih (h.addDependency a.1 a.2)
    refine (iff_of_eq (congrArg (Records _) (funext fun q => ?_))).mp hall
    by_cases hq : a.1 = q
    · subst hq
      simp
    · simp [hq, Ne.symm hq]

end PredicateDeclaration

namespace Completion

/-- The signs under which a predicate occurs in the body of a definition; built-in predicates do
not count. -/
def signsIn (body : Formula) (q : Symbol) : List Polarity :=
  ((body.atoms.filter (!·.1.isBuiltInPredicate)).filter (·.1 = q)).map (·.2)

/-- Dependencies are recorded with the signs of the atoms. -/
theorem records_dependenciesOf (body : Formula) (d : PredicateDeclaration) :
    (dependenciesOf body d).Records (signsIn body) := by
  have hnone : PredicateDeclaration.Records { d with dependencies := some [] } fun _ => [] := by
    intro q sign
    simp
  exact hnone.addAll (body.atoms.filter (!·.1.isBuiltInPredicate))

end Completion

namespace Registry

variable {r r' : Registry} {p q : Symbol} {sign : Polarity} {signs : Symbol → Symbol → List Polarity}

/-- A predicate is recorded to depend on another under a sign. -/
def Depends (r : Registry) (p : Symbol) (sign : Polarity) (q : Symbol) : Prop :=
  (q, sign) ∈ r.dependenciesOf p

theorem depends_iff : r.Depends p sign q ↔
    ∃ d, r.predicate? p = some d ∧ (q, sign) ∈ d.dependencies.getD [] := by
  rw [Depends, dependenciesOf, mem_mergeSort]
  cases r.predicate? p with
  | none => simp
  | some d => simp

/-- How the dependencies of a registry came about: `signs p q` are the signs that were added for
the dependency of `p` on `q` since `p` got its dependencies from a completion, or at all. -/
inductive Built : Registry → (Symbol → Symbol → List Polarity) → Prop
  /-- No dependencies are known yet. -/
  | start {r : Registry} (hr : r.symbols.Nodup) (h : ∀ d ∈ r.predicates, d.dependencies = none) :
    Built r fun _ _ => []
  /-- A completion gives the predicates that it defines new dependencies. -/
  | complete {r r' : Registry} {signs : Symbol → Symbol → List Polarity} {e : Encoding}
    {c : Completion} (h : Built r signs) (hc : Returns (Completion.complete e) r c r') :
    Built r' fun p q =>
      (c.definition? p).elim (signs p q) fun d => Completion.signsIn (Completion.bodyOf d) q
  /-- One dependency of a declared predicate is added. -/
  | add {r : Registry} {signs : Symbol → Symbol → List Polarity} (h : Built r signs) {p : Symbol}
    (hp : p ∈ r.symbols) (q : Symbol) (sign : Polarity) :
    Built (r.updatePredicate p (·.addDependency q sign)) fun x y =>
      if x = p ∧ y = q then signs x y ++ [sign] else signs x y
  /-- Predicates are declared or become part of the interface. -/
  | declare {r r' : Registry} {signs : Symbol → Symbol → List Polarity} (h : Built r signs)
    (hr : r.Grows r') (hd : ∀ p, r'.dependenciesOf p = r.dependenciesOf p) : Built r' signs

theorem Built.nodup (h : Built r signs) : r.symbols.Nodup := by
  induction h with
  | start hr => exact hr
  | complete _ hc ih =>
    obtain ⟨-, rfl⟩ := (Completion.complete_returns _ _).unique hc
    exact (Completion.grows_recorded _ _).distinct ((grows_addGenerated _ _ _).distinct ih)
  | add _ _ q sign ih =>
    have hsymbols : ∀ r : Registry, ∀ p, (r.updatePredicate p (·.addDependency q sign)).symbols =
        r.symbols := by
      intro r p
      rw [symbols, symbols, updatePredicate, map_map]
      refine map_congr_left fun d _ => ?_
      rw [Function.comp_apply]
      split <;> rfl
    rw [hsymbols]
    exact ih
  | declare _ hr _ ih => exact hr.distinct ih

/-- A dependency is recorded if signs were added for it, as their join. -/
theorem Built.depends_iff (h : Built r signs) :
    r.Depends p sign q ↔ signs p q ≠ [] ∧ sign = Polarity.joinAll (signs p q) := by
  induction h generalizing p sign q with
  | @start r _ hnone =>
    rw [Registry.depends_iff]
    constructor
    · rintro ⟨d, hd, hmem⟩
      rw [hnone d (predicate?_eq_some hd).1] at hmem
      cases hmem
    · exact fun h => absurd rfl h.1
  | @complete r r' signs e c h hc ih =>
    obtain ⟨rfl, rfl⟩ := (Completion.complete_returns e r).unique hc
    have hpredicates : (Completion.completionIn e r).definitions.map (·.predicate) =
        Completion.definedPredicates r := Completion.map_predicate_definitionsFrom _ _ _
    dsimp only
    cases hd : (Completion.completionIn e r).definition? p with
    | some d =>
      have hmem := mem_of_find?_eq_some hd
      obtain rfl : d.predicate = p := by simpa using find?_some hd
      have hnodup := nodup_sortedPredicates h.nodup fun d => !d.isInput && !d.symbol.isBuiltInPredicate
      obtain ⟨x, hx, -, hxd⟩ := Completion.mem_definedPredicates.mp
        (hpredicates ▸ mem_map.mpr ⟨d, hmem, rfl⟩)
      obtain ⟨y, hy⟩ := Option.isSome_iff_exists.mp
        (isSome_predicate?.mpr (mem_map.mpr ⟨x, hx, hxd⟩))
      rw [Registry.depends_iff, Completion.predicate?_recorded (hpredicates ▸ hnodup) hmem,
        show (Completion.withParams e r).predicate? d.predicate = some y from hy]
      simp only [Option.map_some, Option.some.injEq, exists_eq_left']
      exact Completion.records_dependenciesOf _ y q sign
    | none =>
      have hnot : p ∉ (Completion.completionIn e r).definitions.map (·.predicate) := by
        intro hp
        obtain ⟨d, hmem, rfl⟩ := mem_map.mp hp
        exact absurd (beq_self_eq_true d.predicate) (find?_eq_none.mp hd d hmem)
      rw [Registry.depends_iff, Completion.predicate?_recorded_of_not_mem hnot, Option.elim_none, ← ih,
        Registry.depends_iff]
      rfl
  | @add r signs h x hx y new ih =>
    have hlookup := @predicate?_updatePredicate r p x (·.addDependency y new) fun _ => rfl
    rw [Registry.depends_iff, hlookup]
    by_cases hp : p = x
    · subst hp
      obtain ⟨d, hd⟩ := Option.isSome_iff_exists.mp (isSome_predicate?.mpr hx)
      have hrecords : d.Records (signs p) := by
        intro q sign
        rw [← ih, Registry.depends_iff, hd]
        simp
      have hadded := hrecords.addDependency y new q sign
      simpa [hd, (predicate?_eq_some hd).2] using hadded
    · have hkept : (r.predicate? p).map (fun d => if d.symbol = x then d.addDependency y new else d) =
          r.predicate? p := by
        cases hd : r.predicate? p with
        | none => rfl
        | some d => rw [Option.map_some, if_neg fun he => hp ((predicate?_eq_some hd).2.symm.trans he)]
      rw [hkept, ← Registry.depends_iff, ih]
      simp [hp]
  | declare _ _ hd ih => rw [Depends, hd, ← Depends, ih]

/-- A dependency in which a predicate that is not built in occurs positively. -/
def PositiveStep (r : Registry) (p q : Symbol) : Prop :=
  ∃ sign, r.Depends p sign q ∧ sign.positive = true ∧ q.isBuiltInPredicate = false

/-- A dependency on a private predicate. -/
def PrivateStep (r : Registry) (p q : Symbol) : Prop :=
  (∃ sign, r.Depends p sign q) ∧ r.isPrivate q = true

theorem mem_successors_isPositiveEdge : q ∈ r.successors isPositiveEdge p ↔ r.PositiveStep p q := by
  simp [successors, PositiveStep, Depends, isPositiveEdge]

theorem mem_successors_isPrivateEdge : q ∈ r.successors r.isPrivateEdge p ↔ r.PrivateStep p q := by
  simp [successors, PrivateStep, Depends, isPrivateEdge]

theorem hasPositiveCycle_iff : r.hasPositiveCycle p = true ↔ Relation.TransGen r.PositiveStep p p := by
  rw [hasPositiveCycle, reachesItself_iff, Reaches]
  simp only [mem_successors_isPositiveEdge]

theorem hasPrivateCycle_iff : r.hasPrivateCycle p = true ↔ Relation.TransGen r.PrivateStep p p := by
  rw [hasPrivateCycle, reachesItself_iff, Reaches]
  simp only [mem_successors_isPrivateEdge]

/-- A predicate is found on a cycle exactly if a path of one or more dependencies of the kind leads
from it back to it. The depth-first searches that find this out end by themselves on every graph. A
dependency carries the join of all signs that were added for it, in whatever order they are joined. -/
theorem Built.hasCycle_iff (h : Built r signs) (p : Symbol) :
    (r.hasPositiveCycle p = true ↔ Relation.TransGen r.PositiveStep p p) ∧
    (r.hasPrivateCycle p = true ↔ Relation.TransGen r.PrivateStep p p) ∧
    (∀ follow, ∃ visited,
      r.Searches follow p (r.successors follow p) [] ⟨r.reachesItself follow p, visited⟩) ∧
    ∀ sign q, r.Depends p sign q ↔ signs p q ≠ [] ∧
      ∀ order : List Polarity, order.Perm (signs p q) → sign = order.foldl Polarity.join .none := by
  refine ⟨hasPositiveCycle_iff, hasPrivateCycle_iff, fun follow => r.searches_reachesItself follow p,
    fun sign q => ?_⟩
  rw [h.depends_iff]
  refine and_congr_right fun _ => ⟨?_, fun hjoin => hjoin _ (.refl _)⟩
  rintro rfl order horder
  exact (Polarity.joinAll_perm horder).symm

/-- A predicate that needs another, which needs the absence of the first. -/
def alternation : List Rule :=
  let literal sign name : Rule.BodyLiteral := ⟨.plain, .literal ⟨sign, .symbolic (.function false name [])⟩⟩
  [⟨.ofAtom "on" [], [literal .plain "off"], 1⟩, ⟨.ofAtom "off" [], [literal .negated "on"], 2⟩]

/-- The registry with the dependencies of the alternation. -/
def alternating : Registry :=
  let s := (outcome (Encoding.addRules alternation) ⟨.empty, .empty⟩).2
  Completion.recorded (Completion.completionIn s.encoding s.registry).definitions
    (Completion.withParams s.encoding s.registry)

theorem definedPredicates_alternation : Completion.definedPredicates
    (outcome (Encoding.addRules alternation) ⟨.empty, .empty⟩).2.registry = [⟨"off", 0⟩, ⟨"on", 0⟩] :=
  Symbol.map_mergeSort_eq _ (by decide +kernel) (by decide)

/-- The second predicate of the alternation also needs the first. -/
def alternatingBoth : Registry :=
  alternating.updatePredicate ⟨"off", 0⟩ (·.addDependency ⟨"on", 0⟩ .onlyPositive)

theorem hasCycle_iff_alternating : ∃ signs, Built alternatingBoth signs ∧
    alternatingBoth.hasPositiveCycle ⟨"on", 0⟩ = true ∧
    Relation.TransGen alternatingBoth.PositiveStep ⟨"on", 0⟩ ⟨"on", 0⟩ := by
  have hstart : Built (outcome (Encoding.addRules alternation) ⟨.empty, .empty⟩).2.registry fun _ _ => [] :=
    .start (by decide) (by decide)
  have hdeclared : alternating.symbols.contains ⟨"off", 0⟩ = true := by
    rw [alternating, Completion.completionIn, Completion.withParams, definedPredicates_alternation]
    decide +kernel
  have hbuilt := (hstart.complete (Completion.complete_returns
    (outcome (Encoding.addRules alternation) ⟨.empty, .empty⟩).2.encoding _)).add
    (contains_iff_mem.mp hdeclared) ⟨"on", 0⟩ .onlyPositive
  have hcycle : alternatingBoth.hasPositiveCycle ⟨"on", 0⟩ = true := by
    rw [alternatingBoth, alternating, Completion.completionIn, Completion.withParams,
      definedPredicates_alternation]
    decide +kernel
  exact ⟨_, hbuilt, hcycle, (hbuilt.hasCycle_iff ⟨"on", 0⟩).1.mp hcycle⟩

end Registry

end LogicProgram
