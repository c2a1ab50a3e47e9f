import LogicProgram.Completion.Dependency
import LogicProgram.Proofs.Completion.Complete
import Mathlib.Data.Finset.Card
import Mathlib.Logic.Relation

/-!
# Cycles of dependencies

The search for a way from a predicate back to it marks what it enters, the predicate
itself apart. It ends, since each level of it marks a further predicate.
-/

namespace LogicProgram

open List

namespace Registry

variable {r r' : Registry} {follow : Symbol × Polarity → Bool} {p q : Symbol}

/-- The search without a bound on its depth: from the successors `qs` that are left of a predicate,
with `visited` marked, it ends with whether the goal was met and with what is marked then. -/
inductive Searches (r : Registry) (follow : Symbol × Polarity → Bool) (goal : Symbol) :
    (qs visited : List Symbol) → Search → Prop
  | done {visited : List Symbol} : Searches r follow goal [] visited ⟨false, visited⟩
  | meets {qs visited : List Symbol} : Searches r follow goal (goal :: qs) visited ⟨true, visited⟩
  /-- What is marked is passed over. -/
  | marked {q : Symbol} {qs visited : List Symbol} {found : Search} (hq : q ≠ goal)
    (hvisited : q ∈ visited) (hrest : Searches r follow goal qs visited found) :
    Searches r follow goal (q :: qs) visited found
  /-- The goal is met below a successor, which ends the search. -/
  | stops {q : Symbol} {qs visited visited' : List Symbol} (hq : q ≠ goal) (hnew : q ∉ visited)
    (hbelow : Searches r follow goal (r.successors follow q) (q :: visited) ⟨true, visited'⟩) :
    Searches r follow goal (q :: qs) visited ⟨true, visited'⟩
  /-- The goal is not met below a successor, and the search goes on. -/
  | goesOn {q : Symbol} {qs visited visited' : List Symbol} {found : Search} (hq : q ≠ goal)
    (hnew : q ∉ visited)
    (hbelow : Searches r follow goal (r.successors follow q) (q :: visited) ⟨false, visited'⟩)
    (hrest : Searches r follow goal qs visited' found) :
    Searches r follow goal (q :: qs) visited found

namespace Searches

variable {goal : Symbol} {qs visited visited' : List Symbol} {search : Search}

/-- What is marked stays so. -/
theorem subset (h : r.Searches follow goal qs visited search) : visited ⊆ search.visited := by
  induction h with
  | done | meets => exact List.Subset.refl _
  | marked _ _ _ ih => exact ih
  | stops _ _ _ ih => exact fun _ hx => ih (mem_cons_of_mem _ hx)
  | goesOn _ _ _ _ ih ih' => exact fun _ hx => ih' (ih (mem_cons_of_mem _ hx))

/-- If the goal is met, one of the successors leads to it. -/
theorem reached (h : r.Searches follow goal qs visited search) (hmet : search.met = true) :
    ∃ q ∈ qs, Relation.ReflTransGen (fun p q => q ∈ r.successors follow p) q goal := by
  induction h with
  | done => cases hmet
  | meets => exact ⟨goal, mem_cons_self, .refl⟩
  | marked _ _ _ ih => exact (ih hmet).imp fun _ h => ⟨mem_cons_of_mem _ h.1, h.2⟩
  | stops _ _ _ ih =>
    obtain ⟨x, hx, hpath⟩ := ih rfl
    exact ⟨_, mem_cons_self, .head hx hpath⟩
  | goesOn _ _ _ _ _ ih => exact (ih hmet).imp fun _ h => ⟨mem_cons_of_mem _ h.1, h.2⟩

/-- If the goal is not met, what leads on from all that is marked is marked. -/
theorem closed (h : r.Searches follow goal qs visited search) (hmet : search.met = false) :
    (∀ q ∈ qs, q ≠ goal ∧ q ∈ search.visited) ∧ ∀ x ∈ search.visited, x ∉ visited →
      ∀ y ∈ r.successors follow x, y ≠ goal ∧ y ∈ search.visited := by
  induction h with
  | done => exact ⟨by simp, fun x hx hnot => absurd hx hnot⟩
  | meets | stops => cases hmet
  | marked hq hvisited hrest ih =>
    obtain ⟨hqs, hclosed⟩ := ih hmet
    exact ⟨forall_mem_cons.mpr ⟨⟨hq, hrest.subset hvisited⟩, hqs⟩, hclosed⟩
  | @goesOn q qs visited visited' found hq hnew hbelow hrest ih ih' =>
    obtain ⟨hsucc, hinner⟩ := ih rfl
    obtain ⟨hqs, hclosed⟩ := ih' hmet
    have hsubset := hrest.subset
    refine ⟨forall_mem_cons.mpr ⟨⟨hq, hsubset (hbelow.subset mem_cons_self)⟩, hqs⟩, ?_⟩
    intro x hx hnot y hy
    -- `x` was marked after the search below `q`, or in it, or it is `q`.
    by_cases hafter : x ∈ visited'
    · have hy' : y ≠ goal ∧ y ∈ visited' := by
        by_cases hxq : x = q
        · exact hsucc y (hxq ▸ hy)
        · exact hinner x hafter (by simp [hxq, hnot]) y hy
      exact ⟨hy'.1, hsubset hy'.2⟩
    · exact hclosed x hx hafter y hy

end Searches

/-- A predicate that depends on something is declared. -/
theorem mem_symbols_of_mem_successors (h : q ∈ r.successors follow p) : p ∈ r.symbols := by
  rw [← isSome_predicate?]
  cases hp : r.predicate? p with
  | some d => rfl
  | none =>
    simp [successors, dependenciesOf, hp] at h

/-- The declared predicates that are not marked. -/
def unvisited (r : Registry) (visited : List Symbol) : Finset Symbol :=
  r.symbols.toFinset \ visited.toFinset

theorem card_unvisited_le {visited visited' : List Symbol} (h : visited ⊆ visited') :
    (r.unvisited visited').card ≤ (r.unvisited visited).card := by
  refine Finset.card_le_card fun x hx => ?_
  simp only [unvisited, Finset.mem_sdiff, mem_toFinset] at hx ⊢
  exact ⟨hx.1, fun hmem => hx.2 (h hmem)⟩

theorem card_unvisited_lt {visited : List Symbol} (hq : q ∈ r.symbols) (hnew : q ∉ visited) :
    (r.unvisited (q :: visited)).card < (r.unvisited visited).card := by
  refine Finset.card_lt_card (Finset.ssubset_iff_of_subset ?_ |>.mpr ⟨q, ?_, ?_⟩)
  · intro x hx
    simp only [unvisited, Finset.mem_sdiff, mem_toFinset, mem_cons, not_or] at hx ⊢
    exact ⟨hx.1, hx.2.2⟩
  · simp [unvisited, hq, hnew]
  · simp [unvisited]

/-- A search that has met the goal stays as it is. -/
theorem foldl_visit_of_met {below : Symbol → List Symbol → Search} {goal : Symbol} {found : Search}
    (h : found.met = true) (qs : List Symbol) : qs.foldl (Search.visit below goal) found = found :=
  foldl_fixed' (f := Search.visit below goal) (fun _ => if_pos h) qs

/-- The loop over successors needs no bound if the searches below need none. -/
theorem searches_foldl {below : Symbol → List Symbol → Search} {goal : Symbol} {depth : Nat}
    (hbelow : ∀ q visited, (r.unvisited visited).card < depth ∨ q ∉ r.symbols →
      r.Searches follow goal (r.successors follow q) visited (below q visited))
    (qs : List Symbol) {visited : List Symbol} (hdepth : (r.unvisited visited).card ≤ depth) :
    r.Searches follow goal qs visited (qs.foldl (Search.visit below goal) ⟨false, visited⟩) := by
  induction qs generalizing visited with
  | nil => exact .done
  | cons q qs ih =>
    rw [foldl_cons, Search.visit, if_neg Bool.false_ne_true]
    by_cases hq : q = goal
    · rw [if_pos hq, foldl_visit_of_met rfl, hq]
      exact .meets
    rw [if_neg hq]
    by_cases hvisited : q ∈ visited
    · rw [if_pos (contains_iff_mem.mpr hvisited)]
      exact .marked hq hvisited (ih hdepth)
    rw [if_neg (mt contains_iff_mem.mp hvisited)]
    have hsearch := hbelow q (q :: visited) <| by
      by_cases hdeclared : q ∈ r.symbols
      · exact .inl (Nat.lt_of_lt_of_le (card_unvisited_lt hdeclared hvisited) hdepth)
      · exact .inr hdeclared
    rcases hfound : below q (q :: visited) with ⟨_ | _, visited'⟩
    · rw [hfound] at hsearch
      have hgrown : (r.unvisited visited').card ≤ (r.unvisited visited).card :=
        card_unvisited_le fun x hx => hsearch.subset (mem_cons_of_mem q hx)
      exact .goesOn hq hvisited hsearch (ih (hgrown.trans hdepth))
    · rw [hfound] at hsearch
      rw [foldl_visit_of_met rfl]
      exact .stops hq hvisited hsearch

/-- The depth is never used up: each level marks a further declared predicate. -/
theorem searches_searchFrom {goal : Symbol} {depth : Nat} {visited : List Symbol}
    (hdepth : (r.unvisited visited).card < depth ∨ p ∉ r.symbols) :
    r.Searches follow goal (r.successors follow p) visited
      (r.searchFrom follow goal depth p visited) := by
  have hnowhere : ∀ p, p ∉ r.symbols → r.successors follow p = [] := fun p hp =>
    eq_nil_iff_forall_not_mem.mpr fun q hq => hp (mem_symbols_of_mem_successors hq)
  induction depth generalizing p visited with
  | zero =>
    rw [hnowhere p (hdepth.resolve_left (Nat.not_lt_zero _))]
    exact .done
  | succ depth ih =>
    rw [searchFrom]
    rcases hdepth with hlt | hp
    · exact searches_foldl (fun _ _ h => ih h) _ (Nat.le_of_lt_succ hlt)
    · rw [hnowhere p hp]
      exact .done

/-- One or more dependencies of a kind lead from one predicate to another. -/
def Reaches (r : Registry) (follow : Symbol × Polarity → Bool) : Symbol → Symbol → Prop :=
  Relation.TransGen fun p q => q ∈ r.successors follow p

/-- The search for a way back ends by itself. -/
theorem searches_reachesItself (r : Registry) (follow : Symbol × Polarity → Bool) (p : Symbol) :
    ∃ visited, r.Searches follow p (r.successors follow p) [] ⟨r.reachesItself follow p, visited⟩ := by
  refine ⟨_, searches_searchFrom (.inl (Nat.lt_succ_of_le ?_))⟩
  calc (r.unvisited []).card ≤ r.symbols.toFinset.card := Finset.card_le_card Finset.sdiff_subset
    _ ≤ r.symbols.length := toFinset_card_le _
    _ = r.predicates.length := length_map _

/-- A predicate is found to reach itself exactly if it does. -/
theorem reachesItself_iff : r.reachesItself follow p = true ↔ r.Reaches follow p p := by
  obtain ⟨visited, hsearch⟩ := r.searches_reachesItself follow p
  constructor
  · exact fun hmet => Relation.TransGen.head'_iff.mpr (hsearch.reached hmet)
  · intro hpath
    by_contra hmet
    obtain ⟨hsucc, hclosed⟩ := hsearch.closed (Bool.eq_false_iff.mpr hmet)
    -- Everything on a path from `p` is marked and is not `p`.
    have hall : ∀ q, r.Reaches follow p q → q ≠ p ∧ q ∈ visited := by
      intro q hq
      induction hq with
      | single hq => exact hsucc _ hq
      | tail _ hq ih => exact hclosed _ ih.2 not_mem_nil _ hq
    exact (hall p hpath).1 rfl

/-- The predicates that a predicate is known to depend on. -/
def dependencySymbols (r : Registry) (p : Symbol) : List Symbol :=
  (((r.predicate? p).bind (·.dependencies)).getD []).map (·.1)

/-- Dependencies without polarities lead to the known ones of their kind. -/
theorem mem_successors {kind : Symbol → Bool} :
    q ∈ r.successors (fun edge => kind edge.1) p ↔ q ∈ r.dependencySymbols p ∧ kind q = true := by
  simp only [successors, dependenciesOf, dependencySymbols, mem_map, mem_filter,
    mem_mergeSort]
  constructor
  · rintro ⟨edge, ⟨hedge, hkind⟩, rfl⟩
    exact ⟨⟨edge, hedge, rfl⟩, hkind⟩
  · rintro ⟨⟨edge, hedge, rfl⟩, hkind⟩
    exact ⟨edge, ⟨hedge, hkind⟩, rfl⟩

theorem predicate?_eq_some {d : PredicateDeclaration} (h : r.predicate? p = some d) :
    d ∈ r.predicates ∧ d.symbol = p :=
  ⟨mem_of_find?_eq_some h, by simpa using find?_some h⟩

/-- Changing one predicate changes what is known of it and of no other. -/
theorem predicate?_updatePredicate {change : PredicateDeclaration → PredicateDeclaration}
    (hchange : ∀ d, (change d).symbol = d.symbol) : (r.updatePredicate q change).predicate? p =
      (r.predicate? p).map fun d => if d.symbol = q then change d else d := by
  have hsymbol : ((· == p) ∘ PredicateDeclaration.symbol ∘
      fun d => if d.symbol = q then change d else d) = fun d => d.symbol == p := by
    funext d
    simp only [Function.comp_apply]
    split
    · rw [hchange]
    · rfl
  rw [predicate?, updatePredicate, find?_map]
  exact congrArg (fun test => (r.predicates.find? test).map _) hsymbol

end Registry

namespace PredicateDeclaration

/-- A dependency that is recorded is known from then on. -/
theorem mem_addDependency {d : PredicateDeclaration} {p q : Symbol} {polarity : Polarity} :
    q ∈ ((d.addDependency p polarity).dependencies.getD []).map (·.1) ↔
      q ∈ (d.dependencies.getD []).map (·.1) ∨ q = p := by
  simp only [addDependency, Option.getD_some]
  split
  · next hknown =>
    have hfst : (d.dependencies.getD []).map ((·.1) ∘ fun (x : Symbol × Polarity) =>
        if x.1 = p then (x.1, x.2.join polarity) else (x.1, x.2)) =
        (d.dependencies.getD []).map (·.1) := by
      refine map_congr_left fun x _ => ?_
      simp only [Function.comp_apply]
      split <;> rfl
    have hp : p ∈ (d.dependencies.getD []).map (·.1) := by
      simpa using hknown
    rw [map_map]
    refine (iff_of_eq (congrArg (q ∈ ·) hfst)).trans ⟨.inl, fun h => h.elim id ?_⟩
    rintro rfl
    exact hp
  · rw [map_append, mem_append, map_singleton, mem_singleton]

end PredicateDeclaration

namespace Completion

variable {r : Registry} {p q : Symbol} {ds : List CompletedDefinition}

/-- A body depends on its predicates that are not built in. -/
theorem mem_dependenciesOf {body : Formula} {d : PredicateDeclaration} :
    q ∈ ((dependenciesOf body d).dependencies.getD []).map (·.1) ↔
      body.mentions q ∧ q.isBuiltInPredicate = false := by
  have hfold : ∀ (as : List (Symbol × Polarity)) (d : PredicateDeclaration),
      q ∈ ((as.foldl (fun d a => d.addDependency a.1 a.2) d).dependencies.getD []).map (·.1) ↔
        q ∈ (d.dependencies.getD []).map (·.1) ∨ q ∈ as.map (·.1) := by
    intro as
    induction as with
    | nil => simp
    | cons a as ih =>
      intro d
      rw [foldl_cons, ih, PredicateDeclaration.mem_addDependency, map_cons,
        mem_cons, or_assoc]
  have hbody := hfold (body.atoms.filter (!·.1.isBuiltInPredicate)) { d with dependencies := some [] }
  refine hbody.trans ?_
  simp only [Option.getD_some, map_nil, not_mem_nil, false_or, Formula.mentions,
    any_eq_true, mem_map, mem_filter, Bool.not_eq_true', beq_iff_eq]
  constructor
  · rintro ⟨a, ⟨ha, hbuiltIn⟩, rfl⟩
    exact ⟨⟨a, ha, rfl⟩, hbuiltIn⟩
  · rintro ⟨⟨a, ha, rfl⟩, hbuiltIn⟩
    exact ⟨a, ⟨ha, hbuiltIn⟩, rfl⟩

theorem symbol_dependenciesOf (body : Formula) (d : PredicateDeclaration) :
    (dependenciesOf body d).symbol = d.symbol :=
  congrArg Prod.fst (interfaceOf_dependenciesOf body d)

/-- Recording dependencies changes nothing for other predicates. -/
theorem predicate?_recorded_of_not_mem (hp : p ∉ ds.map (·.predicate)) :
    (recorded ds r).predicate? p = r.predicate? p := by
  induction ds generalizing r with
  | nil => rfl
  | cons d ds ih =>
    rw [map_cons, mem_cons, not_or] at hp
    have hstep : (r.updatePredicate d.predicate (dependenciesOf (bodyOf d))).predicate? p =
        r.predicate? p := by
      rw [Registry.predicate?_updatePredicate (symbol_dependenciesOf (bodyOf d))]
      cases hd : r.predicate? p with
      | none => rfl
      | some d' =>
        have hsymbol := (Registry.predicate?_eq_some hd).2
        rw [Option.map_some, if_neg fun he => hp.1 (hsymbol ▸ he)]
    exact (ih hp.2).trans hstep

/-- What is known of a predicate once its definition is recorded. -/
theorem predicate?_recorded {d : CompletedDefinition} (hnodup : (ds.map (·.predicate)).Nodup)
    (hd : d ∈ ds) : (recorded ds r).predicate? d.predicate =
      (r.predicate? d.predicate).map (dependenciesOf (bodyOf d)) := by
  induction ds generalizing r with
  | nil => cases hd
  | cons d' ds ih =>
    rw [map_cons, nodup_cons] at hnodup
    have hstep := @Registry.predicate?_updatePredicate r d.predicate d'.predicate
      (dependenciesOf (bodyOf d')) (symbol_dependenciesOf (bodyOf d'))
    have hrec : (recorded (d' :: ds) r).predicate? d.predicate =
        (recorded ds (r.updatePredicate d'.predicate (dependenciesOf (bodyOf d')))).predicate?
          d.predicate := rfl
    rcases mem_cons.mp hd with rfl | hd
    · rw [hrec, predicate?_recorded_of_not_mem hnodup.1, hstep]
      cases hp : r.predicate? d.predicate with
      | none => rfl
      | some x => rw [Option.map_some, if_pos (Registry.predicate?_eq_some hp).2, Option.map_some]
    · have hne : d.predicate ≠ d'.predicate := fun he =>
        hnodup.1 (he ▸ mem_map_of_mem (f := (·.predicate)) hd)
      rw [hrec, ih hnodup.2 hd, hstep]
      cases hp : r.predicate? d.predicate with
      | none => rfl
      | some x =>
        rw [Option.map_some, if_neg fun he => hne ((Registry.predicate?_eq_some hp).2 ▸ he)]

/-- A defined predicate depends on what the body of its definition mentions. -/
theorem mem_dependencySymbols_recorded {d : CompletedDefinition}
    (hnodup : (ds.map (·.predicate)).Nodup) (hd : d ∈ ds) (hp : d.predicate ∈ r.symbols) :
    q ∈ (recorded ds r).dependencySymbols d.predicate ↔
      (bodyOf d).mentions q ∧ q.isBuiltInPredicate = false := by
  obtain ⟨x, hx⟩ := Option.isSome_iff_exists.mp (Registry.isSome_predicate?.mpr hp)
  rw [Registry.dependencySymbols, predicate?_recorded hnodup hd, hx]
  exact mem_dependenciesOf

end Completion

end LogicProgram
