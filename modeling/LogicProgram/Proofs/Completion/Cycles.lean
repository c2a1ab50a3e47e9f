import LogicProgram.Proofs.Completion.Reachability
import Mathlib.Data.List.Chain
import Mathlib.Data.List.TakeWhile

/-!
# Cycles of positive dependencies

The cycles that the depth-first search reports are cycles, and it reports one whenever
it comes by a predicate that depends on itself positively. The search keeps the path by
which it came; a predicate that it has left is settled: all that it depends on has been
left too, so that it is on no cycle unless one was reported.
-/

namespace LogicProgram

open List

variable {r : Registry} {ps path : List Symbol} {p q : Symbol} {found : CycleSearch} {depth : Nat}

/-- A path of positive dependencies back to where it starts, which passes no other predicate
twice. -/
def Registry.IsPositiveCycle (r : Registry) (path : List Symbol) : Prop :=
  ∃ p inner, path = p :: inner ++ [p] ∧ (p :: inner).Nodup ∧ path.IsChain r.PositiveStep

/-- The first predicate of a cycle depends on itself. -/
theorem Registry.IsPositiveCycle.transGen (h : r.IsPositiveCycle path) :
    ∃ p ∈ path, Relation.TransGen r.PositiveStep p p := by
  obtain ⟨p, inner, rfl, -, hchain⟩ := h
  refine ⟨p, mem_append_right _ (mem_singleton_self p), ?_⟩
  have hfirst : ∃ q rest, inner ++ [p] = q :: rest := by
    cases inner with
    | nil => exact ⟨p, [], rfl⟩
    | cons q inner => exact ⟨q, inner ++ [p], rfl⟩
  obtain ⟨q, rest, heq⟩ := hfirst
  rw [cons_append, heq, isChain_cons_cons] at hchain
  refine .head' hchain.1 (relationReflTransGen_of_exists_isChain_cons rest hchain.2 ?_)
  simp only [← heq, getLast_append_singleton]

namespace CycleSearch

/-- A path that comes back to one of its predicates ends with a cycle. -/
theorem isPositiveCycle_cycleAt (hnodup : path.Nodup) (hchain : (path ++ [q]).IsChain r.PositiveStep)
    (hq : q ∈ path) : r.IsPositiveCycle (cycleAt path q) := by
  obtain ⟨before, inner, rfl, hbefore⟩ := eq_append_cons_of_mem hq
  have hdropped : before.dropWhile (· != q) = [] := by
    rw [dropWhile_eq_nil_iff]
    exact fun x hx => bne_iff_ne.mpr fun he => hbefore (he ▸ hx)
  have hcycle : cycleAt (before ++ q :: inner) q = q :: inner ++ [q] := by
    simp [cycleAt, dropWhile_append, hdropped]
  refine ⟨q, inner, hcycle, (nodup_append.mp hnodup).2.1, ?_⟩
  rw [hcycle]
  exact hchain.suffix ⟨before, (append_assoc _ _ _).symm⟩

/-- A predicate can be reached from the list where the search starts. -/
def Reached (r : Registry) (ps : List Symbol) (p : Symbol) : Prop :=
  ∃ s ∈ ps, Relation.ReflTransGen r.PositiveStep s p

/-- What holds whenever the search from `ps` stands at the end of `path`. -/
structure Along (r : Registry) (ps path : List Symbol) (found : CycleSearch) : Prop where
  visited : ∀ p ∈ path, p ∈ found.visited
  nodup : path.Nodup
  chain : path.IsChain r.PositiveStep
  /-- The predicates visited can be reached. -/
  reached : ∀ p ∈ found.visited, Reached r ps p
  /-- The cycles reported are cycles of predicates visited. -/
  genuine : ∀ cycle ∈ found.cycles, r.IsPositiveCycle cycle ∧ ∀ p ∈ cycle, p ∈ found.visited
  /-- Unless a cycle was reported, a predicate that was left depends on such predicates only. -/
  closed : found.cycles = [] → ∀ p ∈ found.visited, p ∉ path → ∀ q, r.PositiveStep p q →
    q ∈ found.visited ∧ q ∉ path
  /-- Unless a cycle was reported, a predicate that was left is on none. -/
  acyclic : found.cycles = [] → ∀ p ∈ found.visited, p ∉ path → ¬ Relation.TransGen r.PositiveStep p p

namespace Along

/-- A predicate that was not visited before is put at the end of the path. -/
theorem enter (h : Along r ps path found) (hnew : p ∉ found.visited)
    (hchain : (path ++ [p]).IsChain r.PositiveStep) (hp : Reached r ps p) :
    Along r ps (path ++ [p]) { found with visited := p :: found.visited } where
  visited x hx := by
    rcases mem_append.mp hx with hx | hx
    · exact mem_cons_of_mem p (h.visited x hx)
    · exact mem_singleton.mp hx ▸ mem_cons_self
  nodup := by
    rw [← concat_eq_append]
    exact h.nodup.concat fun hmem => hnew (h.visited p hmem)
  chain := hchain
  reached x hx := by
    rcases mem_cons.mp hx with rfl | hx
    · exact hp
    · exact h.reached x hx
  genuine cycle hcycle :=
    ⟨(h.genuine cycle hcycle).1, fun x hx => mem_cons_of_mem p ((h.genuine cycle hcycle).2 x hx)⟩
  closed hnone x hx hnot q hxq := by
    have hnot' : x ∉ path := fun hmem => hnot (mem_append_left _ hmem)
    have hx' := (mem_cons.mp hx).resolve_left fun he => hnot (by simp [he])
    obtain ⟨hq, hqpath⟩ := h.closed hnone x hx' hnot' q hxq
    refine ⟨mem_cons_of_mem p hq, fun hmem => ?_⟩
    rcases mem_append.mp hmem with hmem | hmem
    · exact hqpath hmem
    · exact hnew (mem_singleton.mp hmem ▸ hq)
  acyclic hnone x hx hnot := by
    have hnot' : x ∉ path := fun hmem => hnot (mem_append_left _ hmem)
    have hx' := (mem_cons.mp hx).resolve_left fun he => hnot (by simp [he])
    exact h.acyclic hnone x hx' hnot'

/-- Unless a cycle was reported, what a left predicate leads to was left. -/
theorem closed_reflTransGen (h : Along r ps path found) (hnone : found.cycles = [])
    (hp : p ∈ found.visited) (hnot : p ∉ path) (hpq : Relation.ReflTransGen r.PositiveStep p q) :
    q ∈ found.visited ∧ q ∉ path := by
  induction hpq with
  | refl => exact ⟨hp, hnot⟩
  | tail _ hstep ih => exact h.closed hnone _ ih.1 ih.2 _ hstep

/-- The last predicate is left once all that it depends on was left. -/
theorem leave (h : Along r ps (path ++ [p]) found)
    (hdone : found.cycles = [] → ∀ q, r.PositiveStep p q → q ∈ found.visited ∧ q ∉ path ++ [p]) :
    Along r ps path found where
  visited x hx := h.visited x (mem_append_left _ hx)
  nodup := (nodup_append.mp h.nodup).1
  chain := (isChain_append.mp h.chain).1
  reached := h.reached
  genuine := h.genuine
  closed hnone x hx hnot q hxq := by
    have hq : q ∈ found.visited ∧ q ∉ path ++ [p] := by
      by_cases hxp : x = p
      · exact hdone hnone q (hxp ▸ hxq)
      · exact h.closed hnone x hx (by simp [hnot, hxp]) q hxq
    exact ⟨hq.1, fun hmem => hq.2 (mem_append_left _ hmem)⟩
  acyclic hnone x hx hnot hcycle := by
    by_cases hxp : x = p
    · subst hxp
      -- What follows the predicate on the cycle was left, and with it the predicate itself.
      obtain ⟨q, hstep, hback⟩ := Relation.TransGen.head'_iff.mp hcycle
      obtain ⟨hq, hqpath⟩ := hdone hnone q hstep
      exact (h.closed_reflTransGen hnone hq hqpath hback).2 (by simp)
    · exact h.acyclic hnone x hx (by simp [hnot, hxp]) hcycle

/-- A dependency back to the path is reported. -/
theorem report (h : Along r ps path found) (hchain : (path ++ [q]).IsChain r.PositiveStep)
    (hq : q ∈ path) :
    Along r ps path { found with cycles := found.cycles ++ [cycleAt path q] } where
  visited := h.visited
  nodup := h.nodup
  chain := h.chain
  reached := h.reached
  genuine cycle hcycle := by
    rcases mem_append.mp hcycle with hcycle | hcycle
    · exact h.genuine cycle hcycle
    · rw [mem_singleton.mp hcycle]
      refine ⟨isPositiveCycle_cycleAt h.nodup hchain hq, fun x hx => ?_⟩
      rcases mem_append.mp hx with hx | hx
      · exact h.visited x ((dropWhile_sublist _).subset hx)
      · exact h.visited x (mem_singleton.mp hx ▸ hq)
  closed hnone := absurd hnone (by simp)
  acyclic hnone := absurd hnone (by simp)

end Along

/-- The search goes on: what was visited or reported stays so. -/
structure Extends (found found' : CycleSearch) : Prop where
  visited : ∀ p ∈ found.visited, p ∈ found'.visited
  cycles : found'.cycles = [] → found.cycles = []

theorem Extends.refl (found : CycleSearch) : found.Extends found := ⟨fun _ h => h, fun h => h⟩

theorem Extends.trans {a b c : CycleSearch} (h : a.Extends b) (h' : b.Extends c) : a.Extends c :=
  ⟨fun p hp => h'.visited p (h.visited p hp), fun hc => h.cycles (h'.cycles hc)⟩

/-- What the search does with a predicate that the last one of the path depends on. -/
def follow (r : Registry) (depth : Nat) (path : List Symbol) (found : CycleSearch) (q : Symbol) :
    CycleSearch :=
  if !found.visited.contains q then visit r depth path q found
  else if path.contains q then { found with cycles := found.cycles ++ [cycleAt path q] }
  else found

theorem visit_succ (r : Registry) (depth : Nat) (path : List Symbol) (p : Symbol) (found : CycleSearch) :
    visit r (depth + 1) path p found = (r.successors Registry.isPositiveEdge p).foldl
      (follow r depth (path ++ [p])) { found with visited := p :: found.visited } := rfl

/-- With a given depth, visits from the end of a path leave the search at the end of that path. -/
def Visits (r : Registry) (ps : List Symbol) (depth : Nat) (path : List Symbol) : Prop :=
  ∀ found q, Along r ps path found → q ∉ found.visited → (path ++ [q]).IsChain r.PositiveStep →
    Reached r ps q → Along r ps path (visit r depth path q found) ∧
      found.Extends (visit r depth path q found) ∧ q ∈ (visit r depth path q found).visited

/-- After a dependency, its predicate was left, unless a cycle was reported. -/
theorem follow_along (hvisit : Visits r ps depth path) (h : Along r ps path found)
    (hchain : (path ++ [q]).IsChain r.PositiveStep) (hq : Reached r ps q) :
    Along r ps path (follow r depth path found q) ∧ found.Extends (follow r depth path found q) ∧
      ((follow r depth path found q).cycles = [] →
        q ∈ (follow r depth path found q).visited ∧ q ∉ path) := by
  rw [follow]
  split
  · next hnew =>
    have hnew' : q ∉ found.visited := by simpa using hnew
    obtain ⟨halong, hextends, hmem⟩ := hvisit found q h hnew' hchain hq
    exact ⟨halong, hextends, fun _ => ⟨hmem, fun hpath => hnew' (h.visited q hpath)⟩⟩
  · next hold =>
    have hmem : q ∈ found.visited := by simpa using hold
    split
    · next hpath =>
      refine ⟨h.report hchain (contains_iff_mem.mp hpath), ⟨fun _ hp => hp, ?_⟩, ?_⟩ <;>
        exact fun hnone => absurd hnone (by simp)
    · next hpath =>
      exact ⟨h, .refl _, fun _ => ⟨hmem, fun hq => hpath (contains_iff_mem.mpr hq)⟩⟩

/-- The same after several dependencies were followed. -/
theorem foldl_follow_along (hvisit : Visits r ps depth path) {qs : List Symbol}
    (h : Along r ps path found) (hchain : ∀ q ∈ qs, (path ++ [q]).IsChain r.PositiveStep)
    (hqs : ∀ q ∈ qs, Reached r ps q) : Along r ps path (qs.foldl (follow r depth path) found) ∧
      found.Extends (qs.foldl (follow r depth path) found) ∧
      ((qs.foldl (follow r depth path) found).cycles = [] →
        ∀ q ∈ qs, q ∈ (qs.foldl (follow r depth path) found).visited ∧ q ∉ path) := by
  induction qs generalizing found with
  | nil => exact ⟨h, .refl _, fun _ q hq => nomatch hq⟩
  | cons q qs ih =>
    obtain ⟨halong, hextends, hleft⟩ :=
      follow_along hvisit h (hchain q mem_cons_self) (hqs q mem_cons_self)
    obtain ⟨halong', hextends', hleft'⟩ := ih halong
      (fun x hx => hchain x (mem_cons_of_mem q hx)) (fun x hx => hqs x (mem_cons_of_mem q hx))
    refine ⟨halong', hextends.trans hextends', fun hnone x hx => ?_⟩
    rcases mem_cons.mp hx with rfl | hx
    · obtain ⟨hmem, hpath⟩ := hleft (hextends'.cycles hnone)
      exact ⟨hextends'.visited x hmem, hpath⟩
    · exact hleft' hnone x hx

/-- A path that goes on is no longer than there are predicates. -/
theorem length_le_of_isChain (hnodup : path.Nodup) (hchain : (path ++ [q]).IsChain r.PositiveStep) :
    path.length ≤ r.predicates.length := by
  have hdeclared : path.toFinset ⊆ r.symbols.toFinset := by
    intro p hp
    obtain ⟨before, inner, rfl⟩ := append_of_mem (mem_toFinset.mp hp)
    obtain ⟨x, rest, hrest⟩ : ∃ x rest, inner ++ [q] = x :: rest := exists_cons_of_ne_nil (by simp)
    rw [append_assoc, cons_append, hrest] at hchain
    have hstep := (isChain_append_cons_cons.mp hchain).2.1
    exact mem_toFinset.mpr
      (Registry.mem_symbols_of_mem_successors (Registry.mem_successors_isPositiveEdge.mpr hstep))
  calc path.length = path.toFinset.card := (toFinset_card_of_nodup hnodup).symm
    _ ≤ r.symbols.toFinset.card := Finset.card_le_card hdeclared
    _ ≤ r.symbols.length := toFinset_card_le _
    _ = r.predicates.length := length_map _

/-- The depth suffices while the path is no longer than the predicates. -/
theorem visits (hdepth : r.predicates.length < depth + path.length) : Visits r ps depth path := by
  induction depth generalizing path with
  | zero =>
    intro found p h hnew hchain hp
    have hlength := length_le_of_isChain h.nodup hchain
    omega
  | succ depth ih =>
    intro found p h hnew hchain hp
    have hvisit : Visits r ps depth (path ++ [p]) := ih (by simp; omega)
    have hsteps : ∀ q ∈ r.successors Registry.isPositiveEdge p, r.PositiveStep p q :=
      fun q hq => Registry.mem_successors_isPositiveEdge.mp hq
    have hchains : ∀ q ∈ r.successors Registry.isPositiveEdge p,
        (path ++ [p] ++ [q]).IsChain r.PositiveStep := by
      intro q hq
      rw [append_assoc, singleton_append]
      exact isChain_append_cons_cons.mpr ⟨hchain, hsteps q hq, isChain_singleton q⟩
    have hreached : ∀ q ∈ r.successors Registry.isPositiveEdge p, Reached r ps q := by
      intro q hq
      obtain ⟨s, hs, hsp⟩ := hp
      exact ⟨s, hs, hsp.tail (hsteps q hq)⟩
    obtain ⟨halong, hextends, hleft⟩ :=
      foldl_follow_along hvisit (h.enter hnew hchain hp) hchains hreached
    rw [visit_succ]
    refine ⟨halong.leave fun hnone q hpq => ?_, ⟨fun x hx => ?_, hextends.cycles⟩, ?_⟩
    · exact hleft hnone q (Registry.mem_successors_isPositiveEdge.mpr hpq)
    · exact hextends.visited x (mem_cons_of_mem p hx)
    · exact hextends.visited p mem_cons_self

/-- What the search does with a predicate of the list where it starts. -/
def start (r : Registry) (found : CycleSearch) (p : Symbol) : CycleSearch :=
  if found.visited.contains p then found else visit r (r.predicates.length + 1) [] p found

theorem start_along (hp : p ∈ ps) (h : Along r ps [] found) :
    Along r ps [] (start r found p) ∧ found.Extends (start r found p) ∧ p ∈ (start r found p).visited := by
  rw [start]
  split
  · next hold => exact ⟨h, .refl _, contains_iff_mem.mp hold⟩
  · next hnew =>
    exact visits (by simp) found p h (fun hmem => hnew (contains_iff_mem.mpr hmem))
      (isChain_singleton p) ⟨p, hp, .refl⟩

theorem foldl_start_along {starts : List Symbol} (hstarts : starts ⊆ ps) (h : Along r ps [] found) :
    Along r ps [] (starts.foldl (start r) found) ∧ found.Extends (starts.foldl (start r) found) ∧
      ∀ p ∈ starts, p ∈ (starts.foldl (start r) found).visited := by
  induction starts generalizing found with
  | nil => exact ⟨h, .refl _, fun p hp => nomatch hp⟩
  | cons p starts ih =>
    obtain ⟨halong, hextends, hp⟩ := start_along (hstarts mem_cons_self) h
    obtain ⟨halong', hextends', hrest⟩ := ih (fun x hx => hstarts (mem_cons_of_mem p hx)) halong
    refine ⟨halong', hextends.trans hextends', fun x hx => ?_⟩
    rcases mem_cons.mp hx with rfl | hx
    · exact hextends'.visited x hp
    · exact hrest x hx

/-- The search visits the list and comes back to an empty path. -/
theorem visitAll_along (r : Registry) (ps : List Symbol) :
    Along r ps [] (visitAll r ps) ∧ ∀ p ∈ ps, p ∈ (visitAll r ps).visited := by
  have hempty : Along r ps [] ⟨[], []⟩ :=
    ⟨nofun, nodup_nil, .nil, nofun, nofun, fun _ => nofun, fun _ => nofun⟩
  obtain ⟨halong, -, hps⟩ := foldl_start_along (List.Subset.refl ps) hempty
  exact ⟨halong, hps⟩

end CycleSearch

open CycleSearch in
/-- The paths reported are cycles of positive dependencies that pass no predicate twice, and none is
reported exactly if no predicate that can be reached from the list depends on itself. -/
theorem Registry.positiveCycles_genuine_and_complete (r : Registry) (ps : List Symbol) :
    (∀ path ∈ r.positiveCycles ps, ∃ p inner, path = p :: inner ++ [p] ∧ (p :: inner).Nodup ∧
      path.IsChain r.PositiveStep) ∧
    (r.positiveCycles ps = [] ↔ ∀ p, (∃ s ∈ ps, Relation.ReflTransGen r.PositiveStep s p) →
      r.hasPositiveCycle p = false) := by
  obtain ⟨halong, hps⟩ := visitAll_along r ps
  refine ⟨fun path hpath => (halong.genuine path hpath).1, fun hnone p hp => ?_, fun hacyclic => ?_⟩
  · obtain ⟨s, hs, hsp⟩ := hp
    obtain ⟨hvisited, hleft⟩ := halong.closed_reflTransGen hnone (hps s hs) not_mem_nil hsp
    rw [← Bool.not_eq_true, hasPositiveCycle_iff]
    exact halong.acyclic hnone p hvisited hleft
  · refine eq_nil_iff_forall_not_mem.mpr fun path hpath => ?_
    obtain ⟨hcycle, hvisited⟩ := halong.genuine path hpath
    obtain ⟨p, hp, hself⟩ := hcycle.transGen
    have hfree := hacyclic p (halong.reached p (hvisited p hp))
    rw [hasPositiveCycle_iff.mpr hself] at hfree
    cases hfree

end LogicProgram
