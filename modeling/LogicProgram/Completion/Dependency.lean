import LogicProgram.Registry

/-!
# Dependencies between predicates

A predicate depends on those that its completed definition mentions. A cycle of
positive dependencies means that the program is not tight; a cycle of private
predicates means that they cannot be eliminated.
-/

namespace LogicProgram

namespace Registry

/-- The dependencies of a predicate by name and arity. -/
def dependenciesOf (r : Registry) (p : Symbol) : List (Symbol × Polarity) :=
  (((r.predicate? p).bind (·.dependencies)).getD []).mergeSort fun a b => a.1.le b.1

/-- Whether a dependency is positive and not on the background theory. -/
def isPositiveEdge (edge : Symbol × Polarity) : Bool :=
  edge.2.positive && !edge.1.isBuiltInPredicate

/-- Whether a dependency is on a private predicate. -/
def isPrivateEdge (r : Registry) (edge : Symbol × Polarity) : Bool := r.isPrivate edge.1

/-- The predicates that `p` depends on by dependencies of a kind. -/
def successors (r : Registry) (follow : Symbol × Polarity → Bool) (p : Symbol) : List Symbol :=
  ((r.dependenciesOf p).filter follow).map (·.1)

/-- How far a search for a predicate has come. -/
structure Search where
  /-- Whether the predicate was met, which ends the search. -/
  met : Bool
  /-- The predicates that have been entered. -/
  visited : List Symbol
deriving Repr, Inhabited

/-- Goes on with a predicate, unless the goal was met before. A predicate is marked before the
search `below` it, and not searched twice; the goal ends the search instead. -/
def Search.visit (below : Symbol → List Symbol → Search) (goal : Symbol) (found : Search)
    (q : Symbol) : Search :=
  if found.met then found
  else if q = goal then { found with met := true }
  else if found.visited.contains q then found
  else below q (q :: found.visited)

/-- Searches for `goal` among what `p` leads to, depth first. At most `depth` predicates are
searched one below the other. -/
def searchFrom (r : Registry) (follow : Symbol × Polarity → Bool) (goal : Symbol) :
    (depth : Nat) → (p : Symbol) → (visited : List Symbol) → Search
  | 0, _, visited => ⟨false, visited⟩
  | depth + 1, p, visited =>
    (r.successors follow p).foldl (Search.visit (searchFrom r follow goal depth) goal) ⟨false, visited⟩

/-- Whether a predicate can be reached from itself in one or more steps. The search starts with
nothing visited, not even the predicate. -/
def reachesItself (r : Registry) (follow : Symbol × Polarity → Bool) (p : Symbol) : Bool :=
  (r.searchFrom follow p (r.predicates.length + 1) p []).met

def hasPositiveCycle (r : Registry) (p : Symbol) : Bool := r.reachesItself isPositiveEdge p

/-- Whether a predicate depends on itself through private predicates. -/
def hasPrivateCycle (r : Registry) (p : Symbol) : Bool := r.reachesItself r.isPrivateEdge p

end Registry

/-- What a search for cycles has found. -/
structure CycleSearch where
  visited : List Symbol
  /-- The cycles in the order in which they were closed. -/
  cycles : List (List Symbol)
deriving Repr, Inhabited

namespace CycleSearch

/-- The part of a path from `p` on, closed by `p`. -/
def cycleAt (path : List Symbol) (p : Symbol) : List Symbol := path.dropWhile (· != p) ++ [p]

/-- Visits a predicate and, depth first, those that it depends on positively.
`path` leads from where the search started to the predicate. At most `depth`
predicates are visited one below the other. -/
def visit (r : Registry) : (depth : Nat) → (path : List Symbol) → Symbol → CycleSearch → CycleSearch
  | 0, _, _, found => found
  | depth + 1, path, p, found =>
    let path := path ++ [p]
    (r.successors Registry.isPositiveEdge p).foldl
      (fun found q =>
        if !found.visited.contains q then visit r depth path q found
        else if path.contains q then { found with cycles := found.cycles ++ [cycleAt path q] }
        else found)
      { found with visited := p :: found.visited }

/-- Visits the predicates of a list that have not been visited yet. -/
def visitAll (r : Registry) (ps : List Symbol) : CycleSearch :=
  ps.foldl
    (fun found p =>
      if found.visited.contains p then found else visit r (r.predicates.length + 1) [] p found)
    ⟨[], []⟩

end CycleSearch

/-- Cycles of positive dependencies that a search from some predicates meets,
each from its first predicate back to it. -/
def Registry.positiveCycles (r : Registry) (ps : List Symbol) : List (List Symbol) :=
  (CycleSearch.visitAll r ps).cycles

end LogicProgram
