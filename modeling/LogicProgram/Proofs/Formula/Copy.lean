import LogicProgram.Formula.Copy
import LogicProgram.Proofs.Formula.Rewriting

/-!
# Copies of formulas

The renaming that a copy is made with is extended at every quantifier and never
taken back. A copy is one of the relations between formulas and what they are
rewritten to.
-/

namespace LogicProgram

open List

namespace Term

theorem renameAll_eq_map (ρ : Renaming) (ts : List Term) : renameAll ρ ts = ts.map (·.rename ρ) :=
  eq_map_of_cons rfl (fun _ _ => rfl) ts

/-- The variables of a renamed term are those of the term, renamed. -/
theorem vars_rename (ρ : Renaming) (t : Term) : (t.rename ρ).vars = t.vars.map ρ.apply := by
  induction t with
  | var v => rfl
  | function name args ih =>
    have hargs : (function name args).rename ρ = function name (args.map (·.rename ρ)) :=
      congrArg (function name) (renameAll_eq_map ρ args)
    rw [hargs, vars_function, vars_function, flatMap_map, map_flatMap]
    exact flatMap_congr ih
  | binary op left right ihl ihr =>
    have h := congrArg₂ (· ++ ·) ihl ihr
    rw [← map_append] at h
    exact h
  | unary op arg ih => exact ih
  | interval lower upper ihl ihu =>
    have h := congrArg₂ (· ++ ·) ihl ihu
    rw [← map_append] at h
    exact h
  | _ => rfl

end Term

namespace Copying

/-- The first variable that is not in use. -/
abbrev next (c : Copying) : Nat := c.registry.variableTable.size

theorem apply_cons_self (ρ : Renaming) (v w : Variable) : Renaming.apply ((v, w) :: ρ) v = w := by
  simp [Renaming.apply]

theorem apply_cons_of_ne (ρ : Renaming) {v x : Variable} (w : Variable) (h : x ≠ v) :
    Renaming.apply ((v, w) :: ρ) x = ρ.apply x := by
  have hne : (x == v) = false := beq_eq_false_iff_ne.mpr h
  simp only [Renaming.apply, lookup_cons, hne]

/-- The state in which a variable has become the next one. -/
def renew (c : Copying) (v : Variable) : Copying :=
  ⟨c.registry.addVariables #[c.registry.variableDeclaration v], (v, c.next) :: c.renamed⟩

theorem bind_cons (v : Variable) (vs : List Variable) (c : Copying) :
    bind (v :: vs) c = (c.next :: (bind vs (c.renew v)).1, (bind vs (c.renew v)).2) := by
  rw [renew, Registry.addVariables, ← Array.push_eq_append]
  rfl

/-- The copy of a formula without parts. -/
inductive CopiedLeaf (c : Copying) : Formula → Formula → Copying → Prop
  | boolean (b : Bool) : CopiedLeaf c (.boolean b) (.boolean b) c
  | compare (op : Comparison) (left right : Term) : CopiedLeaf c (.compare op left right)
    (.compare op (left.rename c.renamed) (right.rename c.renamed)) c
  | atom (name : Text) (args : List Term) :
    CopiedLeaf c (.atom name args) (.atom name (args.map (·.rename c.renamed))) c

/-- Formulas and their copies. -/
abbrev Copied : Copying → List Formula → List Formula → Copying → Prop :=
  Formula.Rewritten CopiedLeaf fun c vs ws c' => bind vs c = (ws, c')

theorem copied_formula (f : Formula) (c : Copying) : Copied c [f] [(formula f c).1] (formula f c).2 := by
  induction f generalizing c with
  | boolean b => exact .leaf (.boolean b)
  | compare op left right => exact .leaf (.compare op left right)
  | atom name args =>
    have hcopy : (formula (.atom name args) c).1 = .atom name (args.map (·.rename c.renamed)) :=
      congrArg (Formula.atom name) (Term.renameAll_eq_map c.renamed args)
    rw [hcopy]
    exact .leaf (.atom name args)
  | not f ih => exact .composed (.not f _) (ih c)
  | implies a b iha ihb => exact .composed (.implies a b _ _) (.cons (iha c) (ihb _))
  | join connective fs ih =>
    refine .composed (.join connective fs (formulas fs c).1) ?_
    show Copied c fs (formulas fs c).1 (formulas fs c).2
    induction fs generalizing c with
    | nil => exact .nil c
    | cons f fs ihs =>
      exact .cons (ih f mem_cons_self c) (ihs (fun f hf => ih f (mem_cons_of_mem _ hf)) _)
  | quantified q vs f ih => exact .quantified q rfl (ih _)

/-- Copies mention the predicates of their originals. -/
theorem Copied.mentions {c c' : Copying} {fs gs : List Formula} (h : Copied c fs gs c') :
    Forall₂ (fun f g => ∀ q, g.mentions q → f.mentions q) fs gs := by
  refine (Formula.Rewritten.mentions (T := fun _ _ => True) (M := fun P q => P q) h (fun _ => trivial)
    (fun _ _ => trivial) (fun hPQ => hPQ) (fun hleaf => ⟨trivial, ?_⟩) fun _ _ _ _ _ => trivial).2
  cases hleaf with
  | boolean b | compare op left right => exact fun q hq => hq
  | atom name args => exact fun q hq => by simpa using hq

end Copying

/-- A copy is made with a renaming that is empty at first. -/
theorem Registering.formula_of_copy {r r' : Registry} {f g : Formula}
    (h : Returns (Registering.copy f) r g r') : ∃ ρ, Copying.formula f ⟨r, []⟩ = (g, ⟨r', ρ⟩) := by
  have hrun := Returns.modifyGet_iff.mp h
  obtain ⟨rfl, rfl⟩ := Prod.mk.inj hrun
  exact ⟨_, rfl⟩

end LogicProgram
