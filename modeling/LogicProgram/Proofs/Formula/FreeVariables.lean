import LogicProgram.Proofs.Formula.Binding

/-!
# Free occurrences

An occurrence of a variable has a place in the formula, which is a path from the whole
to the variable, and scopes, which are the variables of the quantifiers on that path. It
is free if none of them lists the variable.
-/

namespace LogicProgram

open List

universe u

namespace Term

/-- The terms that a term is made of. -/
def parts : Term → List Term
  | .function _ args => args
  | .binary _ left right => [left, right]
  | .unary _ arg => [arg]
  | .interval lower upper => [lower, upper]
  | _ => []

/-- A variable stands at a place of a term. -/
inductive At : Term → List Nat → Variable → Prop
  | here (v : Variable) : At (.variable v) [] v
  | part {t s : Term} {i : Nat} {p : List Nat} {v : Variable} (hs : t.parts[i]? = some s)
      (hv : At s p v) : At t (i :: p) v

end Term

namespace Formula

/-- The terms that a formula is made of. -/
def operands : Formula → List Term
  | .compare _ left right => [left, right]
  | .atom _ args => args
  | _ => []

/-- The formulas that a formula is made of. -/
def parts : Formula → List Formula
  | .not arg => [arg]
  | .implies antecedent consequent => [antecedent, consequent]
  | .join _ args => args
  | .quantified _ _ body => [body]
  | _ => []

/-- The variables that a formula lists for its parts. -/
def listed : Formula → List Variable
  | .quantified _ params _ => params
  | _ => []

/-- A variable stands at a place of a formula, below the listed variables `scopes`. -/
inductive At : Formula → List Nat → List (List Variable) → Variable → Prop
  | operand {f : Formula} {t : Term} {i : Nat} {p : List Nat} {v : Variable}
      (ht : f.operands[i]? = some t) (hv : t.At p v) :
      At f (i :: p) [] v
  | part {f g : Formula} {i : Nat} {p : List Nat} {scopes : List (List Variable)} {v : Variable}
      (hg : f.parts[i]? = some g) (hv : At g p scopes v) : At f (i :: p) (f.listed :: scopes) v

/-- An occurrence outside of the scope of every quantifier that lists the variable. -/
def FreeAt (f : Formula) (p : List Nat) (v : Variable) : Prop :=
  ∃ scopes, f.At p scopes v ∧ ∀ params ∈ scopes, v ∉ params

end Formula

/-- The variables at the places that `R` holds of, in the order of the places. -/
def Enumerates (R : List Nat → Variable → Prop) (vs : List Variable) : Prop :=
  ∃ places : List (List Nat × Variable), places.map (·.2) = vs ∧ places.Pairwise (·.1 < ·.1) ∧
    ∀ p v, (p, v) ∈ places ↔ R p v

namespace Enumerates

variable {R : List Nat → Variable → Prop} {vs : List Variable}

theorem congr {R' : List Nat → Variable → Prop} (h : Enumerates R vs) (hR : ∀ p v, R p v ↔ R' p v) :
    Enumerates R' vs := by
  obtain ⟨places, hvs, hsorted, hmem⟩ := h
  exact ⟨places, hvs, hsorted, fun p v => (hmem p v).trans (hR p v)⟩

theorem filter (h : Enumerates R vs) (q : Variable → Bool) :
    Enumerates (fun p v => R p v ∧ q v = true) (vs.filter q) := by
  obtain ⟨places, rfl, hsorted, hmem⟩ := h
  refine ⟨places.filter (q ·.2), ?_, hsorted.filter _, fun p v => ?_⟩
  · rw [filter_map]
    rfl
  · rw [mem_filter, hmem]

/-- What stands in the parts stands in the whole, the first part first. -/
theorem parts {α : Type} {Q : α → List Nat → Variable → Prop} {g : α → List Variable} {xs : List α}
    (h : ∀ x ∈ xs, Enumerates (Q x) (g x)) :
    Enumerates (fun p v => ∃ i q x, p = i :: q ∧ xs[i]? = some x ∧ Q x q v) (xs.flatMap g) := by
  -- the number of the first part is general, since that of the others is greater by one
  have hfrom : ∀ k, Enumerates (fun p v => ∃ i q x, p = (k + i) :: q ∧ xs[i]? = some x ∧ Q x q v)
      (xs.flatMap g) := by
    induction xs with
    | nil => exact fun k => ⟨[], rfl, .nil, by simp⟩
    | cons x xs ih =>
      intro k
      obtain ⟨hx, hxs⟩ := forall_mem_cons.mp h
      obtain ⟨places, hvs, hsorted, hmem⟩ := hx
      obtain ⟨places', hvs', hsorted', hmem'⟩ := ih hxs (k + 1)
      refine ⟨places.map (fun o => (k :: o.1, o.2)) ++ places', ?_, ?_, fun p v => ?_⟩
      · rw [map_append, map_map, flatMap_cons, hvs', ← hvs]
        rfl
      · refine pairwise_append.mpr ⟨pairwise_map.mpr (hsorted.imp fun hlt => ?_), hsorted', ?_⟩
        · exact cons_lt_cons_iff.mpr (.inr ⟨rfl, hlt⟩)
        · rintro o ho ⟨p, v⟩ ho'
          obtain ⟨o, -, rfl⟩ := mem_map.mp ho
          obtain ⟨i, q, y, rfl, -⟩ := (hmem' p v).mp ho'
          exact cons_lt_cons_iff.mpr (.inl (by omega))
      · rw [mem_append, mem_map, hmem']
        constructor
        · rintro (⟨⟨q, w⟩, ho, heq⟩ | ⟨i, q, y, rfl, hy, hv⟩)
          · obtain ⟨rfl, rfl⟩ := Prod.mk.inj heq
            exact ⟨0, q, x, rfl, rfl, (hmem q w).mp ho⟩
          · exact ⟨i + 1, q, y, by rw [Nat.add_assoc, Nat.add_comm 1], hy, hv⟩
        · rintro ⟨_ | i, q, y, rfl, hy, hv⟩
          · obtain rfl := Option.some.inj hy
            exact .inl ⟨(q, v), (hmem q v).mpr hv, rfl⟩
          · exact .inr ⟨i, q, y, by rw [Nat.add_assoc, Nat.add_comm 1], hy, hv⟩
  simpa using hfrom 0

/-- Of the occurrences of a variable only the first counts. -/
theorem pairwise_eraseDups_map : ∀ {places : List (List Nat × Variable)},
    places.Pairwise (·.1 < ·.1) →
    (places.map (·.2)).eraseDups.Pairwise fun v w => ∃ p, (p, v) ∈ places ∧ ∀ q,
      (q, w) ∈ places → p < q
  | [], _ => .nil
  | (p, v) :: places, hsorted => by
    obtain ⟨hfirst, hsorted⟩ := pairwise_cons.mp hsorted
    have hlength : (places.filter (·.2 != v)).length < places.length + 1 :=
      Nat.lt_succ_of_le (length_filter_le _ _)
    have hrest := pairwise_eraseDups_map (hsorted.filter (·.2 != v))
    have hmap : (places.filter (·.2 != v)).map (·.2) = (places.map (·.2)).filter (· != v) := by
      rw [filter_map]
      rfl
    have hother : ∀ w ∈ ((places.filter (·.2 != v)).map (·.2)).eraseDups, w ≠ v := by
      intro w hw
      rw [mem_eraseDups, hmap, mem_filter, bne_iff_ne] at hw
      exact hw.2
    have hkept : ∀ q w, w ≠ v → (q, w) ∈ (p, v) :: places → (q, w) ∈ places.filter (·.2 != v) :=
      fun q w hne hw =>
      mem_filter.mpr ⟨(mem_cons.mp hw).resolve_left
        fun h => hne (Prod.mk.inj h).2, bne_iff_ne.mpr hne⟩
    rw [map_cons, eraseDups_cons]
    refine pairwise_cons.mpr ⟨fun w hw => ⟨p, mem_cons_self, fun q hq => ?_⟩,
      hmap ▸ hrest.imp_of_mem ?_⟩
    · exact hfirst _ (mem_of_mem_filter (hkept q w (hother w (hmap ▸ hw)) hq))
    · rintro w x - hx ⟨q, hq, hlater⟩
      exact ⟨q, mem_cons_of_mem _ (mem_of_mem_filter hq),
        fun q' hq' => hlater q' (hkept q' x (hother x hx) hq')⟩
termination_by places => places.length

/-- The first occurrences are in the order of their places. -/
theorem pairwise_eraseDups (h : Enumerates R vs) :
    vs.eraseDups.Pairwise fun v w => ∃ p, R p v ∧ ∀ q, R q w → p < q := by
  obtain ⟨places, rfl, hsorted, hmem⟩ := h
  exact (pairwise_eraseDups_map hsorted).imp fun ⟨p, hp, hfirst⟩ =>
    ⟨p, (hmem _ _).mp hp, fun q hq => hfirst q ((hmem _ _).mpr hq)⟩

/-- What is enumerated is what has a place. -/
theorem mem_iff (h : Enumerates R vs) (v : Variable) : v ∈ vs ↔ ∃ p, R p v := by
  obtain ⟨places, rfl, -, hmem⟩ := h
  simp [← hmem]

end Enumerates

/-- The variables of a term in the order of their places. -/
theorem Term.enumerates_vars (t : Term) : Enumerates t.At t.vars := by
  have hparts : ∀ t : Term, (∀ v, t ≠ .variable v) → (∀ s ∈ t.parts, Enumerates s.At s.vars) →
      Enumerates t.At (t.parts.flatMap vars) := by
    intro t ht h
    refine (Enumerates.parts h).congr fun p v => ⟨?_, fun hv => ?_⟩
    · rintro ⟨i, q, s, rfl, hs, hv⟩
      exact .part hs hv
    · cases hv with
      | here => exact absurd rfl (ht v)
      | part hs hv => exact ⟨_, _, _, rfl, hs, hv⟩
  induction t with
  | var v =>
    refine ⟨[([], v)], rfl, pairwise_singleton _ _, fun p w => ?_⟩
    rw [mem_singleton, Prod.mk.injEq]
    constructor
    · rintro ⟨rfl, rfl⟩
      exact .here w
    · rintro (_ | ⟨hs, -⟩)
      · exact ⟨rfl, rfl⟩
      · cases hs
  | function name args ih =>
    rw [vars_function]
    exact hparts _ nofun ih
  | binary op left right ihl ihr =>
    simpa [parts, vars] using hparts (.binary op left right) nofun (by simp [parts, ihl, ihr])
  | unary op arg ih => simpa [parts, vars] using hparts (.unary op arg) nofun (by simp [parts, ih])
  | interval lower upper ihl ihu =>
    simpa [parts, vars] using hparts (.interval lower upper) nofun (by simp [parts, ihl, ihu])
  | _ => exact hparts _ nofun fun _ h => absurd h not_mem_nil

namespace Formula

/-- A free occurrence is in an operand, or in a part below no binder of its own. -/
theorem freeAt_iff {f : Formula} {p : List Nat} {v : Variable} : f.FreeAt p v ↔
    (∃ i q t, p = i :: q ∧ f.operands[i]? = some t ∧ t.At q v) ∨
      ∃ i q g, p = i :: q ∧ f.parts[i]? = some g ∧ g.FreeAt q v ∧ v ∉ f.listed := by
  constructor
  · rintro ⟨scopes, hv, hfree⟩
    cases hv with
    | operand ht hv => exact .inl ⟨_, _, _, rfl, ht, hv⟩
    | part hg hv =>
      obtain ⟨hlisted, hfree⟩ := forall_mem_cons.mp hfree
      exact .inr ⟨_, _, _, rfl, hg, ⟨_, hv, hfree⟩, hlisted⟩
  · rintro (⟨i, q, t, rfl, ht, hv⟩ | ⟨i, q, g, rfl, hg, ⟨scopes, hv, hfree⟩, hlisted⟩)
    · exact ⟨[], .operand ht hv, nofun⟩
    · exact ⟨_, .part hg hv, forall_mem_cons.mpr ⟨hlisted, hfree⟩⟩

/-- Comparisons and atoms have terms as their parts. -/
theorem enumerates_of_operands {f : Formula} (hf : f.parts = []) (bound : List Variable) :
    Enumerates (fun p v => f.FreeAt p v ∧ v ∉ bound)
      ((f.operands.flatMap (·.vars)).filter (!bound.contains ·)) := by
  refine ((Enumerates.parts fun t _ => t.enumerates_vars).filter _).congr fun p v => ?_
  rw [freeAt_iff, hf]
  simp

/-- All other formulas have formulas as their parts. -/
theorem enumerates_of_parts {f : Formula} (hf : f.operands = []) {bound : List Variable}
    (h : ∀ g ∈ f.parts, Enumerates (fun p v => g.FreeAt p v ∧ v ∉ f.listed ++ bound)
      (g.freeOccurrences (f.listed ++ bound))) :
    Enumerates (fun p v => f.FreeAt p v ∧ v ∉ bound)
      (f.parts.flatMap (·.freeOccurrences (f.listed ++ bound))) := by
  refine (Enumerates.parts h).congr fun p v => ?_
  rw [freeAt_iff, hf]
  constructor
  · rintro ⟨i, q, g, rfl, hg, hv, hbound⟩
    obtain ⟨hlisted, hbound⟩ := not_or.mp (mt mem_append.mpr hbound)
    exact ⟨.inr ⟨i, q, g, rfl, hg, hv, hlisted⟩, hbound⟩
  · rintro ⟨⟨i, q, t, -, ht, -⟩ | ⟨i, q, g, rfl, hg, hv, hlisted⟩, hbound⟩
    · cases ht
    · exact ⟨i, q, g, rfl, hg, hv, fun h => (mem_append.mp h).elim hlisted hbound⟩

/-- The free occurrences in the order of their places. -/
theorem enumerates_freeOccurrences (f : Formula) (bound : List Variable) :
    Enumerates (fun p v => f.FreeAt p v ∧ v ∉ bound) (f.freeOccurrences bound) := by
  induction f generalizing bound with
  | boolean b => exact enumerates_of_parts rfl nofun
  | compare op left right =>
    simpa [operands, freeOccurrences] using enumerates_of_operands (f := .compare op left right) rfl bound
  | atom name args =>
    rw [freeOccurrences, Term.varsOfAll_eq_flatMap]
    exact enumerates_of_operands rfl bound
  | not arg ih =>
    simpa [parts, listed, freeOccurrences] using enumerates_of_parts (f := .not arg) rfl (by simp [parts, listed, ih])
  | implies a c iha ihc =>
    simpa [parts, listed, freeOccurrences] using enumerates_of_parts (f := .implies a c) rfl
      (by simp [parts, listed, iha, ihc])
  | join connective args ih =>
    rw [freeOccurrences, freeOccurrencesInAll_eq_flatMap]
    exact enumerates_of_parts rfl fun g hg => ih g hg _
  | quantified q params body ih =>
    simpa [parts, listed, freeOccurrences] using enumerates_of_parts
      (f := .quantified q params body) rfl
      fun g hg => mem_singleton.mp hg ▸ ih (params ++ bound)

/-- The free variables are those with a free occurrence, each once, in the order of their first
free occurrences. Valuations that agree on them agree on the truth of the formula. -/
theorem freeVariables_complete (f : Formula) :
    f.freeVariables.Nodup ∧ (∀ v, v ∈ f.freeVariables ↔ ∃ p, f.FreeAt p v) ∧
    (f.freeVariables.Pairwise fun v w => ∃ p, f.FreeAt p v ∧ ∀ q, f.FreeAt q w → p < q) ∧
    ∀ (r : Registry) (I : Interpretation.{u}) (σ τ : Valuation I), (∀ v ∈ f.freeVariables, σ v = τ v) →
      (f.Holds r I σ ↔ f.Holds r I τ) := by
  have henumerates : Enumerates f.FreeAt (f.freeOccurrences []) :=
    (enumerates_freeOccurrences f []).congr (by simp)
  have horder := henumerates.pairwise_eraseDups
  rw [← freeVariables_eq] at horder
  refine ⟨horder.imp ?_, fun v => ?_, horder, fun r I σ τ h => holds_congr (fun _ _ => rfl) h⟩
  · rintro v _ ⟨p, hp, hfirst⟩ rfl
    exact List.lt_irrefl p (hfirst p hp)
  · rw [freeVariables_eq, mem_eraseDups]
    exact henumerates.mem_iff v

/-- A quantifier may list a variable twice, and the variable may be free elsewhere. -/
example : (join .and [quantified .universal [0, 0] (atom "p" [.variable 0, .variable 1]),
  atom "q" [.variable 0]]).freeVariables =
    [1, 0] := by decide

end Formula

end LogicProgram
