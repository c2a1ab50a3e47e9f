import LogicProgram.Proofs.Semantics
import Mathlib.Data.List.Nodup

/-!
# Free and bound variables

Which variables the truth of a formula depends on, and what replacing a variable by a
term does to it. Replacement does not rename the variables that quantifiers bind, so it
has its meaning only if none of these occurs in the term.
-/

namespace LogicProgram

open List

universe u

variable {a c f : Formula} {connective : Connective} {q : Quantifier} {fs : List Formula}
  {params : List Variable}

namespace Term

theorem varsOfAll_eq_flatMap (ts : List Term) : varsOfAll ts = ts.flatMap (·.vars) :=
  eq_flatMap_of_append rfl (fun _ _ => rfl) ts

theorem replaceInAll_eq_map (v : Variable) (new : Term) (ts : List Term) :
    replaceInAll v new ts = ts.map (replace v new) := eq_map_of_cons rfl (fun _ _ => rfl) ts

/-- The variables of a function term are those of its arguments. -/
theorem vars_function (name : Text) (args : List Term) :
    (function name args).vars = args.flatMap (·.vars) := varsOfAll_eq_flatMap args

/-- Replacement in a function term happens in each argument. -/
theorem replace_function (v : Variable) (new : Term) (name : Text) (args : List Term) :
    replace v new (function name args) = function name (args.map (replace v new)) :=
  congrArg (function name) (replaceInAll_eq_map v new args)

end Term

namespace Formula

mutual

/-- The free variables of a formula below quantifiers that list `bound`, once
for each occurrence, from left to right. -/
def freeOccurrences (bound : List Variable) : Formula → List Variable
  | .boolean _ => []
  | .compare _ left right => (left.vars ++ right.vars).filter (!bound.contains ·)
  | .atom _ args => (Term.varsOfAll args).filter (!bound.contains ·)
  | .not arg => arg.freeOccurrences bound
  | .implies antecedent consequent =>
    antecedent.freeOccurrences bound ++ consequent.freeOccurrences bound
  | .join _ args => freeOccurrencesInAll bound args
  | .quantified _ params body => body.freeOccurrences (params ++ bound)

/-- The free variables of several formulas. -/
def freeOccurrencesInAll (bound : List Variable) : List Formula → List Variable
  | [] => []
  | f :: r => f.freeOccurrences bound ++ freeOccurrencesInAll bound r

end

theorem freeOccurrencesInAll_eq_flatMap (bound : List Variable) (fs : List Formula) :
    freeOccurrencesInAll bound fs = fs.flatMap (·.freeOccurrences bound) :=
  eq_flatMap_of_append rfl (fun _ _ => rfl) fs

theorem replaceInAll_eq_map (v : Variable) (new : Term) (fs : List Formula) :
    replaceInAll v new fs = fs.map (·.replace v new) := eq_map_of_cons rfl (fun _ _ => rfl) fs

/-- Replacement in a join happens in each of the joined formulas. -/
theorem replace_join (v : Variable) (new : Term) (connective : Connective) (fs : List Formula) :
    (join connective fs).replace v new = join connective (fs.map (·.replace v new)) :=
  congrArg (join connective) (replaceInAll_eq_map v new fs)

/-- Replacement in an atom happens in each of its terms. -/
theorem replace_atom (v : Variable) (new : Term) (name : Text) (args : List Term) :
    (atom name args).replace v new = atom name (args.map (Term.replace v new)) :=
  congrArg (atom name) (Term.replaceInAll_eq_map v new args)

mutual

/-- The variables that the quantifiers of a formula list, from left to right. -/
def binders : Formula → List Variable
  | .boolean _ | .compare _ _ _ | .atom _ _ => []
  | .not arg => arg.binders
  | .implies antecedent consequent => antecedent.binders ++ consequent.binders
  | .join _ args => bindersOfAll args
  | .quantified _ params body => params ++ body.binders

/-- The variables that the quantifiers of several formulas list. -/
def bindersOfAll : List Formula → List Variable
  | [] => []
  | f :: rest => f.binders ++ bindersOfAll rest

end

theorem bindersOfAll_eq_flatMap (fs : List Formula) : bindersOfAll fs = fs.flatMap (·.binders) :=
  eq_flatMap_of_append rfl (fun _ _ => rfl) fs

@[simp] theorem binders_join (connective : Connective) (fs : List Formula) :
    (join connective fs).binders = fs.flatMap (·.binders) := bindersOfAll_eq_flatMap fs

namespace FreeSearch

variable {s : FreeSearch} {bound : List Variable} {vs : List Variable}

/-- The counters say how often the quantifiers around the place list a variable. -/
def Counts (s : FreeSearch) (bound : List Variable) : Prop := ∀ v, s.bound v = bound.count v

/-- Keeps a variable that is free, if it is new. -/
def record (s : FreeSearch) (v : Variable) : FreeSearch :=
  if v ∈ s.seen then s else { s with seen := v :: s.seen, found := s.found ++ [v] }

/-- Counters have no part in what is recorded. -/
theorem foldl_record (bound : Variable → Int) (vs : List Variable) (s : FreeSearch) :
    vs.foldl record { s with bound } = { vs.foldl record s with bound } := by
  induction vs generalizing s with
  | nil => rfl
  | cons v vs ih =>
    have hstep : record { s with bound } v = { s.record v with bound } := by
      unfold record
      split <;> rfl
    rw [foldl_cons, foldl_cons, hstep, ih]

theorem Counts.foldl_record (h : s.Counts bound) (vs : List Variable) :
    (vs.foldl record s).Counts bound := by
  have hsame := FreeSearch.foldl_record s.bound vs s
  rwa [Counts, hsame]

/-- Occurrences that no quantifier binds are recorded. -/
theorem Counts.foldl_meet (h : s.Counts bound) (vs : List Variable) :
    vs.foldl meet s = (vs.filter (!bound.contains ·)).foldl record s := by
  induction vs generalizing s with
  | nil => rfl
  | cons v vs ih =>
    by_cases hv : v ∈ bound
    · have hmeet : s.meet v = s := if_neg fun hfree => by
        have hzero : bound.count v = 0 := by simpa [h v] using hfree.1
        exact count_eq_zero.mp hzero hv
      rw [foldl_cons, hmeet, ih h, filter_cons_of_neg (by simpa using hv)]
    · have hmeet : s.meet v = s.record v := by
        simp [meet, record, h v, count_eq_zero.mpr hv, ite_not]
      rw [foldl_cons, hmeet, ih (s := s.record v) (h.foldl_record [v]),
        filter_cons_of_pos (by simpa using hv), foldl_cons]

/-- A counter changes by as many steps as the variable is listed. -/
theorem shift_eq (step : Int) (params : List Variable) (s : FreeSearch) :
    s.shift step params = { s with bound := fun v => s.bound v + step * params.count v } := by
  have hfold : ∀ bound : Variable → Int, params.foldl
      (fun bound v w => if w = v then bound w + step else bound w) bound =
        fun v => bound v + step * params.count v := by
    induction params with
    | nil => simp
    | cons p params ih =>
      intro bound
      funext v
      rw [foldl_cons, ih, count_cons]
      by_cases hv : v = p
      · simp only [hv, if_true, beq_self_eq_true, Int.natCast_add, Int.mul_add]
        omega
      · simp [hv, Ne.symm hv]
  rw [shift, hfold]

/-- The counters after a formula are those of before. -/
theorem visit_eq (h : s.Counts bound) (f : Formula) :
    s.visit f = (f.freeOccurrences bound).foldl record s := by
  induction f generalizing s bound with
  | boolean b => rfl
  | compare op left right | atom name args => exact h.foldl_meet _
  | not arg ih => exact ih h
  | implies a c iha ihc =>
    rw [visit, iha h, ihc (h.foldl_record _), freeOccurrences, foldl_append]
  | join connective args ih =>
    rw [visit, freeOccurrences]
    induction args generalizing s with
    | nil => rfl
    | cons f fs ihs =>
      obtain ⟨hf, hfs⟩ := forall_mem_cons.mp ih
      rw [visitAll, hf h, freeOccurrencesInAll, foldl_append, ihs hfs (h.foldl_record _)]
  | quantified q params body ih =>
    have hcounts : (s.shift 1 params).Counts (params ++ bound) := by
      intro v
      simp [shift_eq, h v, count_append, Int.add_comm]
    have hback : (fun v => s.bound v + 1 * (params.count v : Int) + -1 * (params.count v : Int)) =
        s.bound := by
      funext v
      omega
    rw [visit, ih hcounts, freeOccurrences, shift_eq, shift_eq, foldl_record, hback, ← foldl_record]

/-- A variable is recorded at the first of its occurrences. -/
theorem found_foldl_record (vs : List Variable) (s : FreeSearch) :
    (vs.foldl record s).found = s.found ++ (vs.filter (· ∉ s.seen)).eraseDups := by
  induction vs generalizing s with
  | nil => simp
  | cons v vs ih =>
    rw [foldl_cons, ih, record]
    split
    next hv => rw [filter_cons_of_neg (by simpa using hv)]
    next hv =>
      rw [filter_cons_of_pos (by simpa using hv), eraseDups_cons, filter_filter]
      simp [Bool.beq_eq_decide_eq]

end FreeSearch

/-- The search finds the variables of the free occurrences, each once. -/
theorem freeVariables_eq (f : Formula) : f.freeVariables = (f.freeOccurrences []).eraseDups := by
  have hcounts : FreeSearch.Counts ⟨fun _ => 0, [], []⟩ [] := fun _ => rfl
  rw [freeVariables, FreeSearch.visit_eq hcounts, FreeSearch.found_foldl_record]
  simp

attribute [local simp] freeOccurrences freeVariables_eq mem_eraseDups Term.varsOfAll_eq_flatMap
  freeOccurrencesInAll_eq_flatMap

/-- What is free below quantifiers is free and not listed by them. -/
theorem mem_freeOccurrences {bound : List Variable} {v : Variable} :
    v ∈ f.freeOccurrences bound ↔ v ∈ f.freeVariables ∧ v ∉ bound := by
  rw [freeVariables_eq, mem_eraseDups]
  induction f generalizing bound with
  | boolean b => simp
  | compare op left right => simp [or_and_right]
  | atom name args => simp
  | not arg ih => exact ih
  | implies a c iha ihc =>
    simp only [freeOccurrences, mem_append]
    rw [iha, ihc, or_and_right]
  | join connective args ih =>
    simp only [freeOccurrences, freeOccurrencesInAll_eq_flatMap, mem_flatMap]
    constructor
    · rintro ⟨f, hf, hv⟩
      have h := (ih f hf).mp hv
      exact ⟨⟨f, hf, h.1⟩, h.2⟩
    · rintro ⟨⟨f, hf, hv⟩, hb⟩
      exact ⟨f, hf, (ih f hf).mpr ⟨hv, hb⟩⟩
  | quantified q params body ih =>
    simp only [freeOccurrences]
    rw [ih, @ih (params ++ [])]
    simp only [mem_append, not_mem_nil, or_false, not_or, and_assoc]

variable {v : Variable}

@[simp] theorem mem_freeVariables_boolean {b : Bool} : v ∈ (boolean b).freeVariables ↔ False := by
  simp

@[simp] theorem mem_freeVariables_compare {op : Comparison} {left right : Term} :
    v ∈ (compare op left right).freeVariables ↔ v ∈ left.vars ∨ v ∈ right.vars := by
  simp

@[simp] theorem mem_freeVariables_atom {name : Text} {args : List Term} :
    v ∈ (atom name args).freeVariables ↔ ∃ t ∈ args, v ∈ t.vars := by
  simp

@[simp] theorem mem_freeVariables_not :
    v ∈ (Formula.not f).freeVariables ↔ v ∈ f.freeVariables := by
  simp

@[simp] theorem mem_freeVariables_implies :
    v ∈ (implies a c).freeVariables ↔ v ∈ a.freeVariables ∨ v ∈ c.freeVariables := by
  simp

@[simp] theorem mem_freeVariables_join :
    v ∈ (join connective fs).freeVariables ↔ ∃ f ∈ fs, v ∈ f.freeVariables := by
  simp

@[simp] theorem mem_freeVariables_quantified {body : Formula} :
    v ∈ (quantified q params body).freeVariables ↔ v ∈ body.freeVariables ∧ v ∉ params := by
  rw [freeVariables_eq, mem_eraseDups]
  simp only [freeOccurrences, append_nil]
  exact mem_freeOccurrences

@[simp] theorem mem_freeVariables_close :
    v ∈ (f.close q params).freeVariables ↔ v ∈ f.freeVariables ∧ v ∉ params := by
  cases params with
  | nil => simp [close]
  | cons w params => exact mem_freeVariables_quantified

theorem binders_close (q : Quantifier) (params : List Variable) (f : Formula) :
    (f.close q params).binders = params ++ f.binders := by
  cases params with
  | nil => rfl
  | cons w params => rfl

/-- A variable is free or bound in a formula. -/
def Occurs (v : Variable) (f : Formula) : Prop := v ∈ f.freeVariables ∨ v ∈ f.binders

theorem occurs_not : (Formula.not f).Occurs v ↔ f.Occurs v :=
  or_congr mem_freeVariables_not Iff.rfl

theorem occurs_implies : (implies a c).Occurs v ↔ a.Occurs v ∨ c.Occurs v :=
  (or_congr mem_freeVariables_implies mem_append).trans or_or_or_comm

theorem occurs_join : (join connective fs).Occurs v ↔ ∃ f ∈ fs, f.Occurs v := by
  simp only [Occurs, binders_join, mem_freeVariables_join, mem_flatMap, and_or_left,
    exists_or]

/-- A variable of a quantifier occurs even if the body does not have it. -/
theorem occurs_quantified {body : Formula} :
    (quantified q params body).Occurs v ↔ v ∈ params ∨ body.Occurs v := by
  have hbinders : v ∈ (quantified q params body).binders ↔ v ∈ params ∨ v ∈ body.binders :=
    mem_append
  rw [Occurs, mem_freeVariables_quantified, hbinders, Occurs]
  by_cases hv : v ∈ params <;> simp [hv]

end Formula

section Coincidence

variable {r : Registry} {I : Interpretation.{u}} {σ τ : Valuation I}

theorem Term.value_congr {t : Term} (h : ∀ v ∈ t.vars, σ v = τ v) : t.value I σ = t.value I τ := by
  induction t with
  | var v => exact h v (by simp [vars])
  | function name args ih =>
    rw [value_function, value_function]
    congr 1
    refine map_congr_left fun t ht => ih t ht fun v hv => h v ?_
    rw [vars_function]
    exact mem_flatMap.mpr ⟨t, ht, hv⟩
  | binary op left right ihl ihr =>
    have hl := ihl fun v hv => h v (mem_append_left _ hv)
    have hr := ihr fun v hv => h v (mem_append_right _ hv)
    exact congrArg₂ (I.binary op) hl hr
  | unary op arg ih => exact congrArg (I.unary op) (ih h)
  | interval lower upper ihl ihu =>
    have hl := ihl fun v hv => h v (mem_append_left _ hv)
    have hu := ihu fun v hv => h v (mem_append_right _ hv)
    exact congrArg₂ I.interval hl hu
  | _ => rfl

theorem Term.values_congr {ts : List Term}
    (h : ∀ t ∈ ts, ∀ v ∈ t.vars, σ v = τ v) : ts.map (·.value I σ) = ts.map (·.value I τ) :=
  map_congr_left fun t ht => value_congr (h t ht)

/-- Truth depends on free variables and on domains of bound ones. -/
theorem Formula.holds_congr {r' : Registry}
    (hr : ∀ v ∈ f.binders, r.variableDomain v = r'.variableDomain v)
    (h : ∀ v ∈ f.freeVariables, σ v = τ v) : f.Holds r I σ ↔ f.Holds r' I τ := by
  induction f generalizing σ τ with
  | boolean b => rfl
  | compare op left right =>
    rw [holds_compare, holds_compare, Term.value_congr fun v hv => h v (by simp [hv]),
      Term.value_congr fun v hv => h v (by simp [hv])]
  | atom name args =>
    have hvalues := Term.values_congr fun t ht v hv => h v (by simpa using ⟨t, ht, hv⟩)
    rw [holds_atom, holds_atom, hvalues]
  | not arg ih => exact not_congr (ih hr (by simpa using h))
  | implies a c iha ihc =>
    refine imp_congr (iha ?_ ?_) (ihc ?_ ?_)
    · exact fun v hv => hr v (mem_append_left _ hv)
    · exact fun v hv => h v (by simp [hv])
    · exact fun v hv => hr v (mem_append_right _ hv)
    · exact fun v hv => h v (by simp [hv])
  | join connective args ih =>
    rw [binders_join] at hr
    refine holds_join_congr (forall₂_same.mpr fun f hf => ih f hf ?_ ?_)
    · exact fun v hv => hr v (mem_flatMap.mpr ⟨f, hf, hv⟩)
    · exact fun v hv => h v (by simpa using ⟨f, hf, hv⟩)
  | quantified q params body ih =>
    -- The valuations agree on what is free in the body and not still to be bound.
    refine Quantifier.holds_of_related_same (R := fun rest σ τ =>
      ∀ v ∈ body.freeVariables, v ∉ rest → σ v = τ v) ?_ ?_ ?_ ?_
    · intro v hv a
      rw [Interpretation.Admits, Interpretation.Admits, hr v (mem_append_left _ hv)]
    · intro w _ rest σ τ a _ hR v hv hrest
      by_cases hvw : v = w
      · simp [hvw]
      · rw [Function.update_of_ne hvw, Function.update_of_ne hvw]
        exact hR v hv (by simp [hvw, hrest])
    · intro σ τ hR
      exact ih (fun v hv => hr v (mem_append_right _ hv)) fun v hv => hR v hv (by simp)
    · intro v hv hparams
      exact h v (by simp [hv, hparams])

/-- A variable that is not free does not matter. -/
theorem Formula.holds_update {v : Variable} (h : v ∉ f.freeVariables) (a : I.Object) :
    f.Holds r I (Function.update σ v a) ↔ f.Holds r I σ := by
  refine holds_congr (fun _ _ => rfl) fun w hw => ?_
  rw [Function.update_of_ne]
  rintro rfl
  exact h hw

end Coincidence

section Replacement

attribute [local simp] Term.replace Formula.replace Term.vars

variable {r : Registry} {I : Interpretation.{u}} {σ : Valuation I} {v : Variable} {t : Term}

theorem Term.value_replace (s : Term) :
    (Term.replace v t s).value I σ = s.value I (Function.update σ v (t.value I σ)) := by
  induction s with
  | var w =>
    by_cases hw : w = v
    · simp [value, hw]
    · simp [value, hw]
  | function name args ih =>
    rw [replace_function, value_function, value_function, map_map]
    congr 1
    exact map_congr_left ih
  | binary op left right ihl ihr => exact congrArg₂ (I.binary op) ihl ihr
  | unary op arg ih => exact congrArg (I.unary op) ih
  | interval lower upper ihl ihu => exact congrArg₂ I.interval ihl ihu
  | _ => rfl

/-- Replacing a variable by a term gives it the value of the term. -/
theorem Formula.holds_replace (h : ∀ w ∈ f.binders, w ∉ t.vars) :
    (f.replace v t).Holds r I σ ↔ f.Holds r I (Function.update σ v (t.value I σ)) := by
  induction f generalizing σ with
  | boolean b => rfl
  | compare op left right =>
    simp [Term.value_replace]
  | atom name args =>
    rw [replace_atom, holds_atom, holds_atom, map_map]
    simp only [Function.comp_def, Term.value_replace]
  | not arg ih => exact not_congr (ih h)
  | implies a c iha ihc =>
    exact imp_congr (iha fun w hw => h w (mem_append_left _ hw))
      (ihc fun w hw => h w (mem_append_right _ hw))
  | join connective args ih =>
    rw [binders_join] at h
    rw [replace_join]
    refine holds_join_congr (forall₂_map_left_iff.mpr (forall₂_same.mpr ?_))
    exact fun f hf => ih f hf fun w hw => h w (mem_flatMap.mpr ⟨f, hf, hw⟩)
  | quantified q params body ih =>
    simp only [replace]
    split
    next hv =>
      -- The quantifier binds the variable again.
      refine (holds_update ?_ _).symm
      simp [contains_iff_mem.mp hv]
    next hv =>
      have hv' : v ∉ params := by simpa using hv
      refine Quantifier.holds_of_related_same
        (R := fun _ σ τ => τ = Function.update σ v (t.value I σ)) (fun _ _ _ => Iff.rfl) ?_ ?_ rfl
      · rintro w hw _ σ _ a _ rfl
        have hne : w ≠ v := fun he => hv' (he ▸ hw)
        have hval : t.value I (Function.update σ w a) = t.value I σ := by
          refine Term.value_congr fun x hx => ?_
          rw [Function.update_of_ne]
          rintro rfl
          exact h x (mem_append_left _ hw) hx
        rw [hval, Function.update_comm hne]
      · rintro σ _ rfl
        exact ih fun w hw => h w (mem_append_right _ hw)

/-- Replacement does not change what quantifiers bind. -/
theorem Formula.binders_replace (v : Variable) (t : Term) (f : Formula) :
    (f.replace v t).binders = f.binders := by
  induction f with
  | not arg ih => exact ih
  | implies a c iha ihc => exact congrArg₂ (· ++ ·) iha ihc
  | join connective args ih =>
    rw [replace_join, binders_join, binders_join, flatMap_map]
    exact flatMap_congr ih
  | quantified q params body ih =>
    simp only [replace]
    split
    · rfl
    · exact congrArg (params ++ ·) ih
  | _ => rfl

theorem Term.mem_vars_replace {s : Term} {w : Variable} (h : w ∈ (Term.replace v t s).vars) :
    w ∈ s.vars ∧ w ≠ v ∨ w ∈ t.vars := by
  induction s with
  | var x =>
    simp only [replace] at h
    split at h
    next => exact .inr h
    next hx =>
      have hw : w = x := by simpa using h
      exact .inl (by simpa [hw] using hx)
  | function name args ih =>
    rw [replace_function, vars_function, flatMap_map] at h
    obtain ⟨s, hs, hw⟩ := mem_flatMap.mp h
    rw [vars_function]
    exact (ih s hs hw).imp_left fun hold => ⟨mem_flatMap.mpr ⟨s, hs, hold.1⟩, hold.2⟩
  | binary op left right ihl ihr =>
    simp only [replace, vars, mem_append] at h ⊢
    rcases h with h | h
    · exact (ihl h).imp_left fun hold => ⟨.inl hold.1, hold.2⟩
    · exact (ihr h).imp_left fun hold => ⟨.inr hold.1, hold.2⟩
  | unary op arg ih => exact ih h
  | interval lower upper ihl ihu =>
    simp only [replace, vars, mem_append] at h ⊢
    rcases h with h | h
    · exact (ihl h).imp_left fun hold => ⟨.inl hold.1, hold.2⟩
    · exact (ihu h).imp_left fun hold => ⟨.inr hold.1, hold.2⟩
  | _ => simp at h

/-- What is free after a replacement was free or is in the new term. -/
theorem Formula.mem_freeVariables_replace {w : Variable}
    (h : w ∈ (f.replace v t).freeVariables) : w ∈ f.freeVariables ∧ w ≠ v ∨ w ∈ t.vars := by
  induction f with
  | boolean b => simp at h
  | compare op left right =>
    simp only [replace, mem_freeVariables_compare] at h ⊢
    rcases h with h | h
    · exact (Term.mem_vars_replace h).imp_left fun hold => ⟨.inl hold.1, hold.2⟩
    · exact (Term.mem_vars_replace h).imp_left fun hold => ⟨.inr hold.1, hold.2⟩
  | atom name args =>
    rw [replace_atom, mem_freeVariables_atom] at h
    obtain ⟨_, hnew, hw⟩ := h
    obtain ⟨s, hs, rfl⟩ := mem_map.mp hnew
    rw [mem_freeVariables_atom]
    exact (Term.mem_vars_replace hw).imp_left fun hold => ⟨⟨s, hs, hold.1⟩, hold.2⟩
  | not arg ih =>
    exact ih h
  | implies a c iha ihc =>
    simp only [replace, mem_freeVariables_implies] at h ⊢
    rcases h with h | h
    · exact (iha h).imp_left fun hold => ⟨.inl hold.1, hold.2⟩
    · exact (ihc h).imp_left fun hold => ⟨.inr hold.1, hold.2⟩
  | join connective args ih =>
    rw [replace_join, mem_freeVariables_join] at h
    obtain ⟨_, hnew, hw⟩ := h
    obtain ⟨f, hf, rfl⟩ := mem_map.mp hnew
    rw [mem_freeVariables_join]
    exact (ih f hf hw).imp_left fun hold => ⟨⟨f, hf, hold.1⟩, hold.2⟩
  | quantified q params body ih =>
    simp only [replace] at h
    split at h
    next hv =>
      refine .inl ⟨h, ?_⟩
      rintro rfl
      exact (mem_freeVariables_quantified.mp h).2 (contains_iff_mem.mp hv)
    next =>
      rw [mem_freeVariables_quantified] at h ⊢
      exact (ih h.1).imp_left fun hold => ⟨⟨hold.1, h.2⟩, hold.2⟩

end Replacement

namespace Formula

/-- The quantifiers of a formula bind distinct variables that are not free in it. -/
structure WellScoped (f : Formula) : Prop where
  distinct : f.binders.Nodup
  /-- No variable is both bound and free. -/
  apart : ∀ v ∈ f.binders, v ∉ f.freeVariables

/-- A formula that binds no more variables than another, in the same order, and
has no other free ones. -/
structure Narrows (g f : Formula) : Prop where
  binders : g.binders.Sublist f.binders
  free : ∀ v ∈ g.freeVariables, v ∈ f.freeVariables

namespace Narrows

variable {f g h : Formula}

theorem refl (f : Formula) : Narrows f f := ⟨List.Sublist.refl _, fun _ hv => hv⟩

theorem trans (hgf : Narrows g f) (hhg : Narrows h g) : Narrows h f :=
  ⟨hhg.binders.trans hgf.binders, fun v hv => hgf.free v (hhg.free v hv)⟩

theorem not (h : Narrows g f) : Narrows (.not g) (.not f) :=
  ⟨h.binders, fun v hv => by simpa using h.free v (by simpa using hv)⟩

theorem implies {a c a' c' : Formula} (ha : Narrows a' a) (hc : Narrows c' c) :
    Narrows (.implies a' c') (.implies a c) := by
  refine ⟨ha.binders.append hc.binders, fun v hv => ?_⟩
  rw [mem_freeVariables_implies] at hv ⊢
  exact hv.imp (ha.free v) (hc.free v)

theorem join {connective : Connective} {fs gs : List Formula} (h : Forall₂ Narrows gs fs) :
    Narrows (.join connective gs) (.join connective fs) := by
  induction h with
  | nil => exact refl _
  | @cons g f gs fs hgf _ ih =>
    refine ⟨hgf.binders.append ih.binders, fun v hv => ?_⟩
    have hrest := ih.free v
    simp only [mem_freeVariables_join, exists_mem_cons_iff] at hv hrest ⊢
    exact hv.imp (hgf.free v) hrest

theorem quantified {q : Quantifier} {params : List Variable} (h : Narrows g f) :
    Narrows (.quantified q params g) (.quantified q params f) := by
  refine ⟨(List.Sublist.refl params).append h.binders, fun v hv => ?_⟩
  rw [mem_freeVariables_quantified] at hv ⊢
  exact ⟨h.free v hv.1, hv.2⟩

end Narrows

namespace WellScoped

variable {f g : Formula}

theorem narrow (h : WellScoped f) (hgf : Narrows g f) : WellScoped g :=
  ⟨h.distinct.sublist hgf.binders, fun v hv hfree =>
    h.apart v (hgf.binders.subset hv) (hgf.free v hfree)⟩

theorem of_not (h : WellScoped (.not f)) : WellScoped f :=
  ⟨h.distinct, fun v hv => by simpa using h.apart v hv⟩

theorem antecedent (h : WellScoped (.implies a c)) : WellScoped a := by
  refine ⟨(nodup_append.mp h.distinct).1, fun v hv hfree => ?_⟩
  exact h.apart v (mem_append_left _ hv) (by simp [hfree])

theorem consequent (h : WellScoped (.implies a c)) : WellScoped c := by
  refine ⟨(nodup_append.mp h.distinct).2.1, fun v hv hfree => ?_⟩
  exact h.apart v (mem_append_right _ hv) (by simp [hfree])

theorem member (h : WellScoped (.join connective fs)) (hf : f ∈ fs) : WellScoped f := by
  have hd := h.distinct
  rw [binders_join] at hd
  refine ⟨(nodup_flatMap.mp hd).1 f hf, fun v hv hfree => ?_⟩
  refine h.apart v ?_ (by simpa using ⟨f, hf, hfree⟩)
  rw [binders_join]
  exact mem_flatMap.mpr ⟨f, hf, hv⟩

theorem body (h : WellScoped (.quantified q params f)) : WellScoped f := by
  obtain ⟨_, hbody, hapart⟩ := nodup_append.mp h.distinct
  refine ⟨hbody, fun v hv hfree => ?_⟩
  refine h.apart v (mem_append_right _ hv) (mem_freeVariables_quantified.mpr ⟨hfree, ?_⟩)
  exact fun hparams => hapart v hparams v hv rfl

end WellScoped

end Formula

end LogicProgram
