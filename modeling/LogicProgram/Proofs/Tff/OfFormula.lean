import LogicProgram.Proofs.Formula.Sorts
import LogicProgram.Tff.OfFormula

/-!
# Sorted formulas have a typed form

All that can go wrong in writing a formula in typed form is excluded by its sorts,
but for strings, which have no typed form.
-/

namespace LogicProgram

open List
open Returns (exists_bind exists_pure pure_iff)

namespace Tff

variable {r : Registry} {t : Term} {ts : List LogicProgram.Term}

theorem nameOf_returns {v : Variable} (h : (r.variableDomain v).isSome) (n : Namer) :
    ∃ name n', Returns (Naming.nameOf r v) n name n' := by
  obtain ⟨d, hd⟩ := Option.isSome_iff_exists.mp h
  simp only [Naming.nameOf, Returns.bind_iff, Returns.get_iff]
  cases hname : n.names.lookup v with
  | some name => exact ⟨name, n, n, n, ⟨rfl, rfl⟩, by simp [hname]⟩
  | none =>
    refine ⟨(n.add v d).1, (n.add v d).2, n, n, ⟨rfl, rfl⟩, ?_⟩
    simp only [hname, Naming.domainOf, hd, Returns.bind_iff, pure_iff, Returns.modifyGet_iff]
    exact ⟨d, n, ⟨rfl, rfl⟩, rfl⟩

/-- Whether a sorted term is an integer can always be told. -/
theorem exists_isArithmetic {t : LogicProgram.Term} (ht : t.Sorted r) :
    ∃ b, r.isArithmetic t = .ok b := by
  cases t with
  | boolean b | interval lower upper => exact ht.elim
  | function name args =>
    obtain rfl : args = [] := ht
    exact ⟨_, rfl⟩
  | «variable» v =>
    obtain ⟨d, hd⟩ := Option.isSome_iff_exists.mp ht
    exact ⟨d == .integer, by rw [Registry.isArithmetic, hd]⟩
  | binary op left right => exact ⟨true, Registry.isArithmetic_binary ht.2.1.2 ht.2.2.2⟩
  | unary op arg => exact ⟨true, ht.2.2⟩
  | _ => exact ⟨_, rfl⟩

theorem ofExcept_returns {α : Type} {x : Except Error α} {a : α} (h : x = .ok a) (n : Namer) :
    Returns (Naming.ofExcept x) n a n := by
  subst h
  exact pure_iff.mpr ⟨rfl, rfl⟩

/-- A sorted term without strings has a typed form. -/
theorem ofTerm_returns {t : LogicProgram.Term} (ht : t.Sorted r)
    (hstrings : ∀ s, .string s ∉ t.subterms) (n : Namer) : ∃ u n', Returns (ofTerm r t) n u n' := by
  induction t generalizing n with
  | integer value | infimum | supremum => exact exists_pure _ n
  | boolean b => exact ht.elim
  | string s => exact absurd (LogicProgram.Term.self_mem_subterms _) (hstrings s)
  | interval lower upper => exact ht.elim
  | var v =>
    obtain ⟨name, n', hname⟩ := nameOf_returns ht n
    exact exists_bind hname (exists_pure _ n')
  | function name args =>
    obtain rfl : args = [] := ht
    exact exists_bind (pure_iff.mpr ⟨rfl, rfl⟩) (exists_pure _ n)
  | unary op arg ih =>
    obtain ⟨rfl, harg, -⟩ := ht
    obtain ⟨u, n', hu⟩ := ih harg (fun s hs => hstrings s (mem_cons_of_mem _ hs)) n
    exact exists_bind hu (exists_pure _ n')
  | binary op left right ihl ihr =>
    obtain ⟨hop, ⟨hl, -⟩, hr, -⟩ := ht
    obtain ⟨l, n₁, hl⟩ := ihl hl
      (fun s hs => hstrings s (mem_cons_of_mem _ (mem_append_left _ hs))) n
    obtain ⟨s, n₂, hs⟩ := ihr hr
      (fun s hs => hstrings s (mem_cons_of_mem _ (mem_append_right _ hs))) n₁
    obtain ⟨name, hname⟩ : ∃ name, operatorName? op = some name := by
      simp only [mem_cons, not_mem_nil, or_false] at hop
      rcases hop with rfl | rfl | rfl <;> exact ⟨_, rfl⟩
    rw [ofTerm, hname]
    exact exists_bind hl (exists_bind hs (exists_pure _ n₂))

theorem ofArguments_returns (hts : ∀ t ∈ ts, t.Sorted r)
    (hstrings : ∀ t ∈ ts, ∀ s, .string s ∉ t.subterms) (n : Namer) :
    ∃ us n', Returns (ofArguments r ts) n us n' := by
  induction ts generalizing n with
  | nil => exact exists_pure [] n
  | cons t ts ih =>
    rw [forall_mem_cons] at hts hstrings
    obtain ⟨b, hb⟩ : ∃ b, isIntegerArgument r t = .ok b := by
      rw [isIntegerArgument.eq_def]
      split
      · obtain rfl := (hts.1 : _ = [])
        exact exists_isArithmetic hts.1
      · exact exists_isArithmetic hts.1
    obtain ⟨u, n₁, hu⟩ := ofTerm_returns hts.1 hstrings.1 n
    obtain ⟨us, n₂, hus⟩ := ih hts.2 hstrings.2 n₁
    exact exists_bind (ofExcept_returns hb n)
      (exists_bind hu (exists_bind hus (exists_pure _ n₂)))

theorem ofComparison_returns {op : Comparison} {left right : LogicProgram.Term}
    (hl : left.Sorted r) (hr : right.Sorted r) (hstrings : ∀ s, .string s ∉ left.subterms)
    (hstrings' : ∀ s, .string s ∉ right.subterms) (n : Namer) :
    ∃ f n', Returns (ofComparison r op left right) n f n' := by
  obtain ⟨b, hb⟩ := exists_isArithmetic hl
  obtain ⟨b', hb'⟩ := exists_isArithmetic hr
  obtain ⟨l, n₁, hl⟩ := ofTerm_returns hl hstrings n
  obtain ⟨s, n₂, hs⟩ := ofTerm_returns hr hstrings' n₁
  refine exists_bind (ofExcept_returns hb n) (exists_bind (ofExcept_returns hb' n)
    (exists_bind hl (exists_bind hs ?_)))
  dsimp only
  split
  · exact exists_pure _ n₂
  · exact exists_pure _ n₂

theorem ofParameters_returns {vs : List Variable} (h : ∀ v ∈ vs, (r.variableDomain v).isSome)
    (n : Namer) : ∃ typed n', Returns (ofParameters r vs) n typed n' := by
  induction vs generalizing n with
  | nil => exact exists_pure [] n
  | cons v vs ih =>
    rw [forall_mem_cons] at h
    obtain ⟨d, hd⟩ := Option.isSome_iff_exists.mp h.1
    obtain ⟨name, n₁, hname⟩ := nameOf_returns h.1 n
    obtain ⟨typed, n₂, htyped⟩ := ih h.2 n₁
    have hdomain : Returns (Naming.domainOf r v) n₁ d n₁ := by
      rw [Naming.domainOf, hd]
      exact pure_iff.mpr ⟨rfl, rfl⟩
    exact exists_bind hname (exists_bind hdomain (exists_bind htyped (exists_pure _ n₂)))

/-- A sorted formula without strings has a typed form. -/
theorem ofFormula_returns {f : LogicProgram.Formula} (hf : f.Sorted r)
    (hstrings : ∀ t ∈ f.terms, ∀ s, .string s ∉ t.subterms) (n : Namer) :
    ∃ g n', Returns (ofFormula r f) n g n' := by
  induction f generalizing n with
  | boolean b => exact exists_pure _ n
  | compare op left right =>
    obtain ⟨hl, hr⟩ := LogicProgram.Formula.sorted_compare.mp hf
    exact ofComparison_returns hl hr (hstrings left mem_cons_self)
      (hstrings right (mem_cons_of_mem _ mem_cons_self)) n
  | atom name args =>
    obtain ⟨us, n', hus⟩ := ofArguments_returns hf.terms hstrings n
    exact exists_bind hus (exists_pure _ n')
  | not arg ih =>
    obtain ⟨g, n', hg⟩ := ih (LogicProgram.Formula.sorted_not.mp hf) hstrings n
    exact exists_bind hg (exists_pure _ n')
  | implies a c iha ihc =>
    obtain ⟨ha, hc⟩ := LogicProgram.Formula.sorted_implies.mp hf
    obtain ⟨a', n₁, ha⟩ := iha ha (fun t ht => hstrings t (mem_append_left _ ht)) n
    obtain ⟨c', n₂, hc⟩ := ihc hc (fun t ht => hstrings t (mem_append_right _ ht)) n₁
    exact exists_bind ha (exists_bind hc (exists_pure _ n₂))
  | join connective fs ih =>
    have hall : ∃ gs n', Returns (ofFormulas r fs) n gs n' := by
      have hfs := LogicProgram.Formula.sorted_join.mp hf
      have hparts : ∀ f ∈ fs, ∀ t ∈ f.terms, ∀ s, .string s ∉ t.subterms := by
        intro f hf t ht
        refine hstrings t ?_
        rw [LogicProgram.Formula.terms, LogicProgram.Formula.termsOfAll_eq_flatMap]
        exact mem_flatMap.mpr ⟨f, hf, ht⟩
      clear hf hstrings
      induction fs generalizing n with
      | nil => exact exists_pure [] n
      | cons f fs ihs =>
        rw [forall_mem_cons] at hfs hparts
        obtain ⟨g, n₁, hg⟩ := ih f mem_cons_self hfs.1 hparts.1 n
        obtain ⟨gs, n₂, hgs⟩ :=
          ihs (fun f hf => ih f (mem_cons_of_mem _ hf)) n₁ hfs.2 hparts.2
        exact exists_bind hg (exists_bind hgs (exists_pure _ n₂))
    obtain ⟨gs, n', hgs⟩ := hall
    cases connective <;> exact exists_bind hgs (exists_pure _ n')
  | quantified q params body ih =>
    obtain ⟨hdomains, hbody⟩ := LogicProgram.Formula.sorted_quantified.mp hf
    obtain ⟨typed, n₁, htyped⟩ := ofParameters_returns hdomains n
    obtain ⟨g, n₂, hg⟩ := ih hbody hstrings n₁
    exact exists_bind htyped (exists_bind hg (exists_pure _ n₂))

end Tff

/-- A sorted formula without strings can be written in proof problems. -/
theorem Formula.exists_tptp {r : Registry} {f : Formula} (hf : f.Sorted r)
    (hstrings : ∀ s, .string s ∉ f.subterms) : ∃ text, f.tptp r = .ok text := by
  obtain ⟨g, n', hg⟩ := Tff.ofFormula_returns hf
    (fun t ht s hs => hstrings s (mem_flatMap.mpr ⟨t, ht, hs⟩)) Namer.empty
  have htyped : f.typed r = .ok g := congrArg Prod.fst hg
  exact ⟨g.text, by rw [Formula.tptp, htyped]; rfl⟩

end LogicProgram
