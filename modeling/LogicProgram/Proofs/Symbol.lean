import LogicProgram.Proofs.Registry

/-!
# The order of symbols

Texts are ordered by their bytes, and symbols by name and then by arity. Both
orders are linear, so that a list of declared predicates is sorted in one way.
-/

namespace LogicProgram

namespace Text

theorem precedes_irrefl (t : Text) : t.precedes t = false := by
  induction t with
  | nil => rfl
  | cons a t ih => simp [precedes, ih]

theorem precedes_trans {s t u : Text} (hst : s.precedes t) (htu : t.precedes u) : s.precedes u := by
  induction s generalizing t u with
  | nil =>
    cases t with
    | nil => cases hst
    | cons b t =>
      cases u with
      | nil => cases htu
      | cons c u => rfl
  | cons a s ih =>
    cases t with
    | nil => cases hst
    | cons b t =>
      cases u with
      | nil => cases htu
      | cons c u =>
        simp only [precedes, Bool.or_eq_true, decide_eq_true_eq, Bool.and_eq_true, beq_iff_eq]
          at hst htu ⊢
        rcases hst with hab | ⟨rfl, hst⟩
        · rcases htu with hbc | ⟨rfl, -⟩
          · exact .inl (UInt8.lt_trans hab hbc)
          · exact .inl hab
        · rcases htu with hbc | ⟨rfl, htu⟩
          · exact .inl hbc
          · exact .inr ⟨rfl, ih hst htu⟩

/-- The order of texts is total. -/
theorem precedes_trichotomy (s t : Text) : s.precedes t ∨ s = t ∨ t.precedes s := by
  induction s generalizing t with
  | nil =>
    cases t with
    | nil => exact .inr (.inl rfl)
    | cons b t => exact .inl rfl
  | cons a s ih =>
    cases t with
    | nil => exact .inr (.inr rfl)
    | cons b t =>
      simp only [precedes, Bool.or_eq_true, decide_eq_true_eq, Bool.and_eq_true, beq_iff_eq,
        List.cons.injEq]
      have htotal : a < b ∨ a = b ∨ b < a := by
        rw [UInt8.lt_iff_toNat_lt, UInt8.lt_iff_toNat_lt, ← UInt8.toNat_inj]
        omega
      rcases htotal with h | rfl | h
      · exact .inl (.inl h)
      · rcases ih t with h | rfl | h
        · exact .inl (.inr ⟨rfl, h⟩)
        · exact .inr (.inl ⟨rfl, rfl⟩)
        · exact .inr (.inr (.inr ⟨rfl, h⟩))
      · exact .inr (.inr (.inl h))

end Text

namespace Symbol

/-- One symbol comes before another: by name, and by arity for the same name. -/
def Before (a b : Symbol) : Prop := a.name.precedes b.name ∨ a.name = b.name ∧ a.arity < b.arity

theorem le_iff {a b : Symbol} : a.le b ↔ a.Before b ∨ a = b := by
  obtain ⟨name, arity⟩ := a
  obtain ⟨name', arity'⟩ := b
  simp only [le, Before, Bool.or_eq_true, Bool.and_eq_true, beq_iff_eq, decide_eq_true_eq,
    Symbol.mk.injEq]
  constructor
  · rintro (h | ⟨hname, harity⟩)
    · exact .inl (.inl h)
    · rcases Nat.lt_or_eq_of_le harity with hlt | heq
      · exact .inl (.inr ⟨hname, hlt⟩)
      · exact .inr ⟨hname, heq⟩
  · rintro ((h | ⟨hname, harity⟩) | ⟨hname, harity⟩)
    · exact .inl h
    · exact .inr ⟨hname, Nat.le_of_lt harity⟩
    · exact .inr ⟨hname, Nat.le_of_eq harity⟩

theorem Before.trans {a b c : Symbol} (hab : a.Before b) (hbc : b.Before c) : a.Before c := by
  rcases hab with hab | ⟨hab, hlt⟩
  · rcases hbc with hbc | ⟨hbc, -⟩
    · exact .inl (Text.precedes_trans hab hbc)
    · exact .inl (hbc ▸ hab)
  · rcases hbc with hbc | ⟨hbc, hlt'⟩
    · exact .inl (hab ▸ hbc)
    · exact .inr ⟨hab.trans hbc, Nat.lt_trans hlt hlt'⟩

theorem not_before_self {p : Symbol} : ¬ p.Before p := by
  intro h
  rcases h with h | h
  · rw [Text.precedes_irrefl] at h
    cases h
  · exact Nat.lt_irrefl _ h.2

theorem le_trans (a b c : Symbol) (hab : a.le b) (hbc : b.le c) : a.le c := by
  rw [le_iff] at hab hbc ⊢
  rcases hab with hab | rfl
  · rcases hbc with hbc | rfl
    · exact .inl (hab.trans hbc)
    · exact .inl hab
  · exact hbc

theorem le_total (a b : Symbol) : (a.le b || b.le a) = true := by
  rw [Bool.or_eq_true, le_iff, le_iff]
  rcases Text.precedes_trichotomy a.name b.name with h | h | h
  · exact .inl (.inl (.inl h))
  · rcases Nat.lt_trichotomy a.arity b.arity with hlt | heq | hgt
    · exact .inl (.inl (.inr ⟨h, hlt⟩))
    · obtain ⟨name, arity⟩ := a
      obtain ⟨name', arity'⟩ := b
      exact .inl (.inr (by rw [show name = name' from h, show arity = arity' from heq]))
    · exact .inr (.inl (.inr ⟨h.symm, hgt⟩))
  · exact .inr (.inl (.inl h))

/-- What is sorted by its symbols is in order. -/
theorem pairwise_mergeSort {α : Type} (symbol : α → Symbol) (l : List α) :
    (l.mergeSort fun a b => (symbol a).le (symbol b)).Pairwise fun a b => (symbol a).le (symbol b) :=
  List.pairwise_mergeSort (fun a b c => le_trans (symbol a) (symbol b) (symbol c))
    (fun a b => le_total (symbol a) (symbol b)) l

/-- The same symbols in order are those that sorting leads to. -/
theorem map_mergeSort_eq {α : Type} {symbol : α → Symbol} {l : List α} (keep : α → Bool) {ps : List Symbol}
    (hperm : ((l.filter keep).map symbol).isPerm ps = true) (hsorted : ps.Pairwise fun p q => p.le q) :
    ((l.mergeSort fun a b => (symbol a).le (symbol b)).filter keep).map symbol = ps := by
  have hle : (((l.mergeSort fun a b => (symbol a).le (symbol b)).filter keep).map symbol).Pairwise
      fun p q => p.le q :=
    List.pairwise_map.mpr ((pairwise_mergeSort symbol l).filter keep)
  refine List.Perm.eq_of_pairwise (fun p q _ _ hpq hqp => ?_) hle hsorted
    ((((List.mergeSort_perm l _).filter keep).map _).trans (List.isPerm_iff.mp hperm))
  rcases le_iff.mp hpq with hpq | rfl
  · exact (le_iff.mp hqp).elim (fun hqp => (not_before_self (hpq.trans hqp)).elim) Eq.symm
  · rfl

end Symbol

namespace Registry

variable {r : Registry}

/-- Declared predicates of a kind are listed by name and arity, each once. -/
theorem pairwise_sortedPredicates (hr : r.symbols.Nodup) (keep : PredicateDeclaration → Bool) :
    ((r.sortedPredicates.filter keep).map (·.symbol)).Pairwise Symbol.Before := by
  have hsorted := Symbol.pairwise_mergeSort PredicateDeclaration.symbol r.predicates
  have hdistinct : r.sortedPredicates.Pairwise fun a b => a.symbol ≠ b.symbol := by
    have hperm : (r.sortedPredicates.map (·.symbol)).Perm r.symbols :=
      (List.mergeSort_perm r.predicates _).map PredicateDeclaration.symbol
    exact List.pairwise_map.mp (hperm.symm.nodup hr)
  rw [List.pairwise_map]
  refine ((hsorted.and hdistinct).imp fun h => ?_).filter keep
  exact (Symbol.le_iff.mp h.1).resolve_right h.2

/-- Sorted declarations are distinct if the declarations are. -/
theorem nodup_sortedPredicates (hr : r.symbols.Nodup) (keep : PredicateDeclaration → Bool) :
    ((r.sortedPredicates.filter keep).map (·.symbol)).Nodup := by
  refine (pairwise_sortedPredicates hr keep).imp fun hab he => ?_
  rw [he] at hab
  exact Symbol.not_before_self hab

theorem mem_sortedPredicates {keep : PredicateDeclaration → Bool} {p : Symbol} :
    p ∈ (r.sortedPredicates.filter keep).map (·.symbol) ↔
      ∃ d ∈ r.predicates, keep d ∧ d.symbol = p := by
  simp [sortedPredicates, and_assoc]

end Registry

end LogicProgram
