import LogicProgram.Proofs.Token.Lexing
import LogicProgram.Proofs.Token.Reading

/-!
# Words of a text

The words of a text have the form of their kinds, so that one that is spelled like a
symbol or an identifier is one. There are rounds left as long as there are words.
-/

namespace LogicProgram.Token

variable {ws : List Word} {n : Nat → Nat}

/-- The word that is spelled like a text: an identifier or a symbol. -/
def spelled (t : Text) : Word := if Text.isLower (t.headD 0) then (.identifier, t) else mark t

theorem isLower_symbolSpellings : ∀ t ∈ symbolSpellings, Text.isLower (t.headD 0) = false := by
  decide

theorem Proper.eq_spelled {w : Word} {t : Text} (hw : Proper w) (h : isWord w t = true) :
    w = spelled t := by
  obtain ⟨kind, value⟩ := w
  simp only [isWord, Bool.and_eq_true, Bool.or_eq_true, beq_iff_eq] at h
  obtain ⟨rfl | rfl, rfl⟩ := h
  · have hlower := isLower_symbolSpellings value hw
    rw [spelled, if_neg (by rw [hlower]; decide)]
  · obtain ⟨b, r, rfl, hb, -⟩ := hw
    rw [spelled, List.headD_cons, if_pos hb]

/-- Fewer words of a text than each of the bounds `n`. -/
structure Input (n : Nat → Nat) (ws : List Word) : Prop where
  proper : ∀ w ∈ ws, Proper w
  length : ∀ i, ws.length < n i

theorem Input.suffix {n : Nat → Nat} {us vs : List Word} (h : Input n (us ++ vs)) : Input n vs where
  proper := fun w hw => h.proper w (List.mem_append_right us hw)
  length := fun i => Nat.lt_of_le_of_lt (List.length_append ▸ Nat.le_add_left _ _) (h.length i)

theorem Input.tail {n : Nat → Nat} {w : Word} {vs : List Word} (h : Input n (w :: vs)) : Input n vs :=
  @Input.suffix n [w] vs h

/-- After a word there is room for one round less. -/
theorem Input.next {w : Word} {vs : List Word} (h : Input (fun i => n i + 1) (w :: vs)) : Input n vs :=
  ⟨h.tail.proper, fun i => Nat.lt_of_succ_lt_succ (h.length i)⟩

theorem Input.mono {m : Nat → Nat} (h : Input n ws) (hm : ∀ i, n i ≤ m i) : Input m ws :=
  ⟨h.proper, fun i => Nat.lt_of_lt_of_le (h.length i) (hm i)⟩

/-- Rounds are left as long as there are words. -/
theorem Input.rounds {motive : (n : Nat → Nat) → (ws : List Word) → Input n ws → Prop}
    (step : ∀ n ws hws, (∀ vs hvs, motive n vs hvs) → motive (fun i => n i + 1) ws hws)
      (n : Nat → Nat) (ws : List Word)
    (hws : Input n ws) : motive n ws hws := by
  obtain ⟨n, rfl⟩ : ∃ m : Nat → Nat, n = fun i => m i + 1 :=
    ⟨fun i => n i - 1, funext fun i => (Nat.sub_add_cancel
      (Nat.lt_of_le_of_lt (Nat.zero_le _) (hws.length i))).symm⟩
  refine step n ws hws fun vs hvs => ?_
  exact Input.rounds step n vs hvs
termination_by n 0
decreasing_by subst_vars; exact Nat.lt_succ_self _

/-- At the end there are no words. -/
theorem Input.eq_nil (hws : Input n ws) (h : ((first ws).1 == .endOfInput) = true) : ws = [] := by
  cases ws with
  | nil => rfl
  | cons w vs =>
    obtain ⟨kind, value⟩ := w
    obtain rfl : kind = .endOfInput := beq_iff_eq.mp h
    exact (hws.proper _ List.mem_cons_self).elim

/-- A token that is not the end is the first of the words. -/
theorem eq_cons_of_first {t : Token} {kind : Kind} (h : t.word = first ws)
    (hkind : t.kind = kind) (hne : kind ≠ .endOfInput) : ∃ vs, ws = (kind, t.value) :: vs := by
  subst hkind
  cases ws with
  | nil => exact absurd (congrArg Prod.fst h) hne
  | cons w vs => exact ⟨vs, congrArg (· :: vs) h.symm⟩

/-- A token that is a symbol or identifier is the first of the words. -/
theorem Input.eq_spelled_cons {t : Token} {u : Text} (hws : Input n ws)
    (ht : t.word = first ws) (h : t.is u = true) : ∃ vs, ws = spelled u :: vs := by
  rw [is_eq, ht] at h
  cases ws with
  | nil => cases h
  | cons w vs => exact ⟨vs, congrArg (· :: vs) ((hws.proper w List.mem_cons_self).eq_spelled h)⟩

end LogicProgram.Token
