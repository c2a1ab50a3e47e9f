import Mathlib.Tactic.Common

/-!
# Computations that keep their state

Registering declarations, encoding rules, hiding predicates and running proofs are
computations with a state that can fail and keep the state when they do. `Returns x s a
s'` says that one succeeds.
-/

namespace LogicProgram

variable {ε σ α β : Type} {t : σ}

/-- What a computation started in `s` gives, and the state that it ends in. -/
def outcome (x : ExceptT ε (StateM σ) α) (s : σ) : Except ε α × σ := x.run s

/-- A computation started in `s` gives `a` and ends in `s'`. -/
def Returns (x : ExceptT ε (StateM σ) α) (s : σ) (a : α) (s' : σ) : Prop :=
  outcome x s = (.ok a, s')

/-- The second of two computations starts where the first succeeded. -/
theorem outcome_bind (x : ExceptT ε (StateM σ) α) (f : α → ExceptT ε (StateM σ) β) (s : σ) :
    outcome (x >>= f) s =
      match outcome x s with
      | (.ok a, t) => outcome (f a) t
      | (.error e, t) => (.error e, t) := by
  have hb : outcome (x >>= f) s = ExceptT.bindCont f (outcome x s).1 (outcome x s).2 := rfl
  rw [hb]
  rcases outcome x s with ⟨_ | a, t⟩ <;> rfl

/-- Reading the state does not change it. -/
theorem outcome_get (s : σ) : outcome (get : ExceptT ε (StateM σ) σ) s = (.ok s, s) := rfl

/-- Changing the error that a computation fails with. -/
theorem outcome_rethrow (x : ExceptT ε (StateM σ) α) (change : ε → ε) (s : σ) :
    outcome (tryCatch x fun e => throw (change e)) s =
      match outcome x s with
      | (.ok a, t) => (.ok a, t)
      | (.error e, t) => (.error (change e), t) := by
  have hc : outcome (tryCatch x fun e => throw (change e)) s =
      ((match (outcome x s).1 with
        | .ok a => pure (.ok a)
        | .error e => pure (.error (change e)) : StateM σ (Except ε α)) (outcome x s).2) := by
    show (match (outcome x s).1 with
      | .ok _ => _ | .error _ => _ : StateM σ (Except ε α)) (outcome x s).2 = _
    rcases outcome x s with ⟨_ | a, t⟩ <;> rfl
  rw [hc]
  rcases outcome x s with ⟨_ | a, t⟩ <;> rfl

namespace Returns

variable {s s' : σ} {a b : α} {c : β} {x : ExceptT ε (StateM σ) α}

@[simp] theorem pure_iff : Returns (pure a : ExceptT ε (StateM σ) α) s b s' ↔ a = b ∧ s = s' := by
  show ((.ok a, s) : Except ε α × σ) = _ ↔ _
  simp

@[simp] theorem bind_iff {f : α → ExceptT ε (StateM σ) β} :
    Returns (x >>= f) s c s' ↔ ∃ a t, Returns x s a t ∧ Returns (f a) t c s' := by
  unfold Returns
  rw [outcome_bind]
  rcases outcome x s with ⟨_ | a, t⟩
  · simp
  · simp only [Prod.mk.injEq, Except.ok.injEq]
    constructor
    · exact fun h => ⟨a, t, ⟨rfl, rfl⟩, h⟩
    · rintro ⟨_, _, ⟨rfl, rfl⟩, h⟩
      exact h

@[simp] theorem throw_iff {e : ε} : Returns (throw e : ExceptT ε (StateM σ) α) s a s' ↔ False := by
  show ((.error e, s) : Except ε α × σ) = _ ↔ _
  simp

@[simp] theorem rethrow_iff {change : ε → ε} :
    Returns (tryCatch x fun e => throw (change e)) s a s' ↔ Returns x s a s' := by
  unfold Returns
  rw [outcome_rethrow]
  rcases outcome x s with ⟨_ | a, t⟩ <;> simp

@[simp] theorem get_iff : Returns (get : ExceptT ε (StateM σ) σ) s t s' ↔ s = t ∧ s = s' := by
  show ((.ok s, s) : Except ε σ × σ) = _ ↔ _
  simp

@[simp] theorem set_iff {u : PUnit} :
    Returns (set t : ExceptT ε (StateM σ) PUnit) s u s' ↔ t = s' := by
  show ((.ok _, t) : Except ε PUnit × σ) = _ ↔ _
  simp

@[simp] theorem modifyGet_iff {f : σ → α × σ} :
    Returns (modifyGet f : ExceptT ε (StateM σ) α) s a s' ↔ f s = (a, s') := by
  show ((.ok (f s).1, (f s).2) : Except ε α × σ) = _ ↔ _
  simp [Prod.ext_iff]

@[simp] theorem modify_iff {f : σ → σ} {u : PUnit} :
    Returns (modify f : ExceptT ε (StateM σ) PUnit) s u s' ↔ f s = s' := by
  show ((.ok _, f s) : Except ε PUnit × σ) = _ ↔ _
  simp

/-- A computation runs on a part of the state and puts the rest back. -/
theorem within_iff {τ : Type} {x : ExceptT ε (StateM τ) α} {y : ExceptT ε (StateM σ) β} {t : τ}
    {put : τ → σ} {give : α → τ → β}
    (hok : ∀ a t', x.run t = (.ok a, t') → outcome y s = (.ok (give a t'), put t'))
    (herror : ∀ e t', x.run t = (.error e, t') → outcome y s = (.error e, put t')) :
    Returns y s c s' ↔ ∃ a t', Returns x t a t' ∧ give a t' = c ∧ put t' = s' := by
  unfold Returns
  rcases hrun : (x.run t : Except ε α × τ) with ⟨e | a, t'⟩
  · have hx : outcome x t = (.error e, t') := hrun
    simp [hx, herror e t' hrun]
  · have hx : outcome x t = (.ok a, t') := hrun
    simp [hx, hok a t' hrun]

/-- A computation that succeeds ends in the state of its outcome. -/
theorem of_ok (h : (outcome x s).1 = .ok a) : Returns x s a (outcome x s).2 := Prod.ext h rfl

theorem of_toBool (h : (outcome x s).1.toBool = true) : ∃ a s', Returns x s a s' := by
  cases hx : (outcome x s).1 with
  | ok a => exact ⟨a, _, of_ok hx⟩
  | error e => simp [hx, Except.toBool] at h

theorem exists_pure (a : α) (s : σ) : ∃ b t, Returns (pure a : ExceptT ε (StateM σ) α) s b t :=
  ⟨a, s, pure_iff.mpr ⟨rfl, rfl⟩⟩

/-- Two computations one after the other succeed if both do. -/
theorem exists_bind {f : α → ExceptT ε (StateM σ) β}
    (hx : Returns x s a s') (hf : ∃ c t, Returns (f a) s' c t) : ∃ c t, Returns (x >>= f) s c t := by
  obtain ⟨c, t, hf⟩ := hf
  exact ⟨c, t, bind_iff.mpr ⟨a, s', hx, hf⟩⟩

/-- A computation has one outcome. -/
theorem unique (h : Returns x s a s') (h' : Returns x s b t) : a = b ∧ s' = t := by
  have he := h.symm.trans h'
  simpa using he

end Returns

/-- A computation started in `s` fails with `e` and ends in `s'`. -/
def Fails (x : ExceptT ε (StateM σ) α) (s : σ) (e : ε) (s' : σ) : Prop :=
  outcome x s = (.error e, s')

/-- A computation fails or succeeds. -/
theorem fails_or_returns (x : ExceptT ε (StateM σ) α) (s : σ) :
    (∃ e, Fails x s e (outcome x s).2) ∨ ∃ a, Returns x s a (outcome x s).2 := by
  rcases hrun : outcome x s with ⟨e | a, t⟩
  · exact .inl ⟨e, hrun⟩
  · exact .inr ⟨a, hrun⟩

namespace Fails

variable {s s' : σ} {e : ε} {a : α}

theorem not_returns {x : ExceptT ε (StateM σ) α} (h : Fails x s e s')
    (hx : Returns x s a t) : False := by
  have he := h.symm.trans hx
  simp at he

theorem pure_iff : Fails (pure a : ExceptT ε (StateM σ) α) s e s' ↔ False :=
  ⟨fun h => h.not_returns (Returns.pure_iff.mpr ⟨rfl, rfl⟩), False.elim⟩

theorem get_iff : Fails (get : ExceptT ε (StateM σ) σ) s e s' ↔ False :=
  ⟨fun h => h.not_returns (Returns.get_iff.mpr ⟨rfl, rfl⟩), False.elim⟩

theorem modify_iff {f : σ → σ} : Fails (modify f : ExceptT ε (StateM σ) PUnit) s e s' ↔ False :=
  ⟨fun h => h.not_returns (a := ⟨⟩) (Returns.modify_iff.mpr rfl), False.elim⟩

theorem bind_iff {x : ExceptT ε (StateM σ) α} {f : α → ExceptT ε (StateM σ) β} :
    Fails (x >>= f) s e s' ↔ Fails x s e s' ∨ ∃ a t, Returns x s a t ∧ Fails (f a) t e s' := by
  unfold Fails Returns
  rw [outcome_bind]
  rcases outcome x s with ⟨_ | a, t⟩
  · simp
  · simp only [Prod.mk.injEq, reduceCtorEq, false_and, false_or, Except.ok.injEq]
    constructor
    · exact fun h => ⟨a, t, ⟨rfl, rfl⟩, h⟩
    · intro h
      obtain ⟨_, _, ⟨rfl, rfl⟩, h⟩ := h
      exact h

end Fails

/-- However a computation ends, the state that it ends in is related to the one
that it was started in. -/
def Always (R : σ → σ → Prop) (x : ExceptT ε (StateM σ) α) : Prop := ∀ s, R s (outcome x s).2

namespace Always

variable {R : σ → σ → Prop} {x : ExceptT ε (StateM σ) α} {f : α → ExceptT ε (StateM σ) β}

/-- A computation that leaves the state alone. -/
theorem of_refl (hR : ∀ s, R s s) (hx : ∀ s, (outcome x s).2 = s) : Always R x := by
  intro s
  rw [hx s]
  exact hR s

theorem pure (hR : ∀ s, R s s) (a : α) : Always R (pure a : ExceptT ε (StateM σ) α) :=
  of_refl hR fun _ => rfl

theorem throw (hR : ∀ s, R s s) (e : ε) : Always R (throw e : ExceptT ε (StateM σ) α) :=
  of_refl hR fun _ => rfl

theorem get (hR : ∀ s, R s s) : Always R (get : ExceptT ε (StateM σ) σ) := of_refl hR fun _ => rfl

/-- The second of two computations only has to be right after the first. -/
theorem bind_of_returns (hR : ∀ {s t u}, R s t → R t u → R s u) (hx : Always R x)
    (hf : ∀ s a t, Returns x s a t → R t (outcome (f a) t).2) : Always R (x >>= f) := by
  intro s
  have hs := hx s
  rw [outcome_bind]
  rcases hrun : outcome x s with ⟨e | a, t⟩
  · rw [hrun] at hs
    exact hs
  · rw [hrun] at hs
    exact hR hs (hf s a t hrun)

theorem bind (hR : ∀ {s t u}, R s t → R t u → R s u) (hx : Always R x)
    (hf : ∀ a, Always R (f a)) : Always R (x >>= f) :=
  bind_of_returns hR hx fun _ a t _ => hf a t

/-- A computation that succeeds. -/
theorem of_returns (hx : ∀ s, ∃ a t, Returns x s a t ∧ R s t) : Always R x := by
  intro s
  obtain ⟨a, t, hrun, ht⟩ := hx s
  rw [hrun]
  exact ht

end Always

/-- A computation without state succeeds if its parts do. -/
theorem except_bind_eq_ok {x : Except ε α} {f : α → Except ε β} {b : β} :
    (x >>= f) = .ok b ↔ ∃ a, x = .ok a ∧ f a = .ok b := by
  cases x with
  | error e | ok a => simp [bind, Except.bind]

end LogicProgram
