import LogicProgram.Completion.Hiding
import LogicProgram.Proofs.Formula.CopyScopes

/-!
# Atoms replaced by definitions

Hiding a predicate puts a copy of the body of its definition in the place of
each of its atoms. Copies bind new variables, so the arguments of the atom keep
their meaning in the body, and the whole formula keeps its meaning wherever the
definition holds.
-/

namespace LogicProgram.Completion

open List

universe u

section Instantiation

variable {params : List Variable} {args : List Term} {body : Formula}

theorem instantiate_cons (v : Variable) (t : Term) :
    instantiate (v :: params) (t :: args) body = instantiate params args (body.replace v t) := rfl

theorem binders_instantiate (hlen : args.length = params.length) :
    (instantiate params args body).binders = body.binders := by
  induction params generalizing args body with
  | nil => rfl
  | cons v params ih =>
    cases args with
    | nil => rfl
    | cons t args => rw [instantiate_cons, ih (Nat.succ.inj hlen), Formula.binders_replace]

theorem mentions_instantiate {p : Symbol} (hlen : args.length = params.length) :
    (instantiate params args body).mentions p ↔ body.mentions p := by
  induction params generalizing args body with
  | nil => exact Iff.rfl
  | cons v params ih =>
    cases args with
    | nil => exact Iff.rfl
    | cons t args => rw [instantiate_cons, ih (Nat.succ.inj hlen), Formula.mentions_replace]

/-- Arguments take the place of free variables. -/
theorem mem_freeVariables_instantiate {w : Variable} (hlen : args.length = params.length)
    (h : w ∈ (instantiate params args body).freeVariables) :
    w ∈ body.freeVariables ∧ w ∉ params ∨ ∃ t ∈ args, w ∈ t.vars := by
  induction params generalizing args body with
  | nil => exact .inl ⟨h, not_mem_nil⟩
  | cons v params ih =>
    cases args with
    | nil => cases hlen
    | cons t args =>
      rw [instantiate_cons] at h
      rcases ih (Nat.succ.inj hlen) h with ⟨hfree, hw⟩ | ⟨u, hu, hwu⟩
      · rcases Formula.mem_freeVariables_replace hfree with ⟨hbody, hne⟩ | hwt
        · exact .inl ⟨hbody, by simp [hne, hw]⟩
        · exact .inr ⟨t, mem_cons_self, hwt⟩
      · exact .inr ⟨u, mem_cons_of_mem t hu, hwu⟩

/-- A body with arguments says of their values what the body says. -/
theorem holds_instantiate {r : Registry} {I : Interpretation.{u}} {σ : Valuation I}
    (hlen : args.length = params.length) (hnodup : params.Nodup)
    (hbinders : ∀ t ∈ args, ∀ w ∈ body.binders, w ∉ t.vars)
    (hparams : ∀ t ∈ args, ∀ w ∈ params, w ∉ t.vars) : (instantiate params args body).Holds r I σ ↔
      body.Holds r I (assign σ params (args.map (·.value I σ))) := by
  induction params generalizing args body with
  | nil => exact Iff.rfl
  | cons v params ih =>
    cases args with
    | nil => cases hlen
    | cons t args =>
      obtain ⟨hv, hnodup⟩ := nodup_cons.mp hnodup
      rw [instantiate_cons, ih (Nat.succ.inj hlen) hnodup ?_ ?_, Formula.holds_replace ?_]
      · -- The first argument has the same value before and after the others are assigned.
        have hvalue : t.value I (assign σ params (args.map (·.value I σ))) = t.value I σ := by
          refine Term.value_congr fun w hw => assign_of_not_mem fun hmem => ?_
          exact hparams t mem_cons_self w (mem_cons_of_mem v hmem) hw
        rw [hvalue, update_assign hv]
        exact Iff.rfl
      · exact hbinders t mem_cons_self
      · intro s hs w hw
        rw [Formula.binders_replace] at hw
        exact hbinders s (mem_cons_of_mem t hs) w hw
      · intro s hs w hw
        exact hparams s (mem_cons_of_mem t hs) w (mem_cons_of_mem v hw)

theorem instantiate_sorted {r : Registry} (hparams : ∀ v ∈ params, r.variableDomain v = some .program)
    (hargs : ∀ t ∈ args, t.Sorted r) (hbody : body.Sorted r) : (instantiate params args body).Sorted r := by
  induction params generalizing args body with
  | nil => exact hbody
  | cons v params ih =>
    cases args with
    | nil => exact hbody
    | cons t args =>
      rw [forall_mem_cons] at hparams hargs
      rw [instantiate_cons]
      refine ih hparams.2 hargs.2 (hbody.replace hargs.1 fun hinteger => ?_)
      rw [hparams.1] at hinteger
      cases hinteger

end Instantiation

section Replacement

variable {I : Interpretation.{u}} {R r₀ r r' : Registry} {p : Symbol} {params : List Variable}
  {body f g : Formula} {fs gs : List Formula} {new : List Term → Registering Formula}

/-- Replacement adds the variables and predicates of the new formulas. -/
theorem replacedAtoms_mentions {Q : Symbol → Prop}
    (hnew : ∀ args r g r', args.length = p.arity → Returns (new args) r g r' →
      r.AddsVariables r' ∧ ∀ q, g.mentions q → Q q) (h : Formula.ReplacedAtoms p new r fs gs r') :
    r.AddsVariables r' ∧ Forall₂ (fun f g => ∀ q, g.mentions q →
      f.mentions q ∧ q ≠ p ∨ f.mentions p ∧ Q q) fs gs := by
  refine Formula.Rewritten.mentions (M := fun P q => P q ∧ q ≠ p ∨ P p ∧ Q q) h .refl .trans
    (fun hPQ q => .imp (.imp_left (hPQ q)) (.imp_left (hPQ p))) (fun hleaf => ?_) fun _ _ _ _ hbind => ?_
  · cases hleaf with
    | same _ hp => exact ⟨.refl _, fun q hq => .inl ⟨hq, fun hqp => hp (hqp ▸ hq)⟩⟩
    | new hargs h =>
      obtain ⟨hadds, hmentions⟩ := hnew _ _ _ _ hargs h
      exact ⟨hadds, fun q hq => .inr ⟨by simp [hargs], hmentions q hq⟩⟩
  · exact hbind.2 ▸ .refl _

/-- Two formulas have the same truth under the valuations of some kind. -/
def EquivalentUnder (Q : Valuation I → Prop) (R : Registry) (f g : Formula) : Prop :=
  ∀ σ, Q σ → (f.Holds R I σ ↔ g.Holds R I σ)

/-- What is put in the place of an atom over some variables is equivalent to the atom. -/
def Replaces (P : Variable → Prop) (Q : Valuation I → Prop) (R r₀ : Registry) (p : Symbol)
    (new : List Term → Registering Formula) : Prop :=
  ∀ args r g r', args.length = p.arity → (∀ t ∈ args, ∀ v ∈ t.vars, P v) → r₀.Grows r →
    Returns (new args) r g r' →
    r.Grows r' ∧ (r'.Grows R → EquivalentUnder Q R (.atom p.name args) g)

variable {P : Variable → Prop} {Q : Valuation I → Prop}

/-- Equivalence below a quantifier that keeps the assumption. -/
theorem EquivalentUnder.quantified (h : EquivalentUnder Q R f g) {q : Quantifier}
    {vs : List Variable} (hQ : ∀ v ∈ vs, ∀ σ a, Q σ → Q (Function.update σ v a)) :
    EquivalentUnder Q R (.quantified q vs f) (.quantified q vs g) := by
  intro σ hσ
  rw [Formula.holds_quantified, Formula.holds_quantified]
  refine Quantifier.holds_of_related_same (R := fun _ σ τ => Q σ ∧ σ = τ) (fun _ _ _ => Iff.rfl)
    ?_ ?_ ⟨hσ, rfl⟩
  · rintro v hv _ σ _ a - ⟨hσ, rfl⟩
    exact ⟨hQ v hv σ a hσ, rfl⟩
  · rintro σ _ ⟨hσ, rfl⟩
    exact h σ hσ

/-- Equivalent formulas may replace atoms if quantifiers keep the assumption. -/
theorem replacedAtoms_equivalent (h : Formula.ReplacedAtoms p new r fs gs r')
    (hQ : ∀ v, P v → ∀ σ a, Q σ → Q (Function.update σ v a)) (hnew : Replaces P Q R r₀ p new)
    (hfs : ∀ f ∈ fs, ∀ v, f.Occurs v → P v) (hr : r₀.Grows r) :
    r.Grows r' ∧ (r'.Grows R → Forall₂ (EquivalentUnder Q R) fs gs) := by
  induction h with
  | nil r => exact ⟨.refl r, fun _ => .nil⟩
  | cons _ _ ihf ihfs =>
    rw [forall_mem_cons] at hfs
    obtain ⟨hgrows, hf⟩ := ihf (forall_mem_singleton.mpr hfs.1) hr
    obtain ⟨hgrows', hrest⟩ := ihfs hfs.2 (hr.trans hgrows)
    refine ⟨hgrows.trans hgrows', fun hR => .cons ?_ (hrest hR)⟩
    exact (forall₂_cons.mp (hf (hgrows'.trans hR))).1
  | leaf h =>
    cases h with
    | same _ _ => exact ⟨.refl _, fun _ => .cons (fun _ _ => Iff.rfl) .nil⟩
    | new hargs h =>
      obtain ⟨hgrows, heq⟩ := hnew _ _ _ _ hargs (fun t ht v hv => hfs _ mem_cons_self v
        (.inl (Formula.mem_freeVariables_atom.mpr ⟨t, ht, hv⟩))) hr h
      exact ⟨hgrows, fun hR => .cons (heq hR) .nil⟩
  | composed hfg _ ih =>
    obtain ⟨hgrows, hall⟩ := ih (fun x hx v hv =>
      hfs _ mem_cons_self v ((hfg.occurs_iff v).mpr ⟨x, hx, hv⟩)) hr
    refine ⟨hgrows, fun hR => .cons (fun σ hσ => hfg.holds_iff ?_) .nil⟩
    exact (hall hR).imp fun f g hfg => hfg σ hσ
  | quantified q hvs _ ih =>
    obtain ⟨rfl, rfl⟩ := hvs
    simp only [forall_mem_singleton, Formula.occurs_quantified] at ih hfs
    obtain ⟨hgrows, hall⟩ := ih (fun v hv => hfs v (.inr hv)) hr
    refine ⟨hgrows, fun hR => .cons ?_ .nil⟩
    exact (forall₂_cons.mp (hall hR)).1.quantified fun v hv => hQ v (hfs v (.inl hv))

/-- What takes the place of an atom. -/
def bodyCopy (params : List Variable) (body : Formula) (args : List Term) : Registering Formula := do
  return instantiate params args (← Registering.copy body)

theorem bodyCopy_returns {args : List Term} (h : Returns (bodyCopy params body args) r g r') :
    ∃ b, Returns (Registering.copy body) r b r' ∧ g = instantiate params args b := by
  simp only [bodyCopy, Returns.bind_iff, Returns.pure_iff] at h
  obtain ⟨b, _, hb, rfl, rfl⟩ := h
  exact ⟨b, hb, rfl⟩

/-- What takes the place of an atom mentions what the body mentions. -/
theorem bodyCopy_mentions (harity : params.length = p.arity) (args : List Term) (r : Registry)
    (g : Formula) (r' : Registry) (hargs : args.length = p.arity)
    (h : Returns (bodyCopy params body args) r g r') :
    r.AddsVariables r' ∧ ∀ q, g.mentions q → body.mentions q := by
  obtain ⟨b, hb, rfl⟩ := bodyCopy_returns h
  obtain ⟨ρ, hcopy⟩ := Registering.formula_of_copy hb
  have hcopied := Copying.copied_formula body ⟨r, []⟩
  have hrenews := Copying.formula_renews body ⟨r, []⟩
  rw [hcopy] at hcopied hrenews
  have hmentions := (forall₂_cons.mp hcopied.mentions).1
  exact ⟨hrenews.adds, fun q hq => hmentions q ((mentions_instantiate (hargs.trans harity.symm)).mp hq)⟩

/-- A copy of the body with the arguments of an atom says what the atom says. -/
theorem bodyCopy_replaces (harity : params.length = p.arity) (hnodup : params.Nodup)
    (hscoped : body.WellScoped) (hdeclared : ∀ v : Nat, body.Occurs v → v < r₀.variableTable.size)
    (hP : ∀ v : Nat, P v → v < r₀.variableTable.size ∧ v ∉ params)
    (hQ : r₀.Grows R → ∀ σ, Q σ → ∀ ds, ds.length = p.arity →
      (I.predicate p.name ds ↔ body.Holds R I (assign σ params ds))) :
    Replaces P Q R r₀ p (bodyCopy params body) := by
  intro args r g r' hargs hvars hr h
  obtain ⟨b, hb, rfl⟩ := bodyCopy_returns h
  have hlen : args.length = params.length := hargs.trans harity.symm
  have hcopy : IsCopy.{u} r body b r' := Registering.isCopy_of_copy hscoped
    (fun v hv => Nat.lt_of_lt_of_le (hdeclared v hv) hr.size) hb
  -- New variables are numbered on from those in use, and so are not in the arguments.
  have hfresh : ∀ t ∈ args, ∀ w ∈ b.binders, w ∉ t.vars := fun t ht w hw hwt =>
    absurd (Nat.lt_of_lt_of_le (hP w (hvars t ht w hwt)).1 hr.size)
      (Nat.not_lt.mpr (hcopy.fresh w hw).1)
  have hapart : ∀ t ∈ args, ∀ w ∈ params, w ∉ t.vars := fun t ht w hw hwt =>
    (hP w (hvars t ht w hwt)).2 hw
  refine ⟨hcopy.adds.toGrows, fun hR σ hσ => ?_⟩
  rw [Formula.holds_atom, holds_instantiate hlen hnodup hfresh hapart, hcopy.meaning R hR I]
  exact hQ (hr.trans (hcopy.adds.toGrows.trans hR)) σ hσ _ (by rw [length_map, hargs])

end Replacement

/-- A definition whose body can be put in the place of atoms. -/
structure Inlinable (r : Registry) (p : Symbol) (params : List Variable) (body : Formula) :
    Prop where
  arity : params.length = p.arity
  distinct : params.Nodup
  declared : ∀ v : Nat, v ∈ params → v < r.variableTable.size
  /-- The body binds distinct variables that are not free in it. -/
  wellScoped : body.WellScoped
  binders : ∀ v : Nat, v ∈ body.binders → v < r.variableTable.size
  /-- It speaks of the arguments alone. -/
  free : ∀ v ∈ body.freeVariables, v ∈ params
  /-- The arguments are program variables. -/
  sorted : ∀ R, r.Grows R → (∀ v ∈ params, R.variableDomain v = some .program) ∧ body.Sorted R

section Expansion

variable {p : Symbol} {params : List Variable} {body f g : Formula} {fs gs : List Formula}
  {r r₁ r₂ r' : Registry}

theorem Inlinable.grows (h : Inlinable r p params body) (hr : r.Grows r') :
    Inlinable r' p params body where
  arity := h.arity
  distinct := h.distinct
  declared := fun v hv => Nat.lt_of_lt_of_le (h.declared v hv) hr.size
  wellScoped := h.wellScoped
  binders := fun v hv => Nat.lt_of_lt_of_le (h.binders v hv) hr.size
  free := h.free
  sorted := fun R hR => h.sorted R (hr.trans hR)

theorem Inlinable.occurs (h : Inlinable r p params body) (v : Nat) (hv : body.Occurs v) :
    v < r.variableTable.size :=
  hv.elim (fun hfree => h.declared v (h.free v hfree)) (h.binders v)

/-- A predicate holds of exactly the tuples of which a body holds. -/
def Defines (R : Registry) (I : Interpretation.{u}) (p : Symbol) (params : List Variable)
    (body : Formula) : Prop :=
  ∀ (σ : Valuation I) (ds : List I.Object), ds.length = p.arity →
    (I.predicate p.name ds ↔ body.Holds R I (assign σ params ds))

/-- What a formula has to do with the one in which the atoms of a predicate were
replaced by the body of its definition. -/
structure Expansion (p : Symbol) (params : List Variable) (body : Formula) (r : Registry)
    (f g : Formula) (r' : Registry) : Prop where
  adds : r.AddsVariables r'
  bound : ∃ new : List Nat, new.Nodup ∧
    (∀ v ∈ new, r.variableTable.size ≤ v ∧ v < r'.variableTable.size) ∧
    f.binders ++ new ~ g.binders
  free : ∀ v ∈ g.freeVariables, v ∈ f.freeVariables
  /-- The predicate is gone; those of the body come in its place. -/
  mentions : ∀ q, g.mentions q → f.mentions q ∧ q ≠ p ∨ f.mentions p ∧ body.mentions q
  sorted : ∀ R, r'.Grows R → f.Sorted R → g.Sorted R
  /-- Where the definition holds nothing changes. -/
  meaning : ∀ R, r'.Grows R → ∀ I : Interpretation.{u}, Defines R I p params body →
    ∀ σ : Valuation I, f.Holds R I σ ↔ g.Holds R I σ

namespace Expansion

/-- Further variables may be added before and after. -/
theorem mono (h : Expansion.{u} p params body r₁ f g r₂) (hr : r.AddsVariables r₁)
    (hr' : r₂.AddsVariables r') : Expansion.{u} p params body r f g r' := by
  obtain ⟨new, hnodup, hnew, hperm⟩ := h.bound
  have hsize := hr.size
  have hsize' := hr'.size
  refine ⟨(hr.trans h.adds).trans hr', ⟨new, hnodup, fun v hv => ?_, hperm⟩, h.free, h.mentions,
    fun R hR => h.sorted R (hr'.toGrows.trans hR), fun R hR => h.meaning R (hr'.toGrows.trans hR)⟩
  have hbetween := hnew v hv
  omega

theorem binders_cases (h : Expansion.{u} p params body r f g r') {v : Nat} (hv : v ∈ g.binders) :
    v ∈ f.binders ∨ r.variableTable.size ≤ v ∧ v < r'.variableTable.size := by
  obtain ⟨new, -, hnew, hperm⟩ := h.bound
  exact (mem_append.mp (hperm.mem_iff.mpr hv)).imp_right (hnew v)

theorem nodup_binders (h : Expansion.{u} p params body r f g r') (hf : f.binders.Nodup)
    (hbelow : ∀ v : Nat, v ∈ f.binders → v < r.variableTable.size) : g.binders.Nodup := by
  obtain ⟨new, hnodup, hnew, hperm⟩ := h.bound
  refine hperm.nodup_iff.mp (nodup_append.mpr ⟨hf, hnodup, fun v hv w hw hvw => ?_⟩)
  subst hvw
  exact absurd (hbelow v hv) (Nat.not_lt.mpr (hnew v hw).1)

end Expansion

/-- Replacing atoms by a definition frees no variable and keeps sorts. -/
theorem replacedAtoms_scopes (h : Formula.ReplacedAtoms p (bodyCopy params body) r fs gs r')
    (hbody : Inlinable r p params body) : (∃ new : List Nat, new.Nodup ∧
      (∀ v ∈ new, r.variableTable.size ≤ v ∧ v < r'.variableTable.size) ∧
      (Formula.and fs).binders ++ new ~ (Formula.and gs).binders) ∧
    ∀ R, r'.Grows R → Forall₂ (fun f g =>
      (∀ v ∈ g.freeVariables, v ∈ f.freeVariables) ∧ (f.Sorted R → g.Sorted R)) fs gs := by
  have hadds {r r' fs gs} := fun h : Formula.ReplacedAtoms p (bodyCopy params body) r fs gs r' =>
    (replacedAtoms_mentions (bodyCopy_mentions hbody.arity) h).1
  induction h with
  | nil r => exact ⟨⟨[], nodup_nil, nofun, .refl _⟩, fun _ _ => .nil⟩
  | @cons _ _ _ f g _ _ hf hfs ihf ihfs =>
    obtain ⟨⟨new, hnodup, hnew, hperm⟩, hfree⟩ := ihf hbody
    obtain ⟨⟨new', hnodup', hnew', hperm'⟩, hfree'⟩ := ihfs (hbody.grows (hadds hf).toGrows)
    have hsize := (hadds hf).size
    have hsize' := (hadds hfs).size
    refine ⟨⟨new ++ new', nodup_append.mpr ⟨hnodup, hnodup', fun v hv w hw hvw => ?_⟩,
      forall_mem_append.mpr ⟨fun v hv => ?_, fun v hv => ?_⟩, ?_⟩,
      fun R hR => .cons (forall₂_cons.mp (hfree R ((hadds hfs).toGrows.trans hR))).1 (hfree' R hR)⟩
    · subst hvw
      exact absurd (hnew v hv).2 (Nat.not_lt.mpr (hnew' v hw).1)
    · have hlt := hnew v hv
      omega
    · have hle := hnew' v hv
      omega
    · rw [← f.composedOf_self.binders, ← g.composedOf_self.binders] at hperm
      refine perm_iff_count.mpr fun v => ?_
      have hcount := hperm.count_eq v
      have hcount' := hperm'.count_eq v
      simp only [Formula.binders_join, flatMap_cons, count_append] at hcount hcount' ⊢
      omega
  | leaf h =>
    cases h with
    | same _ _ =>
      exact ⟨⟨[], nodup_nil, nofun, .of_eq (append_nil _)⟩, fun _ _ => .cons ⟨fun _ hv => hv, id⟩ .nil⟩
    | @new _ _ args _ hargs h =>
      obtain ⟨b, hb, rfl⟩ := bodyCopy_returns h
      have hcopy := Registering.isCopy_of_copy.{0} hbody.wellScoped hbody.occurs hb
      have hlen := hargs.trans hbody.arity.symm
      refine ⟨⟨b.binders, hcopy.distinct, hcopy.fresh, ?_⟩,
        fun R hR => .cons ⟨fun v hv => ?_, fun hatom => ?_⟩ .nil⟩
      · rw [← (instantiate params args b).composedOf_self.binders, binders_instantiate hlen]
        exact .refl _
      · rcases mem_freeVariables_instantiate hlen hv with ⟨hfree, hv'⟩ | hv'
        · exact absurd (hbody.free v (hcopy.free v hfree)) hv'
        · exact Formula.mem_freeVariables_atom.mpr hv'
      · obtain ⟨hparams, hsorted⟩ := hbody.sorted R (hcopy.adds.toGrows.trans hR)
        exact instantiate_sorted hparams hatom.terms (hcopy.sorted R hR hsorted)
  | @composed _ _ f g _ _ hfg _ ih =>
    obtain ⟨⟨new, hnodup, hnew, hperm⟩, hfree⟩ := ih hbody
    refine ⟨⟨new, hnodup, hnew, ?_⟩, fun R hR => .cons ⟨fun v hv => ?_, fun hsorted => ?_⟩ .nil⟩
    · rw [← f.composedOf_self.binders, ← g.composedOf_self.binders, hfg.composedOf.binders,
        hfg.symm.composedOf.binders]
      exact hperm
    · obtain ⟨y, hy, hv⟩ := Formula.mem_freeVariables_join.mp ((hfg.symm.composedOf.free v).mp hv)
      obtain ⟨x, hx, hxy⟩ := forall₂_exists_left (hfree R hR) hy
      exact (hfg.composedOf.free v).mpr (Formula.mem_freeVariables_join.mpr ⟨x, hx, hxy.1 v hv⟩)
    · refine hfg.symm.sorted_iff.mpr fun y hy => ?_
      obtain ⟨x, hx, hxy⟩ := forall₂_exists_left (hfree R hR) hy
      exact hxy.2 (hfg.sorted_iff.mp hsorted x hx)
  | quantified q hvs _ ih =>
    obtain ⟨rfl, rfl⟩ := hvs
    obtain ⟨⟨new, hnodup, hnew, hperm⟩, hfree⟩ := ih hbody
    refine ⟨⟨new, hnodup, hnew, ?_⟩, fun R hR => .cons ⟨fun v hv => ?_, fun hsorted => ?_⟩ .nil⟩
    · simp only [Formula.binders_join, flatMap_singleton] at hperm ⊢
      exact (append_assoc _ _ _).symm ▸ hperm.append_left _
    · rw [Formula.mem_freeVariables_quantified] at hv ⊢
      exact ⟨(forall₂_cons.mp (hfree R hR)).1.1 v hv.1, hv.2⟩
    · rw [Formula.sorted_quantified] at hsorted ⊢
      exact ⟨hsorted.1, (forall₂_cons.mp (hfree R hR)).1.2 hsorted.2⟩

/-- The variables of a formula are declared and not those of a definition. -/
def Avoids (r : Registry) (params : List Variable) (f : Formula) : Prop :=
  ∀ v : Nat, f.Occurs v → v < r.variableTable.size ∧ v ∉ params

theorem Avoids.grows (h : Avoids r params f) (hr : r.Grows r') : Avoids r' params f :=
  fun v hv => ⟨Nat.lt_of_lt_of_le (h v hv).1 hr.size, (h v hv).2⟩

/-- Replacing the atoms of a predicate by its definition is an expansion. -/
theorem replacedAtoms_expansion (h : Formula.ReplacedAtoms p (bodyCopy params body) r [f] [g] r')
    (hbody : Inlinable r p params body) (hf : Avoids r params f) :
    Expansion.{u} p params body r f g r' := by
  obtain ⟨hadds, hmentions⟩ := replacedAtoms_mentions (bodyCopy_mentions hbody.arity) h
  obtain ⟨hbound, hfree⟩ := replacedAtoms_scopes h hbody
  rw [← f.composedOf_self.binders, ← g.composedOf_self.binders] at hbound
  refine ⟨hadds, hbound, (forall₂_cons.mp (hfree r' (.refl r'))).1.1, (forall₂_cons.mp hmentions).1,
    fun R hR => (forall₂_cons.mp (hfree R hR)).1.2, fun R hR I hI σ => ?_⟩
  have hnew := bodyCopy_replaces hbody.arity hbody.distinct hbody.wellScoped hbody.occurs
    (fun _ hv => hv) fun (_ : r.Grows R) σ (hI : Defines R I p params body) => hI σ
  have hall := (replacedAtoms_equivalent h (fun _ _ _ _ h => h) hnew
    (forall_mem_singleton.mpr hf) (.refl r)).2 hR
  exact (forall₂_cons.mp hall).1 σ hI

end Expansion

end LogicProgram.Completion
