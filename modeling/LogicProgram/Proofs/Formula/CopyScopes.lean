import LogicProgram.Proofs.Formula.Alpha
import LogicProgram.Proofs.Formula.Copy

/-!
# Which copies rename bound variables only

A copy always binds new variables, each once and declared like the one it stands for.
Since a renaming stays in force where the scope of its quantifier is over, a variable
that occurs there once more is renamed too.
-/

namespace LogicProgram

open List

universe u

namespace Formula

mutual

/-- Whether a variable occurs after the scope of a quantifier that listed it, other than
bound anew. The scopes of `left` are over before the formula. -/
def revisits (left : List Variable) : Formula → Bool
  | .boolean _ => false
  | .compare _ a b => (a.vars ++ b.vars).any left.contains
  | .atom _ args => (Term.varsOfAll args).any left.contains
  | .not arg => arg.revisits left
  | .implies antecedent consequent =>
    antecedent.revisits left || consequent.revisits (antecedent.binders ++ left)
  | .join _ args => revisitsInAny left args
  | .quantified _ params body => body.revisits (left.filter (!params.contains ·))

/-- Whether this is so in one of several formulas. -/
def revisitsInAny (left : List Variable) : List Formula → Bool
  | [] => false
  | f :: rest => f.revisits left || revisitsInAny (f.binders ++ left) rest

end

/-- Nothing occurs after a scope if no variable is bound twice or free too. -/
theorem WellScoped.revisits_eq_false {f : Formula} {left : List Variable} (hf : f.WellScoped)
    (hleft : ∀ v ∈ left, v ∉ f.freeVariables) : f.revisits left = false := by
  induction f generalizing left with
  | boolean b => rfl
  | compare op a b =>
    refine any_eq_false.mpr fun x hx hmem => hleft x (by simpa using hmem) ?_
    exact mem_freeVariables_compare.mpr (mem_append.mp hx)
  | atom name args =>
    refine any_eq_false.mpr fun x hx hmem => hleft x (by simpa using hmem) ?_
    rw [Term.varsOfAll_eq_flatMap, mem_flatMap] at hx
    exact mem_freeVariables_atom.mpr hx
  | not f ih => exact ih hf.of_not fun v hv => by simpa using hleft v hv
  | implies a c iha ihc =>
    simp only [mem_freeVariables_implies, not_or] at hleft
    refine Bool.or_eq_false_iff.mpr ⟨iha hf.antecedent fun v hv => (hleft v hv).1, ihc hf.consequent ?_⟩
    refine forall_mem_append.mpr ⟨fun v hv hfree => ?_, fun v hv => (hleft v hv).2⟩
    exact hf.apart v (mem_append_left _ hv) (mem_freeVariables_implies.mpr (.inr hfree))
  | join connective fs ih =>
    have hscoped := fun f => hf.member (f := f)
    have hapart : ∀ f ∈ fs, ∀ v ∈ f.binders, ∀ g ∈ fs, v ∉ g.freeVariables := fun f hmem v hv g hg hfree =>
      hf.apart v (binders_join _ _ ▸ mem_flatMap.mpr ⟨f, hmem, hv⟩)
        (mem_freeVariables_join.mpr ⟨g, hg, hfree⟩)
    have hothers : ∀ v ∈ left, ∀ g ∈ fs, v ∉ g.freeVariables := fun v hv g hg hfree =>
      hleft v hv (mem_freeVariables_join.mpr ⟨g, hg, hfree⟩)
    clear hf hleft
    show revisitsInAny left fs = false
    induction fs generalizing left with
    | nil => rfl
    | cons f fs ihs =>
      refine Bool.or_eq_false_iff.mpr ⟨ih f mem_cons_self (hscoped f mem_cons_self) fun v hv =>
        hothers v hv f mem_cons_self, ?_⟩
      refine ihs (fun f hf => ih f (mem_cons_of_mem _ hf)) (fun f hf => hscoped f (mem_cons_of_mem _ hf))
        (fun f hf v hv g hg => hapart f (mem_cons_of_mem _ hf) v hv g (mem_cons_of_mem _ hg)) ?_
      exact forall_mem_append.mpr ⟨fun v hv g hg => hapart f mem_cons_self v hv g (mem_cons_of_mem _ hg),
        fun v hv g hg => hothers v hv g (mem_cons_of_mem _ hg)⟩
  | quantified q vs f ih =>
    refine ih hf.body fun v hv hfree => ?_
    obtain ⟨hv, hvs⟩ := mem_filter.mp hv
    exact hleft v hv (mem_freeVariables_quantified.mpr ⟨hfree, by simpa using hvs⟩)

end Formula

namespace Renaming

variable {ρ δ : Renaming} {v : Variable}

theorem apply_mem_or_eq (ρ : Renaming) (v : Variable) :
    ρ.apply v ∈ ρ.map Prod.snd ∨ ρ.apply v = v := by
  induction ρ with
  | nil => exact .inr rfl
  | cons p ρ ih =>
    obtain ⟨x, w⟩ := p
    by_cases hv : v = x
    · rw [hv, Copying.apply_cons_self]
      exact .inl mem_cons_self
    · rw [Copying.apply_cons_of_ne ρ w hv]
      exact ih.imp_left (mem_cons_of_mem w)

/-- Distinct new variables pair a variable with what it became. -/
theorem pairs_apply (hnodup : (ρ.map Prod.snd).Nodup) (hv : v ∉ ρ.map Prod.snd) :
    ρ.Pairs v (ρ.apply v) := by
  induction ρ with
  | nil => exact .free v
  | cons p ρ ih =>
    obtain ⟨x, w⟩ := p
    obtain ⟨hw, hnodup⟩ := nodup_cons.mp hnodup
    obtain ⟨hvw, hvρ⟩ := not_or.mp (mem_cons.not.mp hv)
    by_cases hvx : v = x
    · rw [hvx, Copying.apply_cons_self]
      exact .here ρ x w
    · rw [Copying.apply_cons_of_ne ρ w hvx]
      refine .there hvx (fun he => ?_) (ih hnodup hvρ)
      rcases apply_mem_or_eq ρ v with hmem | hsame
      · exact hw (he ▸ hmem)
      · exact hvw (hsame.symm.trans he)

/-- A variable of the nearer pairs becomes one of theirs. -/
theorem apply_append_mem (hv : v ∈ δ.map Prod.fst) : apply (δ ++ ρ) v ∈ δ.map Prod.snd := by
  induction δ with
  | nil => cases hv
  | cons p δ ih =>
    obtain ⟨x, w⟩ := p
    by_cases hvx : v = x
    · rw [hvx, cons_append, Copying.apply_cons_self]
      exact mem_cons_self
    · rw [cons_append, Copying.apply_cons_of_ne _ w hvx]
      exact mem_cons_of_mem w (ih ((mem_cons.mp hv).resolve_left hvx))

theorem apply_append_of_not_mem (hv : v ∉ δ.map Prod.fst) : apply (δ ++ ρ) v = ρ.apply v := by
  induction δ with
  | nil => rfl
  | cons p δ ih =>
    obtain ⟨x, w⟩ := p
    obtain ⟨hvx, hvδ⟩ := not_or.mp (mem_cons.not.mp hv)
    rw [cons_append, Copying.apply_cons_of_ne _ w hvx, ih hvδ]

end Renaming

namespace Copying

variable {c c₁ c' : Copying} {vs ws vs' ws' : List Variable}

/-- New variables were made for others, one for each. -/
structure Renews (c : Copying) (vs ws : List Variable) (c' : Copying) : Prop where
  adds : c.registry.AddsVariables c'.registry
  fresh : ws = List.range' c.next vs.length
  next : c'.next = c.next + vs.length
  /-- They have the names and domains of those they were made for. -/
  declared : (∀ v : Nat, v ∈ vs → v < c.next) →
    ws.map c'.registry.variableDeclaration = vs.map c.registry.variableDeclaration

namespace Renews

theorem refl (c : Copying) : Renews c [] [] c := ⟨.refl _, rfl, rfl, fun _ => rfl⟩

/-- A variable becomes the next one. -/
theorem single (c : Copying) (v : Variable) : Renews c [v] [c.next] (c.renew v) where
  adds := c.registry.addsVariables_addVariables _
  fresh := rfl
  next := c.registry.size_addVariables _
  declared := fun _ =>
    congrArg (fun d => [d]) (c.registry.variableDeclaration_addVariables (k := 0) rfl)

/-- Each new variable is one that was not there before. -/
theorem range (h : Renews c vs ws c') {w : Nat} (hw : w ∈ ws) : c.next ≤ w ∧ w < c'.next := by
  rw [h.next]
  rw [h.fresh] at hw
  exact mem_range'_1.mp hw

/-- New variables made one after the other. -/
theorem trans (h : Renews c vs ws c₁) (h' : Renews c₁ vs' ws' c') :
    Renews c (vs ++ vs') (ws ++ ws') c' := by
  refine ⟨h.adds.trans h'.adds, ?_, ?_, fun hbelow => ?_⟩
  · rw [h.fresh, h'.fresh, h.next, length_append, range'_append_1]
  · rw [h'.next, h.next, length_append, Nat.add_assoc]
  · obtain ⟨hvs, hvs'⟩ := forall_mem_append.mp hbelow
    have hfirst : ws.map c'.registry.variableDeclaration =
        vs.map c.registry.variableDeclaration := by
      rw [← h.declared hvs]
      exact map_congr_left fun w hw => h'.adds.declared w (h.range hw).2
    have hsecond : ws'.map c'.registry.variableDeclaration =
        vs'.map c.registry.variableDeclaration := by
      rw [h'.declared fun v hv => Nat.lt_of_lt_of_le (hvs' v hv) h.adds.size]
      exact map_congr_left fun v hv => h.adds.declared v (hvs' v hv)
    rw [map_append, map_append, hfirst, hsecond]

theorem nodup (h : Renews c vs ws c') : ws.Nodup := h.fresh ▸ nodup_range'

theorem length_eq (h : Renews c vs ws c') : vs.length = ws.length := by
  rw [h.fresh, length_range']

end Renews

theorem bind_renews (vs : List Variable) (c : Copying) :
    Renews c vs (bind vs c).1 (bind vs c).2 := by
  induction vs generalizing c with
  | nil => exact .refl c
  | cons v vs ih =>
    rw [bind_cons]
    exact (Renews.single c v).trans (ih (c.renew v))

theorem formulas_renews {fs : List Formula}
    (ih : ∀ f ∈ fs, ∀ c, Renews c f.binders (formula f c).1.binders (formula f c).2) (c : Copying) :
    Renews c (Formula.bindersOfAll fs) (Formula.bindersOfAll (formulas fs c).1)
      (formulas fs c).2 := by
  induction fs generalizing c with
  | nil => exact .refl c
  | cons f fs ihs =>
    exact (ih f mem_cons_self c).trans
      (ihs (fun g hg => ih g (mem_cons_of_mem _ hg)) (formula f c).2)

/-- A copy binds a new variable for each that the formula binds. -/
theorem formula_renews (f : Formula) (c : Copying) :
    Renews c f.binders (formula f c).1.binders (formula f c).2 := by
  induction f generalizing c with
  | boolean b | compare op left right | atom name args => exact .refl c
  | not f ih => exact ih c
  | implies a b iha ihb => exact (iha c).trans (ihb (formula a c).2)
  | join connective fs ih => exact formulas_renews ih c
  | quantified q vs f ih => exact (bind_renews vs c).trans (ih (bind vs c).2)

/-- How the renaming of a copy in the making compares with the pairs of the quantifiers
around, where the scopes of `left` are over and new variables are numbered from `n`. -/
structure Tracks (n : Nat) (ρ : Renaming) (left : List Variable) (c : Copying) : Prop where
  start : n ≤ c.next
  /-- The quantifiers around bind new variables. -/
  range : ∀ w : Nat, w ∈ ρ.map Prod.snd → n ≤ w ∧ w < c.next
  nodup : (ρ.map Prod.snd).Nodup
  /-- Variables become what the quantifiers around make of them. -/
  current : ∀ v, v ∉ left → c.renamed.apply v = ρ.apply v
  /-- But those whose scope is over still become new ones that no quantifier around binds. -/
  stale : ∀ v ∈ left, n ≤ c.renamed.apply v ∧ c.renamed.apply v < c.next ∧
    c.renamed.apply v ∉ ρ.map Prod.snd

variable {n : Nat} {ρ δ : Renaming} {left left' : List Variable} {f g : Formula}

namespace Tracks

theorem congr (h : Tracks n ρ left c) (hleft : ∀ v, v ∈ left' ↔ v ∈ left) : Tracks n ρ left' c :=
  ⟨h.start, h.range, h.nodup, fun v hv => h.current v ((hleft v).not.mp hv),
    fun v hv => h.stale v ((hleft v).mp hv)⟩

/-- A quantifier lists a variable. -/
theorem renew (h : Tracks n ρ left c) (v : Variable) :
    Tracks n ((v, c.next) :: ρ) (left.filter (· != v)) (c.renew v) := by
  have hnext : (c.renew v).next = c.next + 1 := (Renews.single c v).next
  have hstart := h.start
  refine ⟨by omega, fun w hw => ?_, ?_, fun x hx => ?_, fun x hx => ?_⟩
  · rcases mem_cons.mp hw with rfl | hw
    · exact ⟨h.start, by omega⟩
    · have hrange := h.range w hw
      exact ⟨hrange.1, by omega⟩
  · refine nodup_cons.mpr ⟨fun hmem => ?_, h.nodup⟩
    exact absurd (h.range c.next hmem).2 (Nat.lt_irrefl _)
  · by_cases hxv : x = v
    · rw [hxv]
      exact (apply_cons_self _ _ _).trans (apply_cons_self _ _ _).symm
    · have hleft : x ∉ left := fun hmem => hx (mem_filter.mpr ⟨hmem, by simpa using hxv⟩)
      exact (apply_cons_of_ne _ _ hxv).trans
        ((h.current x hleft).trans (apply_cons_of_ne _ _ hxv).symm)
  · obtain ⟨hleft, hxv⟩ := mem_filter.mp hx
    have hx : (c.renew v).renamed.apply x = c.renamed.apply x :=
      apply_cons_of_ne _ _ (by simpa using hxv)
    obtain ⟨hle, hlt, hnot⟩ := h.stale x hleft
    rw [hx]
    refine ⟨hle, Nat.lt_of_lt_of_le hlt (by omega), fun hmem => ?_⟩
    rcases mem_cons.mp hmem with he | hmem
    · exact absurd hlt (he ▸ Nat.lt_irrefl _)
    · exact hnot hmem

/-- The scope of a quantifier begins. -/
theorem enter (h : Tracks n ρ left c) (vs : List Variable) :
    Tracks n ((vs.zip (bind vs c).1).reverse ++ ρ) (left.filter (!vs.contains ·))
      (bind vs c).2 := by
  induction vs generalizing ρ left c with
  | nil => exact h.congr (by simp)
  | cons v vs ih =>
    rw [bind_cons, zip_cons_cons, reverse_cons, append_assoc]
    refine (ih (h.renew v)).congr fun x => ?_
    simp only [mem_filter, contains_cons, Bool.not_or, Bool.and_eq_true, bne_iff_ne,
      Bool.not_eq_true', beq_eq_false_iff_ne]
    tauto

/-- The scope of a quantifier is over. -/
theorem leave (h : Tracks n (δ ++ ρ) left c) (hvs : ∀ v, v ∈ vs ↔ v ∈ δ.map Prod.fst) :
    Tracks n ρ (vs ++ left) c := by
  have hseconds : (δ ++ ρ).map Prod.snd = δ.map Prod.snd ++ ρ.map Prod.snd := map_append
  have hnodup := h.nodup
  rw [hseconds] at hnodup
  obtain ⟨-, hρ, hapart⟩ := nodup_append.mp hnodup
  have hrange : ∀ w : Nat, w ∈ δ.map Prod.snd ++ ρ.map Prod.snd → n ≤ w ∧ w < c.next :=
    hseconds ▸ h.range
  refine ⟨h.start, fun w hw => hrange w (mem_append_right _ hw), hρ, fun v hv => ?_,
    fun v hv => ?_⟩
  · obtain ⟨hvs', hleft⟩ := not_or.mp (mem_append.not.mp hv)
    rw [h.current v hleft, Renaming.apply_append_of_not_mem ((hvs v).not.mp hvs')]
  · by_cases hleft : v ∈ left
    · obtain ⟨hle, hlt, hnot⟩ := h.stale v hleft
      exact ⟨hle, hlt, fun hmem => hnot (hseconds ▸ mem_append_right _ hmem)⟩
    · have hmem : v ∈ δ.map Prod.fst := (hvs v).mp ((mem_append.mp hv).resolve_right hleft)
      have hnew : Renaming.apply (δ ++ ρ) v ∈ δ.map Prod.snd := Renaming.apply_append_mem hmem
      rw [h.current v hleft]
      obtain ⟨hle, hlt⟩ := hrange _ (mem_append_left _ hnew)
      exact ⟨hle, hlt, fun hold => hapart _ hnew _ hold rfl⟩

/-- Variables whose scope is not over are paired with what they become. -/
theorem pairs (h : Tracks n ρ left c) {v : Nat} (hv : v < n) (hleft : v ∉ left) :
    ρ.Pairs v (c.renamed.apply v) := by
  rw [h.current v hleft]
  refine Renaming.pairs_apply h.nodup fun hmem => ?_
  exact absurd hv (Nat.not_lt.mpr (h.range v hmem).1)

end Tracks

/-- A new variable of a copy is free, and no quantifier around binds it. -/
def Escapes (n : Nat) (ρ : Renaming) (g : Formula) : Prop :=
  ∃ w : Nat, w ∈ g.freeVariables ∧ n ≤ w ∧ w ∉ ρ.map Prod.snd

/-- What a copy made below quantifiers has to do with its original: it is the same up to
bound variables, or a new variable escapes. -/
structure Follows (n : Nat) (ρ : Renaming) (left : List Variable) (f g : Formula)
    (c' : Copying) : Prop where
  tracks : Tracks n ρ (f.binders ++ left) c'
  same : f.revisits left = false → f.AlphaEq ρ g
  escapes : f.revisits left = true → Escapes n ρ g

/-- A formula without quantifiers is copied by renaming its terms. -/
theorem Follows.atomic (h : Tracks n ρ left c) {xs : List Variable}
    (hxs : ∀ x : Nat, x ∈ xs → x < n) (hbinders : f.binders = [])
    (hrevisits : f.revisits left = xs.any left.contains)
    (hsame : (∀ x ∈ xs, ρ.Pairs x (c.renamed.apply x)) → f.AlphaEq ρ g)
    (hfree : ∀ x ∈ xs, c.renamed.apply x ∈ g.freeVariables) : Follows n ρ left f g c := by
  refine ⟨by rw [hbinders]; exact h, fun hno => hsame fun x hx => ?_, fun hyes => ?_⟩
  · rw [hrevisits, any_eq_false] at hno
    exact h.pairs (hxs x hx) (by simpa using hno x hx)
  · rw [hrevisits, any_eq_true] at hyes
    obtain ⟨x, hx, hleft⟩ := hyes
    obtain ⟨hle, -, hnot⟩ := h.stale x (by simpa using hleft)
    exact ⟨_, hfree x hx, hle, hnot⟩

/-- Copies made one after the other. -/
theorem formulas_follow {fs : List Formula} (ih : ∀ f ∈ fs, ∀ left c, Tracks n ρ left c →
      Follows n ρ left f (formula f c).1 (formula f c).2) (h : Tracks n ρ left c) :
    Tracks n ρ (Formula.bindersOfAll fs ++ left) (formulas fs c).2 ∧
      (Formula.revisitsInAny left fs = false → Formula.AlphaEqAll ρ fs (formulas fs c).1) ∧
      (Formula.revisitsInAny left fs = true → ∃ g ∈ (formulas fs c).1, Escapes n ρ g) := by
  induction fs generalizing left c with
  | nil => exact ⟨h, fun _ => .nil, fun hyes => by cases hyes⟩
  | cons f fs ihs =>
    have hf := ih f mem_cons_self left c h
    obtain ⟨htracks, hsame, hescapes⟩ :=
      ihs (fun g hg => ih g (mem_cons_of_mem _ hg)) hf.tracks
    refine ⟨htracks.congr fun v => ?_, fun hno => ?_, fun hyes => ?_⟩
    · simp only [Formula.bindersOfAll, mem_append]
      tauto
    · obtain ⟨hno, hrest⟩ := Bool.or_eq_false_iff.mp hno
      exact .cons (hf.same hno) (hsame hrest)
    · rcases Bool.or_eq_true_iff.mp hyes with hyes | hyes
      · exact ⟨_, mem_cons_self, hf.escapes hyes⟩
      · obtain ⟨g, hg, hescape⟩ := hescapes hyes
        exact ⟨g, mem_cons_of_mem _ hg, hescape⟩

/-- A copy is followed through all scopes, from left to right. -/
theorem formula_follows (f : Formula) (hf : ∀ v : Nat, f.Occurs v → v < n)
    (h : Tracks n ρ left c) : Follows n ρ left f (formula f c).1 (formula f c).2 := by
  induction f generalizing ρ left c with
  | boolean b => exact ⟨h, fun _ => .boolean b, fun hyes => by cases hyes⟩
  | compare op a b =>
    have hvars : ∀ x : Nat, x ∈ a.vars ++ b.vars → x < n := fun x hx =>
      hf x (.inl (Formula.mem_freeVariables_compare.mpr (mem_append.mp hx)))
    refine .atomic h hvars rfl rfl (fun hpairs => ?_) fun x hx => ?_
    · obtain ⟨ha, hb⟩ := forall_mem_append.mp hpairs
      exact .compare (Term.alphaEq_rename ha) (Term.alphaEq_rename hb)
    · refine Formula.mem_freeVariables_compare.mpr ((mem_append.mp hx).imp ?_ ?_)
      · intro hx
        exact Term.vars_rename _ _ ▸ mem_map_of_mem hx
      · intro hx
        exact Term.vars_rename _ _ ▸ mem_map_of_mem hx
  | atom name args =>
    have hcopy : (formula (.atom name args) c).1 = .atom name (args.map (·.rename c.renamed)) :=
      congrArg (Formula.atom name) (Term.renameAll_eq_map c.renamed args)
    have hmem : ∀ x, x ∈ Term.varsOfAll args ↔ ∃ t ∈ args, x ∈ t.vars := fun x => by
      rw [Term.varsOfAll_eq_flatMap, mem_flatMap]
    rw [hcopy]
    refine .atomic h (fun x hx => hf x (.inl ?_)) rfl rfl (fun hpairs => .atom ?_) fun x hx => ?_
    · exact Formula.mem_freeVariables_atom.mpr ((hmem x).mp hx)
    · refine forall₂_map_right_iff.mpr (forall₂_same.mpr fun t ht => ?_)
      exact Term.alphaEq_rename fun v hv => hpairs v ((hmem v).mpr ⟨t, ht, hv⟩)
    · obtain ⟨t, ht, hx⟩ := (hmem x).mp hx
      refine Formula.mem_freeVariables_atom.mpr ⟨_, mem_map_of_mem ht, ?_⟩
      exact Term.vars_rename _ _ ▸ mem_map_of_mem hx
  | not f ih =>
    have hbody := ih (fun v hv => hf v (Formula.occurs_not.mpr hv)) h
    refine ⟨hbody.tracks, fun hno => .not (hbody.same hno), fun hyes => ?_⟩
    obtain ⟨w, hw, hescape⟩ := hbody.escapes hyes
    exact ⟨w, Formula.mem_freeVariables_not.mpr hw, hescape⟩
  | implies a b iha ihb =>
    have ha := iha (fun v hv => hf v (Formula.occurs_implies.mpr (.inl hv))) h
    have hb := ihb (fun v hv => hf v (Formula.occurs_implies.mpr (.inr hv))) ha.tracks
    refine ⟨hb.tracks.congr fun v => ?_, fun hno => ?_, fun hyes => ?_⟩
    · simp only [Formula.binders, mem_append]
      tauto
    · obtain ⟨hno, hno'⟩ := Bool.or_eq_false_iff.mp hno
      exact .implies (ha.same hno) (hb.same hno')
    · rcases Bool.or_eq_true_iff.mp hyes with hyes | hyes
      · obtain ⟨w, hw, hescape⟩ := ha.escapes hyes
        exact ⟨w, Formula.mem_freeVariables_implies.mpr (.inl hw), hescape⟩
      · obtain ⟨w, hw, hescape⟩ := hb.escapes hyes
        exact ⟨w, Formula.mem_freeVariables_implies.mpr (.inr hw), hescape⟩
  | join connective fs ih =>
    obtain ⟨htracks, hsame, hescapes⟩ := formulas_follow (fun f hmem left c h =>
      ih f hmem (fun v hv => hf v (Formula.occurs_join.mpr ⟨f, hmem, hv⟩)) h) h
    refine ⟨htracks, fun hno => .join (hsame hno), fun hyes => ?_⟩
    obtain ⟨g, hg, w, hw, hescape⟩ := hescapes hyes
    exact ⟨w, Formula.mem_freeVariables_join.mpr ⟨g, hg, hw⟩, hescape⟩
  | quantified q vs f ih =>
    have hlen := (bind_renews vs c).length_eq
    have hbody := ih (fun v hv => hf v (Formula.occurs_quantified.mpr (.inr hv))) (h.enter vs)
    have hfirst : ∀ v, v ∈ vs ↔ v ∈ (vs.zip (bind vs c).1).reverse.map Prod.fst := fun v => by
      rw [map_reverse, mem_reverse, map_fst_zip (Nat.le_of_eq hlen)]
    have hsecond : ∀ w, w ∈ (bind vs c).1 ↔ w ∈ (vs.zip (bind vs c).1).reverse.map Prod.snd :=
      fun w => by
        rw [map_reverse, mem_reverse, map_snd_zip (Nat.le_of_eq hlen.symm)]
    refine ⟨(hbody.tracks.leave hfirst).congr fun v => ?_, fun hno => ?_, fun hyes => ?_⟩
    · simp only [Formula.binders, mem_append, mem_filter, Bool.not_eq_true',
        contains_eq_mem, decide_eq_false_iff_not]
      tauto
    · exact .quantified hlen (hbody.same hno)
    · obtain ⟨w, hw, hle, hnot⟩ := hbody.escapes hyes
      rw [map_append, mem_append, not_or] at hnot
      refine ⟨w, Formula.mem_freeVariables_quantified.mpr ⟨hw, ?_⟩, hle, hnot.2⟩
      exact (hsecond w).not.mpr hnot.1

/-- A copy begins outside of all scopes. -/
theorem tracks_start (r : Registry) : Tracks r.variableTable.size [] [] ⟨r, []⟩ where
  start := Nat.le_refl _
  range := nofun
  nodup := nodup_nil
  current := fun _ _ => rfl
  stale := nofun

end Copying

/-- A formula with new bound variables that means the same as another. -/
structure IsCopy (r : Registry) (f g : Formula) (r' : Registry) : Prop where
  adds : r.AddsVariables r'
  /-- The copy binds new variables. -/
  fresh : ∀ v : Nat, v ∈ g.binders → r.variableTable.size ≤ v ∧ v < r'.variableTable.size
  distinct : g.binders.Nodup
  /-- It has no further free variables. -/
  free : ∀ v ∈ g.freeVariables, v ∈ f.freeVariables
  /-- It holds if its original does. -/
  meaning : ∀ R, r'.Grows R → ∀ (I : Interpretation.{u}) (σ : Valuation I),
    g.Holds R I σ ↔ f.Holds R I σ
  /-- It is sorted if its original is. -/
  sorted : ∀ R, r'.Grows R → f.Sorted R → g.Sorted R

/-- A copy of a formula whose variables are declared is one. -/
theorem Registering.isCopy_of_copy {r r' : Registry} {f g : Formula} (hf : f.WellScoped)
    (hdeclared : ∀ v : Nat, f.Occurs v → v < r.variableTable.size)
    (h : Returns (Registering.copy f) r g r') : IsCopy.{u} r f g r' := by
  obtain ⟨ρ, hcopy⟩ := Registering.formula_of_copy h
  have hrenews := Copying.formula_renews f ⟨r, []⟩
  have hfollows := Copying.formula_follows f hdeclared (Copying.tracks_start r)
  rw [hcopy] at hrenews hfollows
  have hsame : f.AlphaEq [] g := hfollows.same (hf.revisits_eq_false nofun)
  -- new variables have the domains of those they stand for, also in later registries
  have hdomains : ∀ R, r'.Grows R →
      (f.binders ++ []).map R.variableDomain = (g.binders ++ []).map R.variableDomain := by
    intro R hR
    have hdeclarations := congrArg (map (·.domain)) (hrenews.declared fun v hv => hdeclared v (.inr hv))
    rw [map_map, map_map] at hdeclarations
    rw [append_nil, append_nil]
    calc f.binders.map R.variableDomain
      _ = f.binders.map r.variableDomain :=
        map_congr_left fun v hv => (hrenews.adds.toGrows.trans hR).domain (hdeclared v (.inr hv))
      _ = g.binders.map r'.variableDomain := hdeclarations.symm
      _ = g.binders.map R.variableDomain := map_congr_left fun v hv => (hR.domain (hrenews.range hv).2).symm
  refine ⟨hrenews.adds, fun v hv => hrenews.range hv, hrenews.nodup, fun v hv => hsame.freeVariables_eq ▸ hv,
    fun R hR I σ => ?_, fun R hR => ?_⟩
  · refine ((hsame.same_sense (hdomains R hR)).2.1 I σ σ fun x y hxy => ?_).symm
    cases hxy
    rfl
  · refine (hsame.same_sense.{0} (hdomains R hR)).2.2 fun x y hxy => ?_
    cases hxy
    rfl

/-- A copy binds new variables, each once, with the names and domains of those that the
original binds in the same places. It is the original up to bound variables, and it has
the same free variables in the same order, exactly if no variable of the original occurs
after the scope of a quantifier for it other than bound anew. -/
theorem Registry.copy_alphaEq_iff {r r' : Registry} {f g : Formula}
    (hf : ∀ v : Nat, f.Occurs v → v < r.variableTable.size) (h : r.copy f = (g, r')) :
    (∀ w : Nat, w ∈ g.binders → r.variableTable.size ≤ w ∧ w < r'.variableTable.size) ∧
    g.binders.Nodup ∧
    g.binders.map r'.variableDeclaration = f.binders.map r.variableDeclaration ∧
    (f.AlphaEq [] g ↔ f.revisits [] = false) ∧
    (g.freeVariables = f.freeVariables ↔ f.revisits [] = false) := by
  have hg : (Copying.formula f ⟨r, []⟩).1 = g := congrArg Prod.fst h
  have hr' : (Copying.formula f ⟨r, []⟩).2.registry = r' := congrArg Prod.snd h
  have hrenews := Copying.formula_renews f ⟨r, []⟩
  have hfollows := Copying.formula_follows f hf (Copying.tracks_start r)
  rw [hg] at hrenews hfollows
  have hdifferent : f.revisits [] = true → g.freeVariables ≠ f.freeVariables := by
    intro hyes he
    obtain ⟨w, hw, hle, -⟩ := hfollows.escapes hyes
    exact absurd (hf w (.inl (he ▸ hw))) (Nat.not_lt.mpr hle)
  refine ⟨fun w hw => hr' ▸ hrenews.range hw, hrenews.nodup, ?_, ?_, ?_⟩
  · exact hr' ▸ hrenews.declared fun v hv => hf v (.inr hv)
  · refine ⟨fun hsame => ?_, hfollows.same⟩
    exact Bool.eq_false_iff.mpr fun hyes => hdifferent hyes hsame.freeVariables_eq
  · refine ⟨fun he => ?_, fun hno => (hfollows.same hno).freeVariables_eq⟩
    exact Bool.eq_false_iff.mpr fun hyes => hdifferent hyes he

/-- The formula `q(X) and exists X, N (p(X, N) and forall X r(X + N))`, in which a variable
is first free, then bound, and then bound again. -/
def shadowing : Formula :=
  .and [.atom "q" [.variable 0], .quantified .existential [0, 1] (.and
    [.atom "p" [.variable 0, .variable 1],
      .quantified .universal [0] (.atom "r" [.binary .add (.variable 0) (.variable 1)])])]

/-- Its variables. -/
def shadowed : Registry :=
  Registry.empty.addVariables #[⟨"X", some .program⟩, ⟨"N", some .integer⟩]

theorem Registry.copy_alphaEq_iff_shadowing :
    (∀ w : Nat, w ∈ (shadowed.copy shadowing).1.binders → 2 ≤ w ∧ w < 5) ∧
    (shadowed.copy shadowing).1.binders.Nodup ∧
    (shadowed.copy shadowing).1.binders.map (shadowed.copy shadowing).2.variableDeclaration =
      [⟨"X", some .program⟩, ⟨"N", some .integer⟩, ⟨"X", some .program⟩] ∧
    shadowing.AlphaEq [] (shadowed.copy shadowing).1 ∧
    (shadowed.copy shadowing).1.freeVariables = [0] := by
  have hbelow : ∀ v : Nat, v ∈ shadowing.freeVariables ++ shadowing.binders →
      v < shadowed.variableTable.size := by decide
  obtain ⟨hrange, hnodup, hdeclared, hsame, hfree⟩ := Registry.copy_alphaEq_iff
    (fun v hv => hbelow v (mem_append.mpr hv))
    (Prod.eta (shadowed.copy shadowing)).symm
  have hscopes : shadowing.revisits [] = false := by decide
  exact ⟨hrange, hnodup, hdeclared, hsame.mpr hscopes, hfree.mpr hscopes⟩

/-- The formula `exists X p(X) and q(X)`, in which a variable is first bound and then free. -/
def boundThenFree : Formula :=
  .and [.quantified .existential [0] (.atom "p" [.variable 0]), .atom "q" [.variable 0]]

/-- A variable that is free after a scope for it is not kept. -/
theorem Registry.copy_boundThenFree :
    boundThenFree.freeVariables = [0] ∧
    ((Registry.empty.addGenerated (some .program) 1).copy boundThenFree).1.freeVariables = [1] ∧
    ¬ boundThenFree.AlphaEq []
      ((Registry.empty.addGenerated (some .program) 1).copy boundThenFree).1 := by
  have hfree : boundThenFree.freeVariables = [0] := by decide
  have hcopy : ((Registry.empty.addGenerated (some .program) 1).copy
      boundThenFree).1.freeVariables = [1] := by decide
  refine ⟨hfree, hcopy, fun hsame => ?_⟩
  have he := hsame.freeVariables_eq
  rw [hfree, hcopy] at he
  exact absurd he (by decide)

end LogicProgram
