import LogicProgram.Proofs.Phrase.AcceptedTerm
import LogicProgram.Proofs.Phrase.ParsedFormula

/-!
# Phrases of formulas are accepted

Before a word that ends it, every phrase that the language has is read to its end, if
the names of its variables are allowed. The result is what the phrase means with the
variables that are declared as it is read.
-/

namespace LogicProgram

open List
open FormulaPhrase (linkWords chain words level connectiveLevel words_ne_nil quantified join atom)
open Token (mark listed applied joined first isWord Ends Balanced Admissible)
open LogicProgram.Parser (Meets never)
open Token (balanced_nil first_append ends_cons is_eq startsTerm_eq)

variable {rounds size : Nat} {connective : Connective} {x : FormulaPhrase}

namespace TermPhrase

variable {x : TermPhrase}

theorem balanced_words (hx : x.Formed) : Balanced x.words := by
  induction hx with
  | negativeNumeral => exact .cons rfl rfl (.cons rfl rfl balanced_nil)
  | @function name args hname _ ih =>
    rw [words, wordsOfAll_eq_map]
    refine .cons (hname.isWord_eq_false (by decide)) (hname.isWord_eq_false (by decide))
      (Token.balanced_listed fun ws hws => ?_)
    obtain ⟨t, ht, rfl⟩ := mem_map.mp hws
    exact ih t ht
  | group _ ih => exact ih.group
  | absolute _ ih => exact .cons rfl rfl (ih.append (.cons rfl rfl balanced_nil))
  | negative _ _ _ ih => exact .cons rfl rfl ih
  | @binary op _ _ _ _ _ _ _ ihl ihr => exact ihl.append (.cons (by cases op <;> rfl) (by cases op <;> rfl) ihr)
  | _ => exact .cons rfl rfl balanced_nil

/-- What starts a phrase is found to start a term. -/
theorem continuesTerm_afterHead (hx : x.Formed) {rest : List Word}
    (hrest : Token.continuesTerm (first rest) = true)
    (hfirst : isWord (first (x.words ++ rest)) "(" = true ∨ (first (x.words ++ rest)).1 = .identifier) :
    Token.continuesTerm (first (Token.afterHead (x.words ++ rest))) = true := by
  induction hx generalizing rest with
  | @function name args _ hargs _ =>
    rw [words, wordsOfAll_eq_map, Token.afterHead_applied _ (Token.isWord_open_of_continuesTerm hrest)]
    · exact hrest
    · intro ws hws
      obtain ⟨t, ht, rfl⟩ := mem_map.mp hws
      exact balanced_words (hargs t ht)
  | @group inner h _ =>
    have hafter : Token.afterHead ((group inner).words ++ rest) = rest := by
      rw [words, append_assoc]
      exact (balanced_words h).afterGroup rest
    rw [hafter]
    exact hrest
  | @binary op left right hop _ _ _ _ ihl _ =>
    rw [words, append_assoc] at hfirst ⊢
    exact ihl (Token.continuesTerm_operator hop) hfirst
  | _ => rcases hfirst with h | h <;> cases h

end TermPhrase

namespace FormulaPhrase

variable {x : FormulaPhrase}

theorem balanced_words (hx : x.Formed) : Balanced x.words := by
  induction hx with
  | truth directive value =>
    refine Balanced.cons (w := Token.truthWord directive value) ?_ ?_ balanced_nil
    · cases directive <;> cases value <;> rfl
    · cases directive <;> cases value <;> rfl
  | group _ ih => exact ih.group
  | atom hname _ hargs =>
    refine .cons (hname.isWord_eq_false (by decide)) (hname.isWord_eq_false (by decide))
      (Token.balanced_listed fun ws hws => ?_)
    obtain ⟨t, ht, rfl⟩ := mem_map.mp hws
    exact TermPhrase.balanced_words (hargs t ht)
  | @chain left links hleft _ _ hlinks =>
    refine (TermPhrase.balanced_words hleft).append ?_
    clear * - hlinks
    induction links with
    | nil => exact balanced_nil
    | cons link links ih =>
      obtain ⟨h, hlinks⟩ := forall_mem_cons.mp hlinks
      have hop : isWord (mark link.1.text) "(" = false ∧ isWord (mark link.1.text) ")" = false := by
        cases link.1 <;> exact ⟨rfl, rfl⟩
      exact .cons hop.1 hop.2 ((TermPhrase.balanced_words h).append (ih hlinks))
  | not _ _ ih => exact .cons rfl rfl ih
  | @quantified q params body _ _ _ _ _ ih =>
    refine .cons (by cases q <;> rfl) (by cases q <;> rfl)
      (.append (Token.balanced_of_forall fun w hw => ?_) ih)
    obtain ⟨p, -, rfl⟩ := mem_map.mp hw
    exact ⟨rfl, rfl⟩
  | @join connective args _ _ _ ih =>
    rw [words, wordsOfAll_eq_map]
    refine Token.balanced_joined (by cases connective <;> rfl) (by cases connective <;> rfl) fun ws hws => ?_
    obtain ⟨f, hf, rfl⟩ := mem_map.mp hws
    exact ih f hf
  | implies _ _ _ _ ihl ihr | impliedBy _ _ _ _ ihl ihr => exact ihl.append (.cons rfl rfl ihr)

theorem level_le (x : FormulaPhrase) : x.level ≤ 10 := by
  cases x with
  | join connective args => cases connective <;> simp [level, connectiveLevel]
  | _ => simp [level]

/-- A phrase that is neither put together by a connective nor a negation nor quantified. -/
def isPrimary : FormulaPhrase → Bool
  | .truth _ _ | .group _ | .atom _ _ | .chain _ _ => true
  | _ => false

/-- Such a phrase does not start with a negation or a quantifier. -/
theorem isWord_first_eq_false (hx : x.Formed) (hprimary : x.isPrimary = true) (rest : List Word) :
    isWord (first (x.words ++ rest)) "not" = false ∧ isWord (first (x.words ++ rest)) "forall" = false ∧
      isWord (first (x.words ++ rest)) "exists" = false := by
  have hreserved : ∀ {w}, Token.isReserved w = false →
      isWord w "not" = false ∧ isWord w "forall" = false ∧ isWord w "exists" = false := by
    intro w h
    simp only [Token.isReserved, Bool.or_eq_false_iff] at h
    exact ⟨h.1.1.1.1.1, h.1.1.1.1.2, h.1.1.1.2⟩
  cases hx with
  | truth directive value => cases directive <;> cases value <;> exact ⟨rfl, rfl, rfl⟩
  | group _ => exact ⟨rfl, rfl, rfl⟩
  | atom _ h _ => exact hreserved h
  | chain _ h _ _ =>
    rw [words, append_assoc, first_append (TermPhrase.words_ne_nil _)]
    exact hreserved h
  | _ => cases hprimary

variable {y : FormulaPhrase} {xs : List FormulaPhrase} {c c' c'' : FormulaContext} {f g : Formula}
  {fs : List Formula}

theorem level_eq_of_shape (h : y.shape = x.shape) : y.level = x.level := by
  rw [← level_shape y, h, level_shape]

theorem freeNames_shape (hx : x.Formed) : x.shape.freeNames = x.freeNames := by
  induction hx with
  | group _ ih | not _ _ ih => exact ih
  | @quantified q params body _ _ _ _ _ ih =>
    rw [shape, freeNames, freeNames, ih]
    refine filter_congr fun name _ => FormulaContext.isNone_lookup_congr ?_ name
    rw [map_map]
    rfl
  | @join connective args _ _ _ ih =>
    rw [shape, freeNames, freeNames, shapeOfAll_eq_map, freeNamesOfAll_eq_flatMap, freeNamesOfAll_eq_flatMap,
      flatMap_map]
    exact flatMap_congr ih
  | implies _ _ _ _ ihl ihr | impliedBy _ _ _ _ ihl ihr => exact congrArg₂ (· ++ ·) ihl ihr
  | _ => rfl

/-- Between two contexts a phrase is read as a formula, with variables that are declared for its names. -/
def IsRead (x : FormulaPhrase) (c : FormulaContext) (f : Formula) (c' : FormulaContext) : Prop :=
  ∃ y : FormulaPhrase, y.shape = x.shape ∧ y.Spells x.words c f c'

/-- Phrases with a word between them that are read one after the other. -/
def AreRead (w : Word) (xs : List FormulaPhrase) (c : FormulaContext) (fs : List Formula)
    (c' : FormulaContext) : Prop :=
  ∃ ys : List FormulaPhrase, ys.map shape = xs.map shape ∧ SpellsAll ys w (joined w (xs.map words)) c fs c'

namespace IsRead

theorem of_spells (h : x.Spells x.words c f c') : x.IsRead c f c' := ⟨x, rfl, h⟩

theorem collects (h : x.IsRead c f c') (hx : x.Formed) : c.Collects x.freeNames c' := by
  obtain ⟨y, hshape, hy⟩ := h
  rw [← freeNames_shape hx, ← hshape, freeNames_shape hy.formed]
  exact hy.collects

theorem group (h : x.IsRead c f c') : (FormulaPhrase.group x).IsRead c f c' := by
  obtain ⟨y, hshape, hy⟩ := h
  exact ⟨.group y, congrArg FormulaPhrase.group hshape, hy.group⟩

theorem not (h : x.IsRead c f c') (hlevel : x.level ≤ 5) : (FormulaPhrase.not x).IsRead c (.not f) c' := by
  obtain ⟨y, hshape, hy⟩ := h
  exact ⟨.not y, congrArg FormulaPhrase.not hshape, hy.not (level_eq_of_shape hshape ▸ hlevel)⟩

theorem implies (h : x.IsRead c f c') (h' : y.IsRead c' g c'') (hleft : x.level ≤ 7) (hright : y.level ≤ 9) :
    (FormulaPhrase.implies x y).IsRead c (.implies f g) c'' := by
  obtain ⟨z, hshape, hz⟩ := h
  obtain ⟨z', hshape', hz'⟩ := h'
  exact ⟨.implies z z', congrArg₂ FormulaPhrase.implies hshape hshape',
    hz.implies hz' (level_eq_of_shape hshape ▸ hleft) (level_eq_of_shape hshape' ▸ hright)⟩

theorem impliedBy (h : x.IsRead c f c') (h' : y.IsRead c' g c'') (hleft : x.level ≤ 8)
    (hright : y.level ≤ 7) :
    (FormulaPhrase.impliedBy x y).IsRead c (.implies g f) c'' := by
  obtain ⟨z, hshape, hz⟩ := h
  obtain ⟨z', hshape', hz'⟩ := h'
  exact ⟨.impliedBy z z', congrArg₂ FormulaPhrase.impliedBy hshape hshape',
    hz.impliedBy hz' (level_eq_of_shape hshape ▸ hleft) (level_eq_of_shape hshape' ▸ hright)⟩

/-- A quantifier over names that are read before its body. -/
theorem quantified {q : Quantifier} {params scope : Scope} (hscope : scope.Fresh c.registry c'.registry)
    (hnames : scope.map (·.1) = params.map (·.1)) (hc : c.Collects [] c')
    (hx : (quantified q params x).Formed)
    (h : x.IsRead { c' with scopes := scope :: c'.scopes } f c'') :
    (quantified q params x).IsRead c (.quantified q (scope.map (·.2)) f)
      { c'' with scopes := c'.scopes } := by
  obtain ⟨y, hshape, hy⟩ := h
  cases hx with
  | quantified _ hlevel hne hnodup hfirst =>
    have hmap : ∀ {α : Type} (g : Text → α), scope.map (fun p => g p.1) = params.map fun p => g p.1 := by
      intro α g
      simpa [Function.comp_def] using congrArg (List.map g) hnames
    refine ⟨.quantified q scope y, ?_, ?_⟩
    · rw [shape, shape, hshape, hmap (·, 0)]
    · have hquantified := hy.quantified (q := q) hscope hc ?_ (hnames ▸ hnodup)
        (level_eq_of_shape hshape ▸ hlevel) hfirst
      · rwa [hmap (Token.Kind.variable, ·)] at hquantified
      · rintro rfl
        exact hne (map_eq_nil_iff.mp hnames.symm)

end IsRead

namespace AreRead

variable {w : Word}

theorem one (h : x.IsRead c f c') : AreRead w [x] c [f] c' := by
  obtain ⟨y, hshape, hy⟩ := h
  exact ⟨[y], congrArg ([·]) hshape, .one hy⟩

theorem head (h : AreRead w [x] c [f] c') : x.IsRead c f c' := by
  obtain ⟨ys, hshape, hys⟩ := h
  obtain ⟨y, rfl⟩ : ∃ y, ys = [y] := length_eq_one_iff.mp (by simpa using congrArg List.length hshape)
  exact ⟨y, head_eq_of_cons_eq hshape, hys.head⟩

theorem cons (h : x.IsRead c f c') (hxs : AreRead w (y :: xs) c' fs c'') :
    AreRead w (x :: y :: xs) c (f :: fs) c'' := by
  obtain ⟨z, hshape, hz⟩ := h
  obtain ⟨zs, hshapes, hzs⟩ := hxs
  refine ⟨z :: zs, congrArg₂ List.cons hshape hshapes, .cons hz hzs ?_⟩
  rintro rfl
  cases hshapes

theorem length (h : AreRead w xs c fs c') : fs.length = xs.length := by
  obtain ⟨ys, hshape, hys⟩ := h
  simpa [← hys.values] using congrArg List.length hshape

theorem join {connective : Connective} (h : AreRead (Token.connective connective) xs c fs c')
    (hx : (join connective xs).Formed) :
    (join connective xs).IsRead c (.join connective fs) c' := by
  obtain ⟨ys, hshape, hys⟩ := h
  cases hx with
  | join hlength _ hlevel =>
    refine ⟨.join connective ys, ?_, ?_⟩
    · rw [shape, shape, shapeOfAll_eq_map, shapeOfAll_eq_map, hshape]
    · rw [words, wordsOfAll_eq_map]
      refine hys.join ?_ fun y hy => ?_
      · have heq : ys.length = xs.length := by simpa using congrArg List.length hshape
        exact heq ▸ hlength
      · obtain ⟨x, hx, heq⟩ := mem_map.mp (hshape ▸ mem_map_of_mem (f := shape) hy)
        rw [level_eq_of_shape heq.symm]
        exact hlevel x hx

end AreRead

end FormulaPhrase

namespace FormulaParser

variable {c : FormulaContext} {rest : List Word} {n : Nat}

/-- A parser reads the phrases up to a level and some length as what they mean, before what ends them. -/
def AcceptsFormulas (p : FormulaParser Formula) (level follow size : Nat) : Prop :=
  ∀ (x : FormulaPhrase) c rest, x.Formed → Admissible x.words → x.level ≤ level → x.words.length ≤ size →
    Ends follow rest → Consumes p c x.words rest (x.IsRead c)

theorem consumes_links {xs : List (Comparison × TermPhrase)} (hxs : ∀ x ∈ xs, x.2.Formed)
    (hadmissible : Admissible (linkWords xs)) (hn : (linkWords xs).length ≤ n)
    (hrounds : xs.length ≤ rounds) (hrest : Ends 5 rest) (left : Term) :
    Consumes (links n rounds left) c (linkWords xs) rest
      (FormulaPhrase.SpellsLinks xs (linkWords xs) c left) := by
  induction xs generalizing c rounds left with
  | nil =>
    cases rounds with
    | zero => exact .pure ⟨rfl, .nil c left⟩
    | succ rounds => exact (reads_no_comparison hrest).bind (.pure ⟨rfl, .nil c left⟩)
  | cons x xs ih =>
    cases rounds with
    | zero => exact absurd hrounds (Nat.not_succ_le_zero _)
    | succ rounds =>
      obtain ⟨op, t⟩ := x
      obtain ⟨ht, hxs⟩ := forall_mem_cons.mp hxs
      have hwords : linkWords ((op, t) :: xs) =
          mark op.text :: t.words ++ linkWords xs := rfl
      rw [hwords] at hadmissible hn
      rw [cons_append, length_cons, length_append] at hn
      have hnext : Ends 4 (linkWords xs ++ rest) := by
        cases xs with
        | nil => exact hrest.mono (by decide)
        | cons y ys => exact ends_cons (by rw [Token.rank_comparison]; decide)
      have hterm := accepts_term (Nat.le_refl n) t c (linkWords xs ++ rest) ht
        (hadmissible.mono (by simp)) (TermPhrase.level_formed ht).1 (by omega) hnext
      rw [Consumes, hwords, cons_append, cons_append, append_assoc]
      refine (reads_comparison_op op _).bind (.advance (hterm.bind fun right c' ht => ?_))
      exact (ih hxs (hadmissible.mono (by simp)) (by omega) (Nat.le_of_succ_le_succ hrounds) right).bind
        fun fs c'' hfs => .pure ⟨rfl, .cons ht hfs⟩

theorem length_le_linkWords (xs : List (Comparison × TermPhrase)) :
    xs.length ≤ (linkWords xs).length := by
  induction xs with
  | nil => exact Nat.le_refl 0
  | cons x xs ih =>
    rw [linkWords, flatMap_cons, length_append, length_cons, length_cons]
    rw [linkWords] at ih
    omega

/-- A chain of comparisons is consumed. -/
theorem consumes_comparisons {left : TermPhrase} {xs : List (Comparison × TermPhrase)}
    (hx : (chain left xs).Formed) (hadmissible : Admissible (chain left xs).words)
    (hn : (chain left xs).words.length ≤ n) (hrest : Ends 5 rest) :
    Consumes (comparisons n) c (chain left xs).words rest
      ((chain left xs).Spells (chain left xs).words c) := by
  cases hx with
  | chain hleft hreserved hne hxs =>
    rw [words] at hadmissible hn ⊢
    rw [length_append] at hn
    have hcount := length_le_linkWords xs
    have hnext : Ends 4 (linkWords xs ++ rest) := by
      cases xs with
      | nil => exact absurd rfl hne
      | cons x xs => exact ends_cons (by rw [Token.rank_comparison]; decide)
    have hterm := accepts_term (Nat.le_refl n) left c (linkWords xs ++ rest) hleft
      (hadmissible.mono (subset_append_left _ _)) (TermPhrase.level_formed hleft).1 (by omega) hnext
    rw [Consumes, append_assoc]
    refine hterm.bind fun t c' ht => (consumes_links hxs (hadmissible.mono (subset_append_right _ _))
      (by omega) (by omega) hrest t).bind fun fs c'' hfs => ?_
    refine .ite (fun hempty => ?_) fun _ => .pure ⟨rfl, hfs.chain ht hne hreserved⟩
    obtain rfl := isEmpty_iff.mp hempty
    cases xs with
    | nil => exact absurd rfl hne
    | cons x xs => cases hfs.values

theorem consumes_predicate {name : Text} {args : List TermPhrase} (hx : (atom name args).Formed)
    (hadmissible : Admissible (applied name (args.map (·.words))))
    (hn : (applied name (args.map (·.words))).length ≤ n) (hrest : Ends 5 rest) :
    Consumes (predicate n) c (applied name (args.map (·.words))) rest
      ((atom name args).Spells (applied name (args.map (·.words))) c) := by
  cases hx with
  | atom hname hreserved hargs =>
    rw [applied] at hadmissible hn
    rw [length_cons] at hn
    have harguments := consumes_arguments (c := c) (n := n) (accepts_term (Nat.le_refl n)) hargs
      (hadmissible.mono (subset_cons_self _ _)) (by omega) (by omega) (hrest.mono (by decide))
    refine .next fun t ht => harguments.bind fun ts c' hts => (meets_declarePredicate _).bind
      fun _ c'' vs h => .pure ⟨h.1, ?_⟩
    obtain rfl : t.value = name := congrArg Prod.snd ht
    exact .atom hname hreserved (hts.later h.2.1) h.2.2

theorem isTruthValue_of_isReserved {t : Token} (h : Token.isReserved t.word = false) :
    isTruthValue t "true" = false ∧ isTruthValue t "false" = false := by
  simp only [Token.isReserved, Bool.or_eq_false_iff, Bool.and_or_distrib_left] at h
  obtain ⟨⟨⟨-, htrue⟩, hfalse⟩, hdirective⟩ := h
  rw [isTruthValue, isTruthValue, is_eq, is_eq, htrue, hfalse]
  exact hdirective

section Layers

variable {F : FormulaParser Formula} {d : Nat}

theorem consumes_truth (directive value : Bool) :
    Consumes (primary n F) c [Token.truthWord directive value] rest
      fun f c' => f = .boolean value ∧ c' = c := by
  have hdone : Consumes (do Parser.advance; return Formula.boolean value) c
      [Token.truthWord directive value] rest fun f c' => f = .boolean value ∧ c' = c :=
    .advance (.pure ⟨rfl, rfl, rfl⟩)
  refine .peek_cons fun position => .get fun s hs => .ite_neg ?_ ?_
  · cases directive <;> cases value <;> exact Bool.false_ne_true
  · cases value with
    | true =>
      refine .ite_pos ?_ hdone
      cases directive <;> rfl
    | false =>
      refine .ite_neg ?_ (.ite_pos ?_ hdone)
      · cases directive <;> exact Bool.false_ne_true
      · cases directive <;> rfl

/-- Comparisons in a row are not taken for something else. -/
theorem consumes_chain {left : TermPhrase} {links : List (Comparison × TermPhrase)}
    (hx : (chain left links).Formed) (hadmissible : Admissible (chain left links).words)
    (hn : (chain left links).words.length ≤ n) (hrest : Ends 5 rest) :
    Consumes (primary n F) c (chain left links).words rest
      ((chain left links).Spells (chain left links).words c) := by
  have hcomparisons := consumes_comparisons (c := c) hx hadmissible hn hrest
  cases hx with
  | chain hleft hreserved hne hlinks =>
    have hfirst : first ((chain left links).words ++ rest) = first left.words := by
      rw [words, append_assoc, first_append left.words_ne_nil]
    have hcontinues : Token.continuesTerm (first (linkWords links ++ rest)) = true := by
      cases links with
      | nil => exact absurd rfl hne
      | cons link links => exact Token.continuesTerm_comparison link.1
    have hterm : isWord (first left.words) "(" = true ∨ (first left.words).1 = .identifier →
        Token.continuesTerm (first (Token.afterHead ((chain left links).words ++ rest))) = true := by
      rw [← first_append left.words_ne_nil (linkWords links ++ rest), words,
        append_assoc]
      exact TermPhrase.continuesTerm_afterHead hleft hcontinues
    refine .peek fun t ht => .get fun s hs => ?_
    rw [hfirst] at ht
    obtain ⟨htrue, hfalse⟩ := isTruthValue_of_isReserved (ht ▸ hreserved)
    refine .ite_neg (fun hgroup => ?_) (.ite_neg ?_
      (.ite_neg ?_ (.ite_neg (fun hidentifier => ?_) hcomparisons)))
    · rw [startsTerm_eq hs, Bool.and_eq_true, is_eq, ht] at hgroup
      rw [hterm (.inl hgroup.1)] at hgroup
      cases hgroup.2
    · rw [htrue]
      exact Bool.false_ne_true
    · rw [hfalse]
      exact Bool.false_ne_true
    · rw [startsTerm_eq hs, Bool.and_eq_true, beq_iff_eq] at hidentifier
      rw [hterm (.inr (ht ▸ hidentifier.1))] at hidentifier
      cases hidentifier.2

/-- A primary phrase is consumed before what ends it. -/
theorem consumes_primary (hF : AcceptsFormulas F 10 9 d) (hd : d + 1 ≤ n) (hx : x.Formed)
    (hprimary : x.isPrimary = true) (hadmissible : Admissible x.words) (hsize : x.words.length ≤ d + 1)
    (hrest : Ends 5 rest) : Consumes (primary n F) c x.words rest (x.IsRead c) := by
  have hformed := hx
  cases hx with
  | truth directive value =>
    refine (consumes_truth directive value).mono fun f c' h => ?_
    rw [h.1, h.2]
    exact .of_spells (.truth directive value c)
  | @group inner h =>
    have hterm : Token.continuesTerm (first (Token.afterHead
        (mark "(" :: (inner.words ++ mark ")" :: rest)))) = false := by
      have hgroup : Token.afterHead (mark "(" :: (inner.words ++ mark ")" :: rest)) = rest :=
        (FormulaPhrase.balanced_words h).afterGroup rest
      rw [hgroup]
      exact hrest.continuesTerm_eq_false
    have hwords : (FormulaPhrase.group inner).words ++ rest = mark "(" ::
        (inner.words ++ mark ")" :: rest) := by
      simp [words]
    rw [words] at hadmissible hsize
    simp only [cons_append, length_cons, length_append, length_nil] at hsize
    have hinner := hF inner c (mark ")" :: rest) h (hadmissible.mono (by simp)) inner.level_le (by omega)
      (ends_cons (by decide))
    rw [Consumes, hwords]
    refine .peek_cons fun position => .get fun s hs => .ite_pos ?_ (.advance (hinner.bind fun f c' hc =>
      .expect rfl (.pure ⟨rfl, hc.group⟩)))
    rw [startsTerm_eq hs, hterm]
    rfl
  | @atom name args hname hreserved hargs =>
    have hafter : Token.afterHead (applied name (args.map (·.words)) ++ rest) = rest := by
      refine Token.afterHead_applied (fun ws hws => ?_) (hrest.isWord_eq_false (by decide) (by decide))
      obtain ⟨t, ht, rfl⟩ := mem_map.mp hws
      exact TermPhrase.balanced_words (hargs t ht)
    have hpredicate := (consumes_predicate (c := c) hformed hadmissible (Nat.le_trans hsize hd) hrest).mono
      fun _ _ h => FormulaPhrase.IsRead.of_spells h
    refine .peek_cons fun position => .get fun s hs => ?_
    obtain ⟨htrue, hfalse⟩ := isTruthValue_of_isReserved (t := ⟨.identifier, name, position⟩) hreserved
    have hopen : isWord (.identifier, name) "(" = false := hname.isWord_eq_false (by decide)
    have hterm : startsTerm s = false := by
      rw [startsTerm_eq hs]
      exact (congrArg (fun ws => Token.continuesTerm (first ws)) hafter).trans hrest.continuesTerm_eq_false
    refine .ite_neg ?_ (.ite_neg ?_ (.ite_neg ?_ (.ite_pos ?_ hpredicate)))
    · rw [is_eq, Token.word, hopen]
      exact Bool.false_ne_true
    · rw [htrue]
      exact Bool.false_ne_true
    · rw [hfalse]
      exact Bool.false_ne_true
    · rw [hterm]
      rfl
  | chain =>
    exact (consumes_chain hformed hadmissible (Nat.le_trans hsize hd) hrest).mono fun _ _ h => .of_spells h
  | _ => cases hprimary

theorem meets_parameters (scope : Scope) {names : List Text} (hnames : (scope.map (·.1) ++ names).Nodup)
    (hadmissible : ∀ name ∈ names, ∃ domain, Domain.ofVariableName name = .ok domain)
    (hrounds : names.length ≤ rounds) (hrest : (first rest).1 ≠ .variable) :
    Meets (parameters rounds scope) c (names.map (fun name => (.variable, name)) ++ rest) never
      fun scope' c' vs => vs = rest ∧ ∃ more, scope' = scope ++ more ∧ more.map (·.1) = names ∧
        more.Fresh c.registry c'.registry ∧ c.Collects [] c' := by
  induction names generalizing scope c rounds with
  | nil =>
    have hdone : Meets (pure scope) c rest never
        fun scope' c' vs => vs = rest ∧ ∃ more, scope' = scope ++ more ∧
        more.map (·.1) = [] ∧ more.Fresh c.registry c'.registry ∧ c.Collects [] c' :=
      .pure ⟨rfl, [], (append_nil _).symm, rfl, .nil _ _, .refl c⟩
    cases rounds with
    | zero => exact hdone
    | succ rounds =>
      refine .peek fun t ht => .ite_neg (fun hkind => hrest ?_) hdone
      exact (congrArg Prod.fst ht).symm.trans (beq_iff_eq.mp hkind)
  | cons name names ih =>
    cases rounds with
    | zero => exact absurd hrounds (Nat.not_succ_le_zero _)
    | succ rounds =>
      obtain ⟨⟨domain, hdomain⟩, hadmissible⟩ := forall_mem_cons.mp hadmissible
      have hnew : name ∉ scope.map (·.1) := fun hmem =>
        (nodup_append.mp hnames).2.2 name hmem name mem_cons_self rfl
      refine .peek_cons fun position => .ite_pos rfl (.advance (.ite_neg (fun hknown => ?_)
        ((meets_newVariable fun e he => ?_).bind fun v c' vs h => ?_)))
      · exact hnew (FormulaContext.isSome_lookup.mp hknown)
      · rw [hdomain] at he
        cases he
      · obtain ⟨rfl, hdeclares, hv, hcollects, -⟩ := h
        refine (ih (scope ++ [(name, v)]) (by simpa using hnames) hadmissible
          (Nat.le_of_succ_le_succ hrounds)).mono fun scope' c'' vs h => ?_
        obtain ⟨rfl, more, rfl, rfl, hfresh, hcollects'⟩ := h
        exact ⟨rfl, (name, v) :: more, by simp, rfl,
          (Scope.Fresh.one hdeclares hv).append hcollects.grows hfresh
          hcollects'.grows, hcollects.trans hcollects'⟩

/-- Without a negation or a quantifier there is a primary formula. -/
theorem meets_unary_of_primary {E : Error → Prop}
    {Q : Formula → FormulaContext → List Word → Prop} {ws : List Word}
    (hnot : isWord (first ws) "not" = false) (hforall : isWord (first ws) "forall" = false)
    (hexists : isWord (first ws) "exists" = false) (hp : Meets (primary n F) c ws E Q) (rounds : Nat) :
    Meets (unary n F rounds) c ws E Q := by
  cases rounds with
  | zero => exact hp
  | succ rounds =>
    refine .accept_not hnot (.peek fun t ht => ?_)
    have hnone : quantifier? t = none := by
      rw [quantifier?, is_eq, is_eq, ht, hforall, hexists]
      rfl
    dsimp only
    rwa [hnone]

/-- Negations and quantifiers before a primary phrase. -/
theorem accepts_unary (hF : AcceptsFormulas F 10 9 d) (hd : d + 1 ≤ n) (hrounds : d + 1 ≤ rounds) :
    AcceptsFormulas (unary n F rounds) 5 5 (d + 1) := by
  intro x c rest hx hadmissible hlevel hsize hrest
  have hlength := Nat.le_trans hsize hrounds
  clear hrounds
  induction rounds generalizing x c with
  | zero => exact absurd (length_eq_zero_iff.mp (Nat.le_zero.mp hlength)) (words_ne_nil hx)
  | succ rounds ih =>
    by_cases hprimary : x.isPrimary = true
    · obtain ⟨hnot, hforall, hexists⟩ := FormulaPhrase.isWord_first_eq_false hx hprimary rest
      exact meets_unary_of_primary hnot hforall hexists
        (consumes_primary hF hd hx hprimary hadmissible hsize hrest) _
    have hformed := hx
    cases hx with
    | @not inner h hinner =>
      rw [words] at hadmissible hsize hlength
      rw [length_cons] at hsize hlength
      exact .accept_cons rfl ((ih inner c h (hadmissible.mono (subset_cons_self _ _)) hinner (by omega)
        (by omega)).bind fun f c' hc => .pure ⟨rfl, hc.not hinner⟩)
    | @quantified q params body h hbody hne hnames hfirst =>
      have hwords : (quantified q params body).words ++ rest = Token.quantifier q ::
          ((params.map (·.1)).map (fun name => (.variable, name)) ++ (body.words ++ rest)) := by
        simp [words]
      have hcount : (quantified q params body).words.length =
          params.length + body.words.length + 1 := by
        simp [words]
      rw [hcount] at hsize hlength
      have hbodyAdmissible : Admissible body.words := hadmissible.mono (by simp [words])
      have hadmitted : ∀ name ∈ params.map (·.1), ∃ domain, Domain.ofVariableName name = .ok domain := by
        intro name hname
        obtain ⟨p, hp, rfl⟩ := mem_map.mp hname
        refine hadmissible.exists_domain (mem_cons_of_mem _ (mem_append_left _ ?_))
        exact mem_map.mpr ⟨p, hp, rfl⟩
      have hrounds : (params.map (·.1)).length ≤ n := by
        rw [length_map]
        omega
      have hnext : (first (body.words ++ rest)).1 ≠ .variable := by
        rwa [first_append (words_ne_nil h)]
      have hparameters := meets_parameters (c := c) [] (by simpa using hnames) hadmitted hrounds hnext
      rw [Consumes, hwords]
      refine .accept_not (by cases q <;> rfl) (.peek_cons fun position => ?_)
      have hquantifier : quantifier? ⟨(Token.quantifier q).1, (Token.quantifier q).2, position⟩ = some q := by
        cases q <;> rfl
      dsimp only
      rw [hquantifier]
      refine .advance (hparameters.bind fun scope c' vs hscope => ?_)
      obtain ⟨rfl, _, rfl, hscope, hfresh, hc⟩ := hscope
      have hinner : Meets (inScope scope (unary n F rounds)) c' (body.words ++ rest) never fun f c'' vs =>
          vs = rest ∧ (quantified q params body).IsRead c (.quantified q (scope.map (·.2)) f) c'' :=
        meets_inScope ((ih body { c' with scopes := scope :: c'.scopes } h hbodyAdmissible hbody (by omega)
          (by omega)).mono fun f c'' hf => .quantified hfresh hscope hc hformed hf)
      refine .ite_neg (fun hempty => hne ?_) (hinner.bind fun f c'' vs hf => .pure hf)
      rw [isEmpty_iff.mp hempty] at hscope
      exact map_eq_nil_iff.mp hscope.symm
    | implies | impliedBy => exact absurd hlevel (by simp [level])
    | @join connective => cases connective <;> exact absurd hlevel (by simp [level, connectiveLevel])
    | _ => exact absurd rfl hprimary

/-- A phrase of the level of a connective is joined by it. -/
theorem exists_join
    (h : x.level = connectiveLevel connective) : ∃ args, x = .join connective args := by
  have hinjective : ∀ c c' : Connective,
      connectiveLevel c = connectiveLevel c' → c = c' := by
    intro c c'
    cases c <;> cases c' <;> decide
  cases x with
  | join c args => exact ⟨args, congrArg (join · args) (hinjective c connective h)⟩
  | _ => cases connective <;> cases h

/-- What the word of a connective has to do with the members that it joins: it ends them, and stands for
nothing weaker. -/
structure Joins (connective : Connective) (text : Text) (follow : Nat) : Prop where
  word : isWord (Token.connective connective) text = true
  ends : Token.rank (Token.connective connective) = follow + 1
  rank : Token.rank (mark text) ≤ follow + 1 ∧ Token.rank (.identifier, text) ≤ follow + 1

theorem joins_and : Joins .and "and" 5 := ⟨rfl, rfl, by decide⟩

theorem joins_or : Joins .or "or" 6 := ⟨rfl, rfl, by decide⟩

theorem joins_iff : Joins .iff "<->" 8 := ⟨rfl, rfl, by decide⟩

theorem joinAll_of_two {fs : List Formula} (h : 2 ≤ fs.length) :
    joinAll connective fs = .join connective fs := by
  cases fs with
  | nil => cases h
  | cons f fs =>
    cases fs with
    | nil => exact absurd h (Nat.not_succ_le_self 1)
    | cons g fs => rfl

/-- Several phrases joined by a connective, or one that binds more tightly. -/
theorem accepts_joined {p : FormulaParser Formula} {text : Text}
    {low follow : Nat} (hjoins : Joins connective text follow)
    (hlow : connectiveLevel connective = low + 1) (hp : AcceptsFormulas p low follow size)
    (hn : size ≤ n) : AcceptsFormulas (joinAll connective <$> Parser.oneOrMore p (Parser.accept text) n)
      (low + 1) (follow + 1) size := by
  intro x c rest hx hadmissible hlevel hsize hrest
  have hend : isWord (first rest) text = false := hrest.isWord_eq_false hjoins.rank.1 hjoins.rank.2
  have hmembers : ∀ xs : List FormulaPhrase, xs ≠ [] → (∀ x ∈ xs, x.Formed) → (∀ x ∈ xs, x.level ≤ low) →
      Admissible (joined (Token.connective connective) (xs.map (·.words))) →
      (joined (Token.connective connective) (xs.map (·.words))).length ≤ size →
      Consumes (Parser.oneOrMore p (Parser.accept text) n) c
        (joined (Token.connective connective) (xs.map (·.words))) rest
        (FormulaPhrase.AreRead (Token.connective connective) xs c) := by
    intro xs hne hxs hlevels hadmissible hsize
    have hcount := Token.length_le_length_joined (w := Token.connective connective) (xs.map (·.words))
    rw [length_map] at hcount
    refine consumes_oneOrMore (E := Ends follow) (R := FormulaPhrase.AreRead (Token.connective connective))
      (fun x hx c rest hrest => ?_) (fun h h' => .cons h.head h') hjoins.word
      (fun _ => ends_cons (by rw [hjoins.ends]; omega)) (hrest.mono (Nat.le_succ _)) hend hne (by omega)
    have hmem : x.words ∈ xs.map (·.words) := mem_map_of_mem hx
    exact (hp x c rest (hxs x hx) (hadmissible.mono (Token.subset_joined hmem)) (hlevels x hx)
      (Nat.le_trans (Token.length_le_joined hmem) hsize) hrest).mono fun f c' h => .one h
  by_cases hmember : x.level ≤ low
  · refine Meets.map (hmembers [x] (cons_ne_nil _ _) (forall_mem_singleton.mpr hx)
      (forall_mem_singleton.mpr hmember) hadmissible hsize) fun fs c' vs h => ⟨h.1, ?_⟩
    obtain ⟨f, rfl⟩ : ∃ f, fs = [f] := length_eq_one_iff.mp h.2.length
    exact h.2.head
  · have htop : x.level = connectiveLevel connective := by omega
    obtain ⟨args, rfl⟩ := exists_join htop
    have hformed := hx
    cases hx with
    | join hlength hargs hlevels =>
      rw [words, FormulaPhrase.wordsOfAll_eq_map] at hadmissible hsize ⊢
      refine Meets.map (hmembers args ?_ hargs (fun x hx => ?_) hadmissible hsize) fun fs c' vs h => ⟨h.1, ?_⟩
      · rintro rfl
        cases hlength
      · have hlevel := hlevels x hx
        omega
      · rw [joinAll_of_two (h.2.length ▸ hlength)]
        exact h.2.join hformed

/-- Arrows to the left are read along the left spine. -/
theorem continues_arrows (hp : AcceptsFormulas (disjunction n F) 7 7 size) (hn : size ≤ n)
    (hx : x.Formed) (hadmissible : Admissible x.words) (hlevel : x.level ≤ 8)
    (hsize : x.words.length ≤ size) :
    Continues (implication n F (rounds + 1)) (Parser.chainLeft (disjunction n F) acceptReverseArrow)
      (fun rest => Ends 7 rest ∧ isWord (first rest) "->" = false) n x.words x.IsRead := by
  have hformed := hx
  induction hx with
  | @impliedBy left right _ hr hleft hright ihl =>
    rw [words] at hadmissible hsize
    rw [length_append, length_cons] at hsize
    have hspine := ihl (hadmissible.mono (subset_append_left _ _)) hleft (by omega) (by assumption)
    refine hspine.step (by omega) (fun _ => ⟨ends_cons (by decide), rfl⟩)
      (fun c rest => .accept_cons rfl .done) (fun c rest hrest => ?_)
      fun hf hg => hf.impliedBy hg hleft hright
    refine hp right c rest hr (hadmissible.mono fun w hw => ?_) hright (by omega) hrest.1
    exact mem_append_right _ (mem_cons_of_mem _ hw)
  | implies => exact absurd hlevel (by simp [level])
  | @join connective args =>
    have hseven : (join connective args).level ≤ 7 := by
      cases connective with
      | iff => exact absurd hlevel (by simp [level, connectiveLevel])
      | _ => simp [level, connectiveLevel]
    exact .start (words_ne_nil hformed) fun c rest Q hrest hgo =>
      (hp _ c rest hformed hadmissible hseven hsize hrest.1).bind
        fun f c' hc => .accept_not hrest.2 (hgo f c' hc)
  | _ =>
    exact .start (words_ne_nil hformed) fun c rest Q hrest hgo =>
      (hp _ c rest hformed hadmissible (by simp [level]) hsize hrest.1).bind fun f c' hc =>
        .accept_not hrest.2 (hgo f c' hc)

/-- Implications group to the right, reversed ones to the left. -/
theorem accepts_implication (hp : AcceptsFormulas (disjunction n F) 7 7 size)
    (hn : size ≤ n) (hrounds : size ≤ rounds) : AcceptsFormulas (implication n F rounds) 9 8 size := by
  intro x c rest hx hadmissible hlevel hsize hrest
  have hlength := Nat.le_trans hsize hrounds
  clear hrounds
  induction rounds generalizing x c with
  | zero => exact absurd (length_eq_zero_iff.mp (Nat.le_zero.mp hlength)) (words_ne_nil hx)
  | succ rounds ih =>
    by_cases hlow : x.level ≤ 8
    · refine (continues_arrows hp hn hx hadmissible hlow hsize).consumes ⟨hrest.mono (by decide), ?_⟩
        fun c => .accept_not ?_ .done
      · exact hrest.isWord_eq_false (by decide) (by decide)
      · exact hrest.isWord_eq_false (by decide) (by decide)
    cases hx with
    | @implies left right hl hr hleft hright =>
      rw [words] at hadmissible hsize hlength
      rw [length_append, length_cons] at hsize hlength
      have hfirst := hp left c (mark "->" :: (right.words ++ rest)) hl
        (hadmissible.mono (subset_append_left _ _)) hleft (by omega) (ends_cons (by decide))
      rw [Consumes, words, append_assoc, cons_append]
      refine hfirst.bind fun f c' hc => .accept_cons rfl
        ((ih right c' hr (hadmissible.mono fun w hw => ?_) hright
        (by omega) (by omega)).bind fun g c'' hc' => .pure ⟨rfl, hc.implies hc' hleft hright⟩)
      exact mem_append_right _ (mem_cons_of_mem _ hw)
    | @join connective args =>
      cases connective <;> simp [level, connectiveLevel] at hlow hlevel
    | _ => exact absurd (by simp [level]) hlow

end Layers

/-- Phrases of formulas are accepted, before everything that ends a formula. -/
theorem accepts_formula {d : Nat} (hd : d ≤ n) : AcceptsFormulas (formula n d) 10 9 d := by
  induction d with
  | zero =>
    intro x c rest hx hadmissible hlevel hsize
    exact absurd (length_eq_zero_iff.mp (Nat.le_zero.mp hsize)) (words_ne_nil hx)
  | succ d ih =>
    have hunary : AcceptsFormulas (unary n (formula n d) n) 5 5 (d + 1) :=
      accepts_unary (ih (Nat.le_of_succ_le hd)) hd hd
    have hdisjunction : AcceptsFormulas (disjunction n (formula n d)) 7 7 (d + 1) :=
      accepts_joined joins_or rfl (accepts_joined joins_and rfl hunary hd) hd
    exact accepts_joined joins_iff rfl (accepts_implication hdisjunction hd hd) hd

end FormulaParser

end LogicProgram
