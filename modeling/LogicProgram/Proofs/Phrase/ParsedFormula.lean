import LogicProgram.Proofs.Phrase.ParsedTerm

/-!
# Formulas that are read are phrases

The parser of formulas passes the words of a phrase and gives what it means. The number
of rounds has to be as large as the number of words, since a quantifier takes all names
that follow it, and a keyword is taken for one, only while there are rounds left.
-/

namespace LogicProgram

open List
open Token (mark listed applied joined first isWord Input spelled)
open LogicProgram.Parser (Meets foresee always)

variable {t : Token} {f : Formula} {rounds : Nat → Nat} {c' : FormulaContext}

/-- Names and variables that are declared for them between two registries. -/
structure Scope.Fresh (scope : Scope) (r r' : Registry) : Prop where
  declared : ∀ p ∈ scope, r'.Declares p
  distinct : (scope.map (·.2)).Nodup
  new : ∀ v ∈ scope.map (·.2), r.variableTable.size ≤ v

namespace Scope.Fresh

variable {scope scope' : Scope} {r r' r'' : Registry}

theorem nil (r r' : Registry) : Fresh [] r r' := by constructor <;> simp

theorem one {name : Text} {v : Variable} (h : r'.Declares (name, v)) (hv : r.variableTable.size ≤ v) :
    Fresh [(name, v)] r r' := by constructor <;> simp [h, hv]

theorem append (h : scope.Fresh r r') (hr : r.Grows r') (h' : scope'.Fresh r' r'') (hr' : r'.Grows r'') :
    (scope ++ scope').Fresh r r'' where
  declared := forall_mem_append.mpr ⟨fun p hp => (h.declared p hp).grows hr', h'.declared⟩
  distinct := by
    rw [map_append]
    refine nodup_append.mpr ⟨h.distinct, h'.distinct, fun v hv w hw heq => ?_⟩
    obtain ⟨p, hp, rfl⟩ := mem_map.mp hv
    obtain ⟨_, -, hlt, -⟩ := h.declared p hp
    exact absurd (h'.new w hw) (Nat.not_le.mpr (heq ▸ hlt))
  new := by
    rw [map_append]
    exact forall_mem_append.mpr ⟨h.new, fun v hv => Nat.le_trans hr.size (h'.new v hv)⟩

/-- The variables have domains. -/
theorem isSome_variableDomain (h : scope.Fresh r r') :
    ∀ v ∈ scope.map (·.2), (r'.variableDomain v).isSome := by
  intro v hv
  obtain ⟨p, hp, rfl⟩ := mem_map.mp hv
  obtain ⟨domain, -, -, hdeclaration⟩ := h.declared p hp
  rw [Registry.variableDomain, hdeclaration]
  rfl

end Scope.Fresh

namespace Formula

/-- What holds of every part of a formula that is read. -/
def ParsedPart (r : Registry) : Formula → Prop
  | .compare _ left right =>
    (∀ u ∈ left.subterms, u.ParsedPart r) ∧ ∀ u ∈ right.subterms, u.ParsedPart r
  | .atom name args => Token.IsIdentifier name ∧ (r.predicate? ⟨name, args.length⟩).isSome ∧
    ∀ t ∈ args, ∀ u ∈ t.subterms, u.ParsedPart r
  | .join _ args => 2 ≤ args.length
  | .quantified _ params _ => params ≠ [] ∧ params.Nodup ∧ ∀ v ∈ params, (r.variableDomain v).isSome
  | .boolean _ | .not _ | .implies _ _ => True

theorem ParsedPart.later {c : FormulaContext} {names : List Text} (h : f.ParsedPart c.registry)
    (hc : c.Collects names c') : f.ParsedPart c'.registry := by
  cases f with
  | compare op left right => exact ⟨fun u hu => (h.1 u hu).later hc, fun u hu => (h.2 u hu).later hc⟩
  | atom name args =>
    refine ⟨h.1, ?_, fun t ht u hu => (h.2.2 t ht u hu).later hc⟩
    exact Registry.isSome_predicate?.mpr (hc.grows.symbols (Registry.isSome_predicate?.mp h.2.1))
  | quantified q params body =>
    refine ⟨h.1, h.2.1, fun v hv => ?_⟩
    obtain ⟨domain, hdomain⟩ := Option.isSome_iff_exists.mp (h.2.2 v hv)
    rw [hc.grows.domain (Registry.lt_size_of_variableDomain hdomain), hdomain]
    rfl
  | _ => exact h

/-- All parts of a formula are as they are read. -/
def Parsed (r : Registry) (f : Formula) : Prop := ∀ g ∈ f.subformulas, g.ParsedPart r

theorem Parsed.later {c : FormulaContext} {names : List Text} (h : f.Parsed c.registry)
    (hc : c.Collects names c') : f.Parsed c'.registry := fun g hg => (h g hg).later hc

theorem Parsed.joinAll {r : Registry} {connective : Connective} {fs : List Formula} (h : ∀ f ∈ fs, f.Parsed r)
    (hne : fs ≠ []) : (FormulaParser.joinAll connective fs).Parsed r := by
  cases fs with
  | nil => exact absurd rfl hne
  | cons f fs =>
    cases fs with
    | nil => exact h f mem_cons_self
    | cons g fs => exact forall_subformulas_join.mpr ⟨Nat.le_add_left 2 fs.length, h⟩

end Formula

namespace FormulaPhrase

/-- A phrase has the words `ws`, and between two contexts it means a formula. -/
structure Spells (x : FormulaPhrase) (ws : List Word) (c : FormulaContext) (f : Formula)
    (c' : FormulaContext) : Prop where
  formed : x.Formed
  words : x.words = ws
  collects : c.Collects x.freeNames c'
  fresh : x.params.Fresh c.registry c'.registry
  value : x.formula c'.env = f
  parsed : f.Parsed c'.registry

/-- Phrases that are read one after the other. -/
structure SpellsAll (xs : List FormulaPhrase) (w : Word) (ws : List Word) (c : FormulaContext)
    (fs : List Formula) (c' : FormulaContext) : Prop where
  formed : ∀ x ∈ xs, x.Formed
  words : joined w (xs.map (·.words)) = ws
  collects : c.Collects (xs.flatMap (·.freeNames)) c'
  fresh : Scope.Fresh (xs.flatMap (·.params)) c.registry c'.registry
  values : xs.map (·.formula c'.env) = fs
  parsed : ∀ f ∈ fs, f.Parsed c'.registry

variable {x y : FormulaPhrase} {xs : List FormulaPhrase} {c c' c'' : FormulaContext} {w : Word}
  {ws vs : List Word} {f g : Formula} {fs : List Formula} {names : List Text}

namespace Spells

theorem formula_eq (h : x.Spells ws c f c') (h' : c'.Collects names c'') : x.formula c''.env = f := by
  rw [← h.value]
  exact (formula_congr h.formed (h.collects.find?_env_eq h')).symm

theorem truth (directive value : Bool) (c : FormulaContext) :
    (FormulaPhrase.truth directive value).Spells [Token.truthWord directive value] c (.boolean value) c :=
  ⟨.truth directive value, rfl, .refl c, .nil _ _, rfl, forall_mem_singleton.mpr trivial⟩

theorem atom {name : Text} {args : List TermPhrase} {ts : List Term} (hname : Token.IsIdentifier name)
    (hreserved : Token.isReserved (.identifier, name) = false) (h : TermPhrase.SpellsAll args ws c ts c')
    (hdeclared : (c'.registry.predicate? ⟨name, ts.length⟩).isSome) :
    (FormulaPhrase.atom name args).Spells (applied name (args.map (·.words))) c (.atom name ts) c' where
  formed := .atom hname hreserved h.formed
  words := rfl
  collects := h.collects
  fresh := .nil _ _
  value := by rw [formula, h.values]
  parsed := forall_mem_singleton.mpr ⟨hname, hdeclared, h.parts⟩

theorem group (h : x.Spells ws c f c') :
    (FormulaPhrase.group x).Spells (mark "(" :: ws ++ [mark ")"]) c f c' :=
  { h with formed := .group h.formed, words := by rw [FormulaPhrase.words, h.words] }

theorem not (h : x.Spells ws c f c') (hlevel : x.level ≤ 5) :
    (FormulaPhrase.not x).Spells ((.identifier, "not") :: ws) c (.not f) c' where
  formed := .not h.formed hlevel
  words := by rw [FormulaPhrase.words, h.words]
  collects := h.collects
  fresh := h.fresh
  value := congrArg _ h.value
  parsed := Formula.forall_subformulas_not.mpr ⟨trivial, h.parsed⟩

theorem implies (h : x.Spells ws c f c') (h' : y.Spells vs c' g c'') (hleft : x.level ≤ 7)
    (hright : y.level ≤ 9) :
    (FormulaPhrase.implies x y).Spells (ws ++ mark "->" :: vs) c (.implies f g) c'' where
  formed := .implies h.formed h'.formed hleft hright
  words := by rw [FormulaPhrase.words, h.words, h'.words]
  collects := h.collects.trans h'.collects
  fresh := h.fresh.append h.collects.grows h'.fresh h'.collects.grows
  value := by rw [formula, h.formula_eq h'.collects, h'.value]
  parsed := Formula.forall_subformulas_implies.mpr ⟨trivial, h.parsed.later h'.collects, h'.parsed⟩

theorem impliedBy (h : x.Spells ws c f c') (h' : y.Spells vs c' g c'') (hleft : x.level ≤ 8)
    (hright : y.level ≤ 7) :
    (FormulaPhrase.impliedBy x y).Spells (ws ++ mark "<-" :: vs) c (.implies g f) c'' where
  formed := .impliedBy h.formed h'.formed hleft hright
  words := by rw [FormulaPhrase.words, h.words, h'.words]
  collects := h.collects.trans h'.collects
  fresh := h.fresh.append h.collects.grows h'.fresh h'.collects.grows
  value := by rw [formula, h.formula_eq h'.collects, h'.value]
  parsed := Formula.forall_subformulas_implies.mpr ⟨trivial, h'.parsed, h.parsed.later h'.collects⟩

/-- A quantifier over names that are read before its body. -/
theorem quantified {q : Quantifier} {scope : Scope} (hscope : scope.Fresh c.registry c'.registry)
    (hc : c.Collects [] c') (hne : scope ≠ []) (hnames : (scope.map (·.1)).Nodup)
    (h : x.Spells ws { c' with scopes := scope :: c'.scopes } f c'') (hlevel : x.level ≤ 5)
    (hfirst : (first ws).1 ≠ .variable) :
    (FormulaPhrase.quantified q scope x).Spells
      (Token.quantifier q :: (scope.map fun p => (.variable, p.1)) ++ ws) c
      (.quantified q (scope.map (·.2)) f) { c'' with scopes := c'.scopes } where
  formed := .quantified h.formed hlevel hne hnames (h.words ▸ hfirst)
  words := by rw [FormulaPhrase.words, h.words]
  collects := hc.trans h.collects.leave
  fresh := hscope.append hc.grows h.fresh h.collects.grows
  value := by
    have henv : c''.env = scope :: FormulaContext.env { c'' with scopes := c'.scopes } := by
      rw [FormulaContext.env, h.collects.scopes]
      rfl
    rw [formula, ← henv, h.value]
  parsed := by
    refine Formula.forall_subformulas_quantified.mpr ⟨?_, h.parsed⟩
    have hlater := hscope.append hc.grows (.nil _ _) h.collects.grows
    rw [append_nil] at hlater
    exact ⟨by simpa using hne, hlater.distinct, hlater.isSome_variableDomain⟩

end Spells

namespace SpellsAll

theorem one (h : x.Spells ws c f c') : SpellsAll [x] w ws c [f] c' where
  formed := forall_mem_singleton.mpr h.formed
  words := h.words
  collects := by simpa using h.collects
  fresh := by simpa using h.fresh
  values := by simpa using h.value
  parsed := forall_mem_singleton.mpr h.parsed

/-- A single phrase. -/
theorem head (h : SpellsAll [x] w ws c [f] c') : x.Spells ws c f c' where
  formed := h.formed x mem_cons_self
  words := h.words
  collects := by simpa using h.collects
  fresh := by simpa using h.fresh
  value := by simpa using h.values
  parsed := h.parsed f mem_cons_self

theorem cons (h : x.Spells ws c f c') (hxs : SpellsAll xs w vs c' fs c'') (hne : xs ≠ []) :
    SpellsAll (x :: xs) w (ws ++ w :: vs) c (f :: fs) c'' where
  formed := forall_mem_cons.mpr ⟨h.formed, hxs.formed⟩
  words := by
    cases xs with
    | nil => exact absurd rfl hne
    | cons y ys => rw [← h.words, ← hxs.words, map_cons, map_cons, joined]
  collects := h.collects.trans hxs.collects
  fresh := h.fresh.append h.collects.grows hxs.fresh hxs.collects.grows
  values := by rw [map_cons, h.formula_eq hxs.collects, hxs.values]
  parsed := forall_mem_cons.mpr ⟨h.parsed.later hxs.collects, hxs.parsed⟩

/-- Phrases with a connective between them. -/
theorem join {connective : Connective} (h : SpellsAll xs (Token.connective connective) ws c fs c')
    (hlength : 2 ≤ xs.length) (hlevel : ∀ x ∈ xs, x.level < connectiveLevel connective) :
    (FormulaPhrase.join connective xs).Spells ws c (.join connective fs) c' where
  formed := .join hlength h.formed hlevel
  words := by rw [FormulaPhrase.words, wordsOfAll_eq_map, h.words]
  collects := by
    rw [freeNames, freeNamesOfAll_eq_flatMap]
    exact h.collects
  fresh := by
    rw [params, paramsOfAll_eq_flatMap]
    exact h.fresh
  value := by rw [formula, formulaOfAll_eq_map, h.values]
  parsed := by
    refine Formula.forall_subformulas_join.mpr ⟨?_, h.parsed⟩
    rw [Formula.ParsedPart, ← h.values, length_map]
    exact hlength

end SpellsAll

theorem words_ne_nil (h : x.Formed) : x.words ≠ [] := by
  cases h with
  | chain => exact append_ne_nil_of_left_ne_nil (TermPhrase.words_ne_nil _) _
  | @join connective args hlength =>
    cases args with
    | nil => exact absurd hlength (by decide)
    | cons a args =>
      cases args with
      | nil => exact absurd hlength (by simp)
      | cons b args => exact append_ne_nil_of_right_ne_nil _ (cons_ne_nil _ _)
  | implies | impliedBy => exact append_ne_nil_of_right_ne_nil _ (cons_ne_nil _ _)
  | _ => exact cons_ne_nil _ _

/-- Comparisons that are read after a term. -/
structure SpellsLinks (xs : List (Comparison × TermPhrase)) (ws : List Word) (c : FormulaContext)
    (left : Term) (fs : List Formula) (c' : FormulaContext) : Prop where
  formed : ∀ x ∈ xs, x.2.Formed
  words : linkWords xs = ws
  collects : c.Collects (xs.flatMap (·.2.names)) c'
  values : comparisons left (xs.map fun x => (x.1, x.2.term c'.env)) = fs
  /-- Their symbols are declared if those of the first term are. -/
  parsed : (∀ u ∈ left.subterms, u.ParsedPart c.registry) → ∀ f ∈ fs, f.Parsed c'.registry

namespace SpellsLinks

variable {left right : Term} {op : Comparison} {t : TermPhrase} {links : List (Comparison × TermPhrase)}

theorem nil (c : FormulaContext) (left : Term) : SpellsLinks [] [] c left [] c :=
  ⟨nofun, rfl, .refl c, rfl, nofun⟩

theorem cons (h : t.Spells ws c right c') (hlinks : SpellsLinks links vs c' right fs c'') :
    SpellsLinks ((op, t) :: links) (mark op.text :: ws ++ vs) c left (.compare op left right :: fs) c'' where
  formed := forall_mem_cons.mpr ⟨h.formed, hlinks.formed⟩
  words := by rw [linkWords, flatMap_cons, h.words, ← linkWords, hlinks.words]
  collects := h.collects.trans hlinks.collects
  values := by rw [map_cons, comparisons, h.term_eq hlinks.collects, hlinks.values]
  parsed := fun hleft => forall_mem_cons.mpr ⟨forall_mem_singleton.mpr
    ⟨fun u hu => (hleft u hu).later (h.collects.trans hlinks.collects),
      fun u hu => (h.parts u hu).later hlinks.collects⟩, hlinks.parsed h.parts⟩

/-- Comparisons in a row. -/
theorem chain (h : t.Spells ws c left c') (hlinks : SpellsLinks links vs c' left fs c'') (hne : links ≠ [])
    (hreserved : Token.isReserved (first ws) = false) :
    (FormulaPhrase.chain t links).Spells (ws ++ vs) c (FormulaParser.joinAll .and fs) c'' where
  formed := .chain h.formed (h.words ▸ hreserved) hne hlinks.formed
  words := by rw [FormulaPhrase.words, h.words, hlinks.words]
  collects := h.collects.trans hlinks.collects
  fresh := .nil _ _
  value := by rw [formula, h.term_eq hlinks.collects, hlinks.values]
  parsed := by
    refine Formula.Parsed.joinAll (hlinks.parsed h.parts) fun hnil => hne ?_
    cases links with
    | nil => rfl
    | cons link links => cases hlinks.values.trans hnil

end SpellsLinks

end FormulaPhrase

namespace FormulaParser

variable {c : FormulaContext} {ws : List Word} {n d : Nat → Nat}

/-- The comparisons after a term. -/
theorem passes_links (left : Term) (hrounds : Input rounds ws) (hws : Input n ws) :
    Passes (fun i => links (n i) (rounds i) left) c ws fun fs c' us _ =>
      ∃ xs, FormulaPhrase.SpellsLinks xs us c left fs c' := by
  induction rounds, ws, hrounds using Input.rounds generalizing c left with
  | step rounds ws hrounds ih =>
    have hcomparison : Passes (fun _ => comparison?) c ws fun op c' us _ => c' = c ∧ us = [] ∧
        ∀ o, op = some o → first ws = mark o.text := by
      refine .peek fun t ht => .pure ⟨rfl, rfl, fun o ho => ?_⟩
      split at ho
      · next hkind =>
        have htext : o.text = t.value := by simpa using find?_some ho
        rw [← ht, Token.word, beq_iff_eq.mp hkind, htext]
      · cases ho
    refine hcomparison.bind fun op c' us vs hvs h => ?_
    obtain ⟨rfl, rfl, hop⟩ := h
    obtain rfl : ws = vs := hvs
    cases op with
    | none => exact .pure ⟨[], .nil _ left⟩
    | some op =>
      cases ws with
      | nil => cases hop op rfl
      | cons w vs =>
        obtain rfl : w = mark op.text := hop op rfl
        refine .advance ((passes_term hws.tail fun _ => Nat.le_refl _).bind
          fun right c₁ us rest hrest hx => ?_)
        subst hrest
        obtain ⟨x, -, hx⟩ := hx
        refine (ih rest hrounds.next.suffix right hws.tail.suffix).bind fun fs c₂ us' _ _ hxs => .pure ?_
        obtain ⟨xs, hxs⟩ := hxs
        rw [append_nil]
        exact ⟨(op, x) :: xs, .cons hx hxs⟩

/-- Words are those of a phrase up to a level. -/
abbrev IsFormula (level : Nat) (c : FormulaContext) (f : Formula) (c' : FormulaContext)
    (us _ : List Word) : Prop :=
  ∃ x : FormulaPhrase, x.level ≤ level ∧ x.Spells us c f c'

/-- A parser reads phrases up to a level. -/
def PassesFormulas (n : Nat → Nat) (level : Nat) (p : Nat → FormulaParser Formula) : Prop :=
  ∀ c ws, Input n ws → Passes p c ws (IsFormula level c)

theorem passes_comparisons (hws : Input n ws) (hreserved : Token.isReserved (first ws) = false) :
    Passes (fun i => comparisons (n i)) c ws (IsFormula 5 c) := by
  refine (passes_term hws fun _ => Nat.le_refl _).bind fun left c' us vs hvs hx => ?_
  obtain ⟨x, -, hx⟩ := hx
  have hrest := (hvs ▸ hws).suffix
  refine (passes_links left hrest hrest).bind fun fs c'' us' _ _ hxs => ?_
  obtain ⟨xs, hxs⟩ := hxs
  refine .ite (fun _ => .peek fun _ _ => ?_) fun hne => .pure ⟨.chain x xs, Nat.le_refl 5, ?_⟩
  · exact Passes.failHere_bind nofun
  · have hfirst : first us = first ws := by
      rw [hvs, Token.first_append (hx.words ▸ x.words_ne_nil)]
    rw [append_nil]
    refine hxs.chain hx ?_ (hfirst ▸ hreserved)
    rintro rfl
    exact hne (by rw [← hxs.values]; rfl)

theorem meets_declarePredicate {E : Error → Prop} (p : Symbol) :
    Meets (register (Registering.predicate p)) c ws E fun _ c' vs =>
      vs = ws ∧ c.Collects [] c' ∧ (c'.registry.predicate? p).isSome := by
  refine (meets_declare (Registering.predicate_iff.mpr rfl) (Registry.grows_declarePredicate _ _)
    fun f hf => ?_).mono fun _ c' vs h => ⟨h.1, h.2.1, ?_⟩
  · rw [Registry.declarePredicate]
    split
    · exact hf
    · exact hf
  · rw [h.2.2]
    exact Registry.isSome_predicate?.mpr (c.registry.mem_symbols_declarePredicate p)

/-- A predicate, where an identifier comes next. -/
theorem passes_predicate {name : Text} {vs : List Word} (hws : Input n ((.identifier, name) :: vs))
    (hreserved : Token.isReserved (.identifier, name) = false) :
    Passes (fun i => predicate (n i)) c ((.identifier, name) :: vs) (IsFormula 5 c) := by
  refine .next fun t ht => ?_
  obtain rfl : t.value = name := congrArg Prod.snd ht
  have hterm : PassesTerms n 4 fun i => term (n i) (n i) := fun _ _ hws => passes_term hws
      fun _ => Nat.le_refl _
  refine (passes_arguments hterm hws.tail (hws.tail.mono fun i => Nat.le_succ _)).bind
    fun args c' us _ _ hargs => ?_
  obtain ⟨xs, vs', rfl, hxs⟩ := hargs
  refine (Passes.of_quiet (.declare fun r R hR => hR.predicate r _)
    (meets_declarePredicate (E := always) _)).bind
    fun _ c'' us _ _ h => .pure ⟨.atom t.value xs, Nat.le_refl 5, ?_⟩
  obtain ⟨rfl, hlater, hdeclared⟩ := h
  rw [append_nil, append_nil]
  exact .atom (hws.proper _ mem_cons_self) hreserved (hxs.later hlater) hdeclared

/-- A quantifier lists distinct names, and all that come next are among them. -/
theorem passes_parameters (scope : Scope) (hws : Input rounds ws)
    (hnames : (scope.map (·.1)).Nodup) :
    Passes (fun i => parameters (rounds i) scope) c ws fun scope' c' us vs => ∃ more, scope' = scope ++ more ∧
      us = (more.map fun p => (.variable, p.1)) ∧ more.Fresh c.registry c'.registry ∧
      (scope'.map (·.1)).Nodup ∧ c.Collects [] c' ∧ (first vs).1 ≠ .variable := by
  have hdone : ∀ {c : FormulaContext} {ws} {scope : Scope}, (scope.map (·.1)).Nodup →
      (first ws).1 ≠ .variable →
      Passes (fun _ => pure scope) c ws fun scope' c' us vs => ∃ more, scope' = scope ++ more ∧
        us = (more.map fun p => (.variable, p.1)) ∧ more.Fresh c.registry c'.registry ∧
        (scope'.map (·.1)).Nodup ∧ c.Collects [] c' ∧ (first vs).1 ≠ .variable :=
    fun hnames hfirst => .pure ⟨[], (append_nil _).symm, rfl, .nil _ _, hnames, .refl _, hfirst⟩
  induction rounds, ws, hws using Input.rounds generalizing c scope with
  | step rounds ws hws ih =>
    refine .peek fun t ht => .ite (fun hkind => ?_) fun hkind => hdone hnames fun h => hkind ?_
    · obtain ⟨vs, rfl⟩ := Token.eq_cons_of_first ht (beq_iff_eq.mp hkind) (by decide)
      refine .advance (.ite (fun _ => .throw_bind) fun hnew =>
        (Passes.of_quiet (.newVariable _) (meets_newVariable (E := always) fun _ _ => trivial)).bind
          fun v c' us vs' hvs' h => ?_)
      obtain ⟨rfl, hdeclares, hv, hcollects, -⟩ := h
      obtain rfl : vs = vs' := hvs'
      have hnot : t.value ∉ scope.map (·.1) := fun hmem => hnew (FormulaContext.isSome_lookup.mpr hmem)
      have hnodup : ((scope ++ [(t.value, v)]).map (·.1)).Nodup := by
        rw [map_append, nodup_append]
        refine ⟨hnames, nodup_singleton _, fun a ha b hb hab => ?_⟩
        rw [hab, mem_singleton.mp hb] at ha
        exact hnot ha
      refine (ih vs hws.next _ hnodup).mono fun scope' c'' us vs' _ h => ?_
      obtain ⟨more, rfl, rfl, hfresh, hnodup, hcollects', hfirst⟩ := h
      exact ⟨(t.value, v) :: more, by simp, rfl, (Scope.Fresh.one hdeclares hv).append hcollects.grows hfresh
        hcollects'.grows, hnodup, hcollects.trans hcollects', hfirst⟩
    · rw [beq_iff_eq, ← h, ← ht]
      rfl

/-- A parser inside one more scope. -/
theorem meets_inScope {α : Type} {scope : Scope} {p : FormulaParser α} {E : Error → Prop}
    {P : α → FormulaContext → List Word → Prop}
    (hp : Meets p { c with scopes := scope :: c.scopes } ws E
      fun a c' vs => P a { c' with scopes := c.scopes } vs) :
    Meets (inScope scope p) c ws E P :=
  .get fun _ _ => .change _ (fun _ => rfl) (hp.bind fun _ _ _ h => .change _ (fun _ => rfl) (.pure h))

theorem passes_inScope {α : Type} {scope : Scope} {p : Nat → FormulaParser α}
    {P : α → FormulaContext → List Word → List Word → Prop}
    (hp : Passes p { c with scopes := scope :: c.scopes } ws
      fun a c' us vs => P a { c' with scopes := c.scopes } us vs) :
    Passes (fun i => inScope scope (p i)) c ws P := by
  have heq : ∀ i, inScope scope (p i) = (do
      let outer ← Parser.onContext fun c => (.ok c.scopes, c)
      Parser.onContext fun c => (.ok (), { c with scopes := scope :: outer })
      let a ← p i
      Parser.onContext fun c => (.ok (), { c with scopes := outer })
      return a) := fun _ => rfl
  simp only [heq]
  refine .ask (.alter rfl (hp.bind fun a c' us vs _ h => .alter rfl (.pure ?_)))
  rwa [append_nil]

/-- A truth value comes next. -/
theorem eq_truthWord_cons {value : Bool} (hws : Input n ws) (ht : t.word = first ws)
    (h : isTruthValue t (if value then "true" else "false") = true) :
    ∃ directive vs, ws = Token.truthWord directive value :: vs := by
  rw [isTruthValue, Bool.or_eq_true, Bool.and_eq_true, beq_iff_eq, beq_iff_eq] at h
  rcases h with h | ⟨hkind, hvalue⟩
  · obtain ⟨vs, hvs⟩ := hws.eq_spelled_cons ht h
    exact ⟨false, vs, hvs.trans (by cases value <;> rfl)⟩
  · obtain ⟨vs, hvs⟩ := Token.eq_cons_of_first ht hkind (by decide)
    exact ⟨true, vs, hvs.trans (by rw [hvalue]; rfl)⟩

theorem quantifier?_eq_none (h : quantifier? t = none) :
    t.is "forall" = false ∧ t.is "exists" = false := by
  rw [quantifier?] at h
  split at h
  · cases h
  · split at h
    · cases h
    · next hforall hexists => exact ⟨Bool.eq_false_iff.mpr hforall, Bool.eq_false_iff.mpr hexists⟩

theorem is_of_quantifier? {q : Quantifier} (h : quantifier? t = some q) :
    t.is (Human.quantifierText q) = true := by
  rw [quantifier?] at h
  split at h
  · next his =>
    obtain rfl := Option.some.inj h
    exact his
  · split at h
    · next his =>
      obtain rfl := Option.some.inj h
      exact his
    · cases h

theorem spelled_quantifierText (q : Quantifier) : spelled (Human.quantifierText q) = Token.quantifier q := by
  cases q <;> rfl

section Layers

variable {F : Nat → FormulaParser Formula} (hF : PassesFormulas d 10 F) (hd : ∀ i, d i < n i)

include hF hd

/-- What a formula starts with decides what it is. -/
theorem passes_primary (hws : Input (fun i => d i + 1) ws) (hnot : isWord (first ws) "not" = false)
    (hforall : isWord (first ws) "forall" = false) (hexists : isWord (first ws) "exists" = false) :
    Passes (fun i => primary (n i) (F i)) c ws (IsFormula 5 c) := by
  have hin : Input n ws := hws.mono hd
  have htruth : ∀ (t : Token) (value : Bool), t.word = first ws →
      isTruthValue t (if value then "true" else "false") = true →
      Passes (fun _ => do Parser.advance; return .boolean value) c ws (IsFormula 5 c) := by
    intro t value ht h
    obtain ⟨directive, vs, rfl⟩ := eq_truthWord_cons hws ht h
    exact .advance (.pure ⟨.truth directive value, Nat.le_refl 5, .truth directive value c⟩)
  have heq : ∀ i, primary (n i) (F i) = (do
      let t ← Parser.peek
      let isTerm ← foresee startsTerm
      if t.is "(" && !isTerm then
        Parser.advance
        let f ← F i
        expect ")"
        return f
      if isTruthValue t "true" then
        Parser.advance
        return .boolean true
      if isTruthValue t "false" then
        Parser.advance
        return .boolean false
      if t.kind == .identifier && !isTerm then predicate (n i) else comparisons (n i)) := fun _ => rfl
  simp only [heq]
  refine .peek fun t ht => .lookahead hws.proper fun isTerm => .ite (fun hgroup => ?_) fun _ =>
    .ite (htruth t true ht) fun htrue => .ite (htruth t false ht) fun hfalse => ?_
  · rw [Bool.and_eq_true] at hgroup
    obtain ⟨vs, rfl⟩ := hws.eq_spelled_cons ht hgroup.1
    refine .advance ((hF c vs hws.next).bind fun f c' us rest hrest hx =>
      passes_expect (hrest ▸ hws.tail).suffix
      fun _ _ => .pure ?_)
    obtain ⟨x, -, hx⟩ := hx
    exact ⟨.group x, Nat.le_refl 5, hx.group⟩
  · have hreserved : Token.isReserved (first ws) = false := by
      rw [Bool.not_eq_true, isTruthValue, Bool.or_eq_false_iff, Token.is_eq, ht] at htrue hfalse
      rw [Token.isReserved, hnot, hforall, hexists, htrue.1, hfalse.1, ← ht]
      show (_ || (t.kind == .directive && (t.value == _ || t.value == _))) = false
      rw [Bool.and_or_distrib_left, htrue.2, hfalse.2]
      rfl
    refine .ite (fun hid => ?_) fun _ => passes_comparisons hin hreserved
    rw [Bool.and_eq_true, beq_iff_eq] at hid
    obtain ⟨vs, rfl⟩ := Token.eq_cons_of_first ht hid.1 (by decide)
    exact passes_predicate hin hreserved

/-- Negations and quantifiers. -/
theorem passes_unary (hrounds : Input rounds ws) (hws : Input (fun i => d i + 1) ws) :
    Passes (fun i => unary (n i) (F i) (rounds i)) c ws (IsFormula 5 c) := by
  induction rounds, ws, hrounds using Input.rounds generalizing c with
  | step rounds ws hrounds ih =>
    refine .accept hws (fun vs hvs => ?_) fun hnot => .peek fun t ht => ?_
    · subst hvs
      refine (ih vs hrounds.next hws.tail).bind fun f c' us _ _ hx => .pure ?_
      obtain ⟨x, hlevel, hx⟩ := hx
      rw [append_nil]
      exact ⟨.not x, Nat.le_refl 5, hx.not hlevel⟩
    · split
      · next hq =>
        obtain ⟨hforall, hexists⟩ := quantifier?_eq_none hq
        rw [Token.is_eq, ht] at hforall hexists
        exact passes_primary hF hd hws hnot hforall hexists
      · next q hq =>
        obtain ⟨vs, rfl⟩ := hws.eq_spelled_cons ht (is_of_quantifier? hq)
        rw [spelled_quantifierText] at hrounds hws ⊢
        refine .advance ((passes_parameters [] (hws.tail.mono hd) nodup_nil).bind
          fun scope c' us rest hrest h => ?_)
        subst hrest
        obtain ⟨_, rfl, rfl, hfresh, hnodup, hcollects, hfirst⟩ := h
        have hbody : Passes (fun i => inScope scope (unary (n i) (F i) (rounds i))) c' rest fun f c'' us _ =>
            ∃ (x : FormulaPhrase) (d : FormulaContext), x.level ≤ 5 ∧
              x.Spells us { c' with scopes := scope :: c'.scopes } f d ∧
                c'' = { d with scopes := c'.scopes } := by
          refine passes_inScope ((ih rest hrounds.next.suffix hws.tail.suffix).mono fun f d us _ _ hx => ?_)
          obtain ⟨x, hlevel, hx⟩ := hx
          exact ⟨x, d, hlevel, hx, rfl⟩
        refine .ite (fun _ => .peek fun _ _ => ?_) fun hne => hbody.bind fun f c'' us vs' hvs' hx => .pure ?_
        · exact Passes.failHere_bind nofun
        · obtain ⟨x, d, hlevel, hx, rfl⟩ := hx
          rw [hvs', Token.first_append (hx.words ▸ FormulaPhrase.words_ne_nil hx.formed)] at hfirst
          rw [append_nil]
          exact ⟨.quantified q scope x, Nat.le_refl 5,
            hx.quantified hfresh hcollects (by simpa using hne) hnodup hlevel hfirst⟩

omit hF hd in
/-- Formulas with a connective between them, and a formula alone. -/
theorem passes_joined {p : Nat → FormulaParser Formula} {low : Nat} (hp : PassesFormulas d low p)
    (connective : Connective) {t : Text} (ht : spelled t = Token.connective connective)
    (hlow : low < FormulaPhrase.connectiveLevel connective) (hd : ∀ i, d i ≤ n i) :
    PassesFormulas d (FormulaPhrase.connectiveLevel connective)
      fun i => joinAll connective <$> Parser.oneOrMore (p i) (Parser.accept t) (n i) := by
  intro c ws hws
  have hitem : ∀ c ws, Input d ws → Passes p c ws fun f c' us _ => ∃ xs : List FormulaPhrase, xs ≠ [] ∧
      (∀ x ∈ xs, x.level ≤ low) ∧ FormulaPhrase.SpellsAll xs (Token.connective connective) us c [f] c' := by
    refine fun c ws hws => (hp c ws hws).mono fun f c' us _ _ hx => ?_
    obtain ⟨x, hlevel, hx⟩ := hx
    exact ⟨[x], cons_ne_nil _ _, forall_mem_singleton.mpr hlevel, .one hx⟩
  refine (passes_oneOrMore (R := fun us c fs c' => ∃ xs : List FormulaPhrase, xs ≠ [] ∧
    (∀ x ∈ xs, x.level ≤ low) ∧ FormulaPhrase.SpellsAll xs (Token.connective connective) us c fs c')
    hitem ?_ c ws (hws.mono hd) hws).map fun fs c' us _ _ hxs => ?_
  · rintro us us' c c' c'' f fs ⟨xs, -, hlevel, hxs⟩ ⟨ys, hne, hlevels, hys⟩
    obtain ⟨x, rfl⟩ : ∃ x, xs = [x] := length_eq_one_iff.mp (by simpa using congrArg List.length hxs.values)
    rw [ht]
    exact ⟨x :: ys, cons_ne_nil _ _, forall_mem_cons.mpr
      ⟨hlevel x mem_cons_self, hlevels⟩, .cons hxs.head hys hne⟩
  · obtain ⟨xs, hne, hlevel, hxs⟩ := hxs
    cases fs with
    | nil => exact absurd (map_eq_nil_iff.mp hxs.values) hne
    | cons f fs =>
      cases fs with
      | nil =>
        obtain ⟨x, rfl⟩ : ∃ x, xs = [x] := length_eq_one_iff.mp
          (by simpa using congrArg List.length hxs.values)
        exact ⟨x, Nat.le_of_lt (Nat.lt_of_le_of_lt (hlevel x mem_cons_self) hlow), hxs.head⟩
      | cons g fs =>
        have hlength : 2 ≤ xs.length := by
          have hlength := congrArg List.length hxs.values
          simp at hlength
          omega
        exact ⟨.join connective xs, Nat.le_refl _, hxs.join hlength fun x hx =>
          Nat.lt_of_le_of_lt (hlevel x hx) hlow⟩

theorem passes_disjunction : PassesFormulas (fun i => d i + 1) 7 fun i => disjunction (n i) (F i) := by
  have hunary : PassesFormulas (fun i => d i + 1) 5 fun i => unary (n i) (F i) (n i) := fun c ws hws =>
    passes_unary hF hd (hws.mono hd) hws
  have hconjunction : PassesFormulas (fun i => d i + 1) 6 fun i => conjunction (n i) (F i) :=
    passes_joined hunary .and rfl (by decide) hd
  exact passes_joined hconjunction .or rfl (by decide) hd

/-- Arrows to the left. -/
theorem passes_reverseArrows {us : List Word} (hf : IsFormula 8 c f c' us [])
    (hws : Input (fun i => d i + 1) ws) :
    Passes (fun i => Parser.chainLeft (disjunction (n i) (F i)) acceptReverseArrow (n i) f) c' ws
      fun f c'' vs _ =>
      IsFormula 8 c f c'' (us ++ vs) [] := by
  refine passes_chainLeft (R := fun us f c' => IsFormula 8 c f c' us [])
    (fun hws hx => ?_) (hws.mono hd) hws hf
  refine .accept hws (fun _ _ => .pure ⟨rfl, .inr ⟨_, _, rfl, rfl, fun rest hrest => ?_⟩⟩)
    fun _ => .pure ⟨rfl, .inl ⟨rfl, rfl⟩⟩
  refine (passes_disjunction hF hd _ rest hrest).mono fun g c₂ us₂ _ _ hy => ?_
  obtain ⟨x, hlevel, hx⟩ := hx
  obtain ⟨y, hylevel, hy⟩ := hy
  exact ⟨.impliedBy x y, Nat.le_refl 8, hx.impliedBy hy hlevel hylevel⟩

theorem passes_implication (hrounds : Input rounds ws) (hws : Input (fun i => d i + 1) ws) :
    Passes (fun i => implication (n i) (F i) (rounds i)) c ws (IsFormula 9 c) := by
  induction rounds, ws, hrounds using Input.rounds generalizing c with
  | step rounds ws hrounds ih =>
    refine (passes_disjunction hF hd c ws hws).bind fun f c' us vs hvs hx => ?_
    subst hvs
    obtain ⟨x, hlevel, hx⟩ := hx
    refine .accept hws.suffix (fun rest hrest => ?_) fun _ => ?_
    · subst hrest
      refine (ih rest hrounds.suffix.next hws.suffix.tail).bind fun g c'' us' _ _ hy => .pure ?_
      obtain ⟨y, hylevel, hy⟩ := hy
      rw [append_nil]
      exact ⟨.implies x y, Nat.le_refl 9, hx.implies hy hlevel hylevel⟩
    · refine (passes_reverseArrows hF hd ⟨x, Nat.le_succ_of_le hlevel, hx⟩ hws.suffix).mono
        fun f c'' us' _ _ hy => ?_
      obtain ⟨y, hylevel, hy⟩ := hy
      exact ⟨y, Nat.le_succ_of_le hylevel, hy⟩

end Layers

/-- Formulas are phrases. -/
theorem passes_formula (hws : Input d ws) (hd : ∀ i, d i ≤ n i) : Passes
    (fun i => formula (n i) (d i)) c ws (IsFormula 10 c) := by
  induction d, ws, hws using Input.rounds generalizing c with
  | step d ws hws ih =>
    have hF : PassesFormulas d 10 fun i => formula (n i) (d i) := fun c ws hws => ih ws hws
        fun i => Nat.le_of_succ_le (hd i)
    have himplication : PassesFormulas (fun i => d i + 1) 9
        fun i => implication (n i) (formula (n i) (d i)) (n i) :=
      fun c ws hws => passes_implication hF hd (hws.mono hd) hws
    exact passes_joined himplication .iff rfl (by decide) hd c ws hws

end FormulaParser

end LogicProgram
