import LogicProgram.Proofs.Phrase.AcceptedFormula
import Mathlib.Data.List.Perm.Basic

/-!
# The scopes of formulas that are read

A formula that is read is what a closed phrase means: its names stand for the variables
of quantifiers around them, which are all different and have the domains of their names.
A phrase with names that no quantifier lists is refused with these names.
-/

namespace LogicProgram

open List
open Token (mark first isWord Ends Admissible Input)
open LogicProgram.Parser (Meets never)

namespace FormulaPhrase

variable {t : Text} {v : Variable} {p : Nat → FormulaParser α}

theorem binders_comparisons (left : Term) (links : List (Comparison × Term)) :
    (comparisons left links).flatMap (·.binders) = [] := by
  induction links generalizing left with
  | nil => rfl
  | cons link links ih => exact ih link.2

/-- The variables that are bound are those of the quantifiers of the phrase. -/
theorem binders_formula {x : FormulaPhrase} (hx : x.Formed) (scopes : List Scope) :
    (x.formula scopes).binders.Perm (x.params.map (·.2)) := by
  induction hx generalizing scopes with
  | group _ ih => exact ih scopes
  | @chain left links =>
    have hnil : (formula scopes (.chain left links)).binders = [] := by
      have hcomparisons := binders_comparisons (left.term scopes)
          (links.map fun link => (link.1, link.2.term scopes))
      rw [formula]
      revert hcomparisons
      generalize comparisons _ _ = fs
      intro hfs
      rw [FormulaParser.joinAll.eq_def]
      split
      · simpa using hfs
      · rw [Formula.binders_join, hfs]
    rw [hnil]
    exact .nil
  | not _ _ ih => exact ih scopes
  | quantified _ _ _ _ _ ih =>
    rw [formula, params, Formula.binders, map_append]
    exact (ih _).append_left _
  | @join connective args _ _ _ ih =>
    rw [formula, params, formulaOfAll_eq_map, paramsOfAll_eq_flatMap, Formula.binders_join, flatMap_map,
      map_flatMap]
    exact List.Perm.flatMap_left _ fun x hx => ih x hx scopes
  | implies _ _ _ _ ihl ihr =>
    rw [formula, params, Formula.binders, map_append]
    exact (ihl scopes).append (ihr scopes)
  | impliedBy _ _ _ _ ihl ihr =>
    rw [formula, params, Formula.binders, map_append]
    exact ((ihr scopes).append (ihl scopes)).trans perm_append_comm
  | _ => exact .nil

end FormulaPhrase

/-- The variables of a term are those that its names stand for. -/
theorem TermPhrase.exists_name {x : TermPhrase} (hx : x.Formed) {scopes : List Scope}
    (hv : v ∈ (x.term scopes).vars) : ∃ name ∈ x.names, v = Scope.resolve scopes name := by
  induction hx with
  | @constant name h =>
    have hclosed : ∀ t, Term.special? name = some t → t.vars = [] := by
      intro t ht
      simp only [Term.special?] at ht
      split_ifs at ht <;> (obtain rfl := Option.some.inj ht; rfl)
    obtain ⟨t, ht⟩ := Option.isSome_iff_exists.mp h
    rw [term, ht, Option.getD_some, hclosed t ht] at hv
    cases hv
  | «variable» name => exact ⟨name, mem_cons_self, mem_singleton.mp hv⟩
  | @function name args _ _ ih =>
    rw [term, termOfAll_eq_map, Term.vars_function] at hv
    obtain ⟨t, ht, hv⟩ := mem_flatMap.mp hv
    obtain ⟨x, hx, rfl⟩ := mem_map.mp ht
    obtain ⟨name, hname, heq⟩ := ih x hx hv
    rw [names, namesOfAll_eq_flatMap]
    exact ⟨name, mem_flatMap.mpr ⟨x, hx, hname⟩, heq⟩
  | group _ ih | absolute _ ih | negative _ _ _ ih => exact ih hv
  | binary _ _ _ _ _ ihl ihr =>
    rcases mem_append.mp hv with hv | hv
    · obtain ⟨name, hname, heq⟩ := ihl hv
      exact ⟨name, mem_append_left _ hname, heq⟩
    · obtain ⟨name, hname, heq⟩ := ihr hv
      exact ⟨name, mem_append_right _ hname, heq⟩
  | _ => cases hv

namespace FormulaPhrase

/-- The free variables of comparisons are those of the terms. -/
theorem exists_term_of_comparisons {left : Term} {links : List (Comparison × Term)}
    (hv : v ∈ (FormulaParser.joinAll .and (comparisons left links)).freeVariables) :
    v ∈ left.vars ∨ ∃ link ∈ links, v ∈ link.2.vars := by
  have hall : ∀ f ∈ comparisons left links, v ∈ f.freeVariables → v ∈ left.vars ∨ ∃ link ∈ links,
      v ∈ link.2.vars := by
    clear hv
    induction links generalizing left with
    | nil => exact nofun
    | cons link links ih =>
      have hlink : v ∈ link.2.vars → ∃ l ∈ link :: links, v ∈ l.2.vars := fun h => ⟨link, mem_cons_self, h⟩
      refine forall_mem_cons.mpr ⟨fun hv => (Formula.mem_freeVariables_compare.mp hv).imp_right hlink,
        fun f hf hv => .inr ?_⟩
      rcases ih f hf hv with hv | ⟨l, hl, hv⟩
      · exact hlink hv
      · exact ⟨l, mem_cons_of_mem _ hl, hv⟩
  generalize comparisons left links = fs at hv hall
  rw [FormulaParser.joinAll.eq_def] at hv
  split at hv
  · next f => exact hall f mem_cons_self hv
  · obtain ⟨f, hf, hv⟩ := Formula.mem_freeVariables_join.mp hv
    exact hall f hf hv

/-- The free variables are those that free names stand for. -/
theorem exists_freeName {x : FormulaPhrase} (hx : x.Formed) {scopes : List Scope}
    (hv : v ∈ (x.formula scopes).freeVariables) : ∃ name ∈ x.freeNames, v = Scope.resolve scopes name := by
  induction hx generalizing scopes with
  | truth _ _ => cases hv
  | group _ ih => exact ih hv
  | @atom name args _ _ hargs =>
    obtain ⟨t, ht, hv⟩ := Formula.mem_freeVariables_atom.mp hv
    obtain ⟨x, hx, rfl⟩ := mem_map.mp ht
    obtain ⟨name, hname, heq⟩ := TermPhrase.exists_name (hargs x hx) hv
    exact ⟨name, mem_flatMap.mpr ⟨x, hx, hname⟩, heq⟩
  | @chain left links hleft _ _ hlinks =>
    rcases exists_term_of_comparisons hv with hv | ⟨link, hlink, hv⟩
    · obtain ⟨name, hname, heq⟩ := TermPhrase.exists_name hleft hv
      exact ⟨name, mem_append_left _ hname, heq⟩
    · obtain ⟨l, hl, rfl⟩ := mem_map.mp hlink
      obtain ⟨name, hname, heq⟩ := TermPhrase.exists_name (hlinks l hl) hv
      exact ⟨name, mem_append_right _ (mem_flatMap.mpr ⟨l, hl, hname⟩), heq⟩
  | not _ _ ih => exact ih (Formula.mem_freeVariables_not.mp hv)
  | @quantified q params body _ _ _ _ _ ih =>
    obtain ⟨hv, hnot⟩ := Formula.mem_freeVariables_quantified.mp hv
    obtain ⟨name, hname, rfl⟩ := ih hv
    cases hlookup : params.lookup name with
    | some u =>
      obtain ⟨before, after, rfl, -⟩ := lookup_eq_some_iff.mp hlookup
      refine absurd ?_ hnot
      rw [Scope.resolve, Scope.find?_cons, hlookup]
      simp
    | none =>
      refine ⟨name, mem_filter.mpr ⟨hname, by rw [hlookup]; rfl⟩, ?_⟩
      rw [Scope.resolve, Scope.find?_cons, hlookup, Option.none_or, Scope.resolve]
  | @join connective args _ _ _ ih =>
    rw [formula, formulaOfAll_eq_map] at hv
    obtain ⟨f, hf, hv⟩ := Formula.mem_freeVariables_join.mp hv
    obtain ⟨x, hx, rfl⟩ := mem_map.mp hf
    obtain ⟨name, hname, heq⟩ := ih x hx hv
    rw [freeNames, freeNamesOfAll_eq_flatMap]
    exact ⟨name, mem_flatMap.mpr ⟨x, hx, hname⟩, heq⟩
  | implies _ _ _ _ ihl ihr =>
    rcases Formula.mem_freeVariables_implies.mp hv with hv | hv
    · obtain ⟨name, hname, heq⟩ := ihl hv
      exact ⟨name, mem_append_left _ hname, heq⟩
    · obtain ⟨name, hname, heq⟩ := ihr hv
      exact ⟨name, mem_append_right _ hname, heq⟩
  | impliedBy _ _ _ _ ihl ihr =>
    rcases Formula.mem_freeVariables_implies.mp hv with hv | hv
    · obtain ⟨name, hname, heq⟩ := ihr hv
      exact ⟨name, mem_append_right _ hname, heq⟩
    · obtain ⟨name, hname, heq⟩ := ihl hv
      exact ⟨name, mem_append_left _ hname, heq⟩

/-- A variable of a phrase is listed by a quantifier, or free. -/
theorem mem_freeNames_or_params {x : FormulaPhrase} (hx : x.Formed) {name : Text}
    (h : (.variable, name) ∈ x.words) : name ∈ x.freeNames ∨ name ∈ x.params.map (·.1) := by
  induction hx with
  | truth directive value => cases directive <;> simp [words, Token.truthWord] at h
  | group _ ih => exact ih (by simpa [words] using h)
  | atom _ _ hargs =>
    rcases mem_cons.mp h with h | h
    · cases h
    rcases Token.mem_listed h with h | ⟨ws, hws, h⟩
    · cases h
    obtain ⟨t, ht, rfl⟩ := mem_map.mp hws
    exact .inl (mem_flatMap.mpr ⟨t, ht, TermPhrase.mem_names (hargs t ht) h⟩)
  | chain hleft _ _ hlinks =>
    rcases mem_append.mp h with h | h
    · exact .inl (mem_append_left _ (TermPhrase.mem_names hleft h))
    obtain ⟨link, hlink, h⟩ := mem_flatMap.mp h
    rcases mem_cons.mp h with h | h
    · cases h
    · exact .inl (mem_append_right _ (mem_flatMap.mpr
        ⟨link, hlink, TermPhrase.mem_names (hlinks link hlink) h⟩))
  | not _ _ ih => exact ih (by simpa [words] using h)
  | @quantified q params body _ _ _ _ _ ih =>
    rw [FormulaPhrase.params, map_append, mem_append]
    by_cases hname : name ∈ params.map (·.1)
    · exact .inr (.inl hname)
    · have hbody : (.variable, name) ∈ body.words := by
        rcases mem_append.mp h with h | h
        · rcases mem_cons.mp h with h | h
          · cases h
          · simp only [mem_map, Prod.mk.injEq, true_and] at h
            exact absurd (mem_map.mpr h) hname
        · exact h
      refine (ih hbody).imp (fun hfree => mem_filter.mpr ⟨hfree, ?_⟩) .inr
      rw [Option.isNone_iff_eq_none, lookup_eq_none_iff]
      exact fun p hp => bne_iff_ne.mpr fun heq => hname (mem_map.mpr ⟨p, hp, heq.symm⟩)
  | @join connective args _ _ _ ih =>
    rw [words, wordsOfAll_eq_map] at h
    rw [freeNames, params, freeNamesOfAll_eq_flatMap, paramsOfAll_eq_flatMap, map_flatMap]
    rcases Token.mem_joined h with h | ⟨ws, hws, h⟩
    · cases connective <;> cases h
    obtain ⟨x, hx, rfl⟩ := mem_map.mp hws
    exact (ih x hx h).imp (fun h => mem_flatMap.mpr ⟨x, hx, h⟩) fun h => mem_flatMap.mpr ⟨x, hx, h⟩
  | implies _ _ _ _ ihl ihr | impliedBy _ _ _ _ ihl ihr =>
    rw [freeNames, params, map_append, mem_append, mem_append]
    rcases mem_append.mp h with h | h
    · exact (ihl h).imp .inl .inl
    · exact (ihr ((mem_cons.mp h).resolve_left (by rintro ⟨⟩))).imp .inr .inr

/-- In a closed phrase, only names of quantifiers have to be allowed. -/
theorem admissible_of_closed {x : FormulaPhrase} (hx : x.Formed) (hclosed : x.freeNames = [])
    (hparams : ∀ name ∈ x.params.map (·.1), (Domain.ofVariableName name).isOk = true) :
      Admissible x.words := by
  intro w hw hkind
  obtain ⟨kind, name⟩ := w
  obtain rfl : kind = .variable := hkind
  rcases mem_freeNames_or_params hx hw with hname | hname
  · rw [hclosed] at hname
    cases hname
  · exact hparams name hname

end FormulaPhrase

/-- A formula is what a closed phrase means, with variables of its own. -/
structure FormulaPhrase.Scopes (x : FormulaPhrase) (r : Registry) (f : Formula) : Prop where
  /-- The language has the phrase. -/
  formed : x.Formed
  /-- A quantifier around each name lists it. -/
  bound : x.freeNames = []
  /-- Names stand for the variables of the innermost quantifiers that list them. -/
  value : f = x.formula []
  /-- No variable is free. -/
  closed : f.freeVariables = []
  /-- No variable is bound twice. -/
  distinct : f.binders.Nodup
  /-- The variables of quantifiers are declared with their names, and with the domains that the names
  determine. -/
  declared : ∀ p ∈ x.params, r.Declares p
  /-- There are no other variables. -/
  listed : f.binders ⊆ x.params.map (·.2)

theorem FormulaPhrase.Scopes.grows {x : FormulaPhrase} {r r' : Registry} {f : Formula} (h : x.Scopes r f)
    (hr : r.Grows r') : x.Scopes r' f :=
  { h with declared := fun p hp => (h.declared p hp).grows hr }

namespace FormulaParser

variable {α : Type} {c : FormulaContext} {r : Registry} {ws rest : List Word} {n : Nat} {x : FormulaPhrase}

/-- Without scopes, all free names are collected. -/
theorem map_free_eq_eraseDups {names : List Text} {c' : FormulaContext}
    (h : FormulaContext.Collects ⟨r, [], []⟩ names c') : c'.free.map (·.1) = names.eraseDups := by
  have hlists : ∀ name ∈ names, (!FormulaContext.lists ⟨r, [], []⟩ name) = true := fun _ _ => rfl
  rw [h.names, filter_eq_self.mpr hlists, map_nil, FormulaContext.foldl_insertName_nil]

theorem eraseDups_eq_nil {names : List Text} (h : names.eraseDups = []) : names = [] :=
  eq_nil_iff_forall_not_mem.mpr fun name hname => by
    have hmem := mem_eraseDups.mpr hname
    rw [h] at hmem
    cases hmem

/-- What is read of a closed phrase. -/
theorem scopes_of_spells {f : Formula} {c' : FormulaContext} (hx : x.Spells ws ⟨r, [], []⟩ f c')
    (hfree : c'.free = []) : x.Scopes c'.registry f := by
  have hnames : x.freeNames = [] := by
    have hcollected := map_free_eq_eraseDups hx.collects
    rw [hfree] at hcollected
    exact eraseDups_eq_nil hcollected.symm
  have hbinders := FormulaPhrase.binders_formula hx.formed c'.env
  rw [hx.value] at hbinders
  refine ⟨hx.formed, hnames, ?_, ?_, hbinders.nodup_iff.mpr hx.fresh.distinct, hx.fresh.declared,
    hbinders.subset⟩
  · rw [← hx.value]
    refine FormulaPhrase.formula_congr hx.formed fun name hname => ?_
    rw [hnames] at hname
    cases hname
  · refine eq_nil_iff_forall_not_mem.mpr fun v hv => ?_
    rw [← hx.value] at hv
    obtain ⟨name, hname, -⟩ := FormulaPhrase.exists_freeName hx.formed hv
    rw [hnames] at hname
    cases hname

/-- A closed formula is what a closed phrase means. -/
theorem passes_closedFormula {n : Nat → Nat} (hws : Input n ws) :
    Passes (fun i => closedFormula (n i)) ⟨r, [], []⟩ ws
      fun f c' us _ => ∃ r', c' = ⟨r', [], []⟩ ∧ r.Grows r' ∧
      f.Parsed r' ∧ ∃ x : FormulaPhrase, x.words = us ∧ x.Scopes r' f := by
  have heq : ∀ i, closedFormula (n i) = (do
      Parser.onContext fun c => (.ok (), { c with scopes := [], free := [] })
      let f ← formula (n i) (n i)
      let free ← Parser.onContext fun c => (.ok c.free, c)
      unless free.isEmpty do throw (Fault.notClosed (free.map (·.1)) : Error)
      return f) := fun _ => rfl
  simp only [heq]
  refine .alter rfl ((passes_formula hws fun _ => Nat.le_refl _).bind fun f c' us vs _ hx =>
    .ask (.ite (fun hfree => .pure ?_) fun _ => .throw_bind))
  obtain ⟨x, -, hx⟩ := hx
  have hfree := isEmpty_iff.mp hfree
  have hscopes := scopes_of_spells hx hfree
  obtain ⟨registry, scopes, free⟩ := c'
  obtain rfl : scopes = [] := hx.collects.scopes
  obtain rfl : free = [] := hfree
  rw [append_nil]
  exact ⟨registry, rfl, hx.collects.grows, hx.parsed, x, hx.words, hscopes⟩

/-- A phrase is accepted if closed, and else refused with its free names. -/
theorem meets_closedFormula (hx : x.Formed) (hadmissible : Admissible x.words) (hn : x.words.length ≤ n)
    (hrest : Ends 9 rest) : Meets (closedFormula n) c (x.words ++ rest)
      (fun e => x.freeNames ≠ [] ∧ e = Fault.notClosed x.freeNames.eraseDups)
      fun f c' vs => x.freeNames = [] ∧ vs = rest ∧ c'.free = [] ∧ x.IsRead ⟨c.registry, [], []⟩ f c' := by
  have hread := accepts_formula (Nat.le_refl n) x ⟨c.registry, [], []⟩ rest hx hadmissible x.level_le hn hrest
  refine .change ⟨c.registry, [], []⟩ (fun _ => rfl) ((Meets.mono_error hread fun _ h => h.elim).bind
    fun f c' vs h => ?_)
  obtain ⟨rfl, hf⟩ := h
  have hnames := map_free_eq_eraseDups (hf.collects hx)
  refine .get fun s hs => .ite (fun hfree => .pure ⟨?_, rfl, isEmpty_iff.mp hfree, hf⟩)
    fun hfree => .throw_bind ⟨fun hnil => ?_, ?_⟩
  · rw [isEmpty_iff.mp hfree] at hnames
    exact eraseDups_eq_nil hnames.symm
  · rw [hnil] at hnames
    exact hfree (isEmpty_iff.mpr (map_eq_nil_iff.mp hnames))
  · rw [← hnames]

/-- Words that a phrase has, with or without a full stop after it. -/
def Spans (x : FormulaPhrase) (ws : List Word) : Prop := ws = x.words ∨ ws = x.words ++ [mark "."]

theorem passes_wholeFormula {n : Nat → Nat} (hws : Input n ws) :
    Passes (fun i => wholeFormula (n i)) ⟨r, [], []⟩ ws fun f c' us vs => vs = [] ∧ f.Parsed c'.registry ∧
      ∃ x : FormulaPhrase, Spans x us ∧ x.Scopes c'.registry f := by
  refine (passes_closedFormula hws).bind fun f c' us vs hvs h => ?_
  obtain ⟨r', rfl, -, hparsed, x, hx, hscopes⟩ := h
  have hinput := (hvs ▸ hws).suffix
  have hend : ∀ (us : List Word) {vs : List Word}, Input n vs → Spans x us →
      Passes (fun _ => do
        unless ← Parser.atEnd do
          failHere ("unexpected " ++ (← Parser.peek).text ++ " after formula")
        return f) ⟨r', [], []⟩ vs fun f c' us' vs' => vs' = [] ∧ f.Parsed c'.registry ∧
          ∃ x : FormulaPhrase, Spans x (us ++ us') ∧ x.Scopes c'.registry f := by
    intro us vs hvs hspans
    refine .atEnd (.ite (fun hkind => .pure ⟨hvs.eq_nil hkind, hparsed, x, ?_, hscopes⟩)
      fun _ => .peek fun _ _ => .failHere_bind nofun)
    rwa [append_nil]
  refine .accept hinput (fun vs' hvs' => ?_) fun _ => hend us hinput (.inl hx.symm)
  refine (hend (us ++ [mark "."]) (hvs' ▸ hinput).tail (.inr (by rw [hx]))).mono fun f c' us' _ _ h => ?_
  rwa [append_assoc] at h

/-- A closed phrase is read as what it means, with declared variables. -/
theorem meets_wholeFormula_closed (hx : x.Formed) (hadmissible : Admissible x.words)
    (hclosed : x.freeNames = [])
    (hn : x.words.length ≤ n) : Meets (wholeFormula n) ⟨r, [], []⟩ x.words never
      fun f c' _ => ∃ y : FormulaPhrase,
      y.shape = x.shape ∧ y.Scopes c'.registry f := by
  have hmeets := @meets_closedFormula ⟨r, [], []⟩ [] n x hx hadmissible hn (Nat.lt_succ_self 9)
  rw [append_nil] at hmeets
  refine (hmeets.mono_error fun _ h => absurd hclosed h.1).bind fun f c' vs h => ?_
  obtain ⟨-, rfl, hfree, y, hshape, hy⟩ := h
  exact .accept_not rfl (.atEnd (.ite_pos rfl (.pure ⟨y, hshape, scopes_of_spells hy hfree⟩)))

/-- An open phrase is refused. -/
theorem meets_wholeFormula (hx : x.Formed) (hadmissible : Admissible x.words) (hopen : x.freeNames ≠ [])
    (hws : Spans x ws) (hn : ws.length ≤ n) : Meets (wholeFormula n) c ws
      (· = Fault.notClosed x.freeNames.eraseDups) fun _ _ _ => False := by
  obtain ⟨rest, rfl, hrest⟩ : ∃ rest, ws = x.words ++ rest ∧ Ends 9 rest := by
    rcases hws with rfl | rfl
    · exact ⟨[], (append_nil _).symm, Nat.lt_succ_self 9⟩
    · exact ⟨_, rfl, Token.ends_cons (by decide)⟩
  rw [length_append] at hn
  have hclosed := meets_closedFormula (c := c) (n := n) hx hadmissible (by omega) hrest
  exact (hclosed.mono_error fun _ h => h.2).bind fun _ _ _ h => absurd h.1 hopen

/-- What holds of a parser before the words of a text holds of the text. -/
theorem meets_onText {E : Error → Prop}
    {Q : α → FormulaContext → List Word → Prop} (ht : Token.Splits t ws)
    (hp : Meets (p (ws.length + 1)) ⟨r, [], []⟩ ws E Q) :
    (∃ a c vs, Returns (onText p t) r a c.registry ∧ Q a c vs) ∨ ∃ e r', Fails (onText p t) r e r' ∧ E e := by
  obtain ⟨tokens, last, htokens, rfl, hlast⟩ := ht.tokenize
  have hlength : (tokens ++ [last]).length = (tokens.map Token.word).length + 1 := by simp
  have hp := hp _ (Stream.shows_ofTokens hlast)
  rw [← hlength] at hp
  rcases hparse : outcome (p (tokens ++ [last]).length)
    ⟨Stream.ofTokens (tokens ++ [last]), ⟨r, [], []⟩⟩ with ⟨e | a, s⟩
  · have hparse' : Parser.runOn (p (tokens ++ [last]).length) (tokens ++ [last])
      ⟨r, [], []⟩ = (.error e, s) := hparse
    refine .inr ⟨e, s.context.registry, ?_, hp.2 e s hparse⟩
    unfold Fails
    rw [onText, htokens]
    simp only [outcome_bind, outcome_get, hparse']
    rfl
  · have hparse' : Parser.runOn (p (tokens ++ [last]).length) (tokens ++ [last])
      ⟨r, [], []⟩ = (.ok a, s) := hparse
    obtain ⟨vs, -, ha⟩ := hp.1 a s hparse
    refine .inl ⟨a, s.context, vs, ?_, ha⟩
    unfold Returns
    rw [onText, htokens]
    simp only [outcome_bind, outcome_get, hparse']
    rfl

/-- What a parser passes holds of the words of a text. -/
theorem passes_onText {a : α} {r' : Registry}
    {P : α → FormulaContext → List Word → List Word → Prop}
    (hp : ∀ {n ws}, Input n ws → Passes (fun i => p (n i)) ⟨r, [], []⟩ ws P)
      (h : Returns (onText p t) r a r') :
    ∃ us vs c, Token.Splits t (us ++ vs) ∧ c.registry = r' ∧ P a c us vs := by
  obtain ⟨ws, ht, hws⟩ : ∃ ws, Token.Splits t ws ∧ Input (fun _ => ws.length + 1) ws := by
    rw [onText] at h
    split at h
    · exact (Returns.throw_iff.mp h).elim
    · exact (Returns.throw_iff.mp h).elim
    · next tokens htokens =>
      obtain ⟨ts, last, -, -, hproper, hsplits⟩ := Token.tokenizeFrom_proper htokens
      refine ⟨_, hsplits, fun w hw => ?_, fun _ => Nat.lt_succ_self _⟩
      obtain ⟨token, htoken, rfl⟩ := mem_map.mp hw
      exact hproper token htoken
  rcases meets_onText ht ((hp hws).meets 0) with ⟨b, c, vs, hreturns, us, rfl, hP⟩ | ⟨e, r'', hfails, -⟩
  · obtain ⟨rfl, rfl⟩ := hreturns.unique h
    exact ⟨us, vs, c, ht, rfl, hP⟩
  · exact (hfails.not_returns h).elim

/-- What a parser refuses is refused in a text. -/
theorem fails_onText {e : Error} (ht : Token.Splits t ws)
    (hp : Meets (p (ws.length + 1)) ⟨r, [], []⟩ ws (· = e) fun _ _ _ => False) :
    ∃ r', Fails (onText p t) r e r' := by
  rcases meets_onText ht hp with ⟨b, c, vs, -, h⟩ | ⟨e, r', hfails, rfl⟩
  · exact h.elim
  · exact ⟨r', hfails⟩

end FormulaParser

end LogicProgram
