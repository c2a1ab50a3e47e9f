import LogicProgram.Proofs.Rendering.Human
import Mathlib.Data.List.Induction

/-!
# What parsers read is a phrase

Where the parsers of terms and formulas succeed, the words that they pass are those of
a phrase that the language has, and the result is what the phrase means. The names that
no quantifier lists are collected, each once and by first occurrence.
-/

namespace LogicProgram

open List
open Token (mark listed applied joined first isWord Input spelled)
open LogicProgram.Parser (Meets never always)

variable {name : Text} {r : Registry} {rounds : Nat → Nat}

namespace FormulaContext

/-- The scopes around a place. The names that no quantifier lists come last. -/
def env (c : FormulaContext) : List Scope := c.scopes ++ [c.free]

/-- Whether a quantifier around the place lists a name. -/
def lists (c : FormulaContext) (name : Text) : Bool := (Scope.find? c.scopes name).isSome

/-- Adds a name to others unless it is one of them. -/
def insertName (names : List Text) (name : Text) : List Text :=
  if names.contains name then names else names ++ [name]

/-- A later context at the same place, between which the names `names` occurred. -/
structure Collects (c : FormulaContext) (names : List Text) (c' : FormulaContext) : Prop where
  grows : c.registry.Grows c'.registry
  functions : ∀ f, (c.registry.function? f).isSome → (c'.registry.function? f).isSome
  scopes : c'.scopes = c.scopes
  /-- Names that were collected before stand for the same variables. -/
  kept : c.free <+: c'.free
  /-- Names that no quantifier lists are collected. -/
  names : c'.free.map (·.1) = (names.filter (!c.lists ·)).foldl insertName (c.free.map (·.1))

variable {c c' c'' : FormulaContext} {names names' : List Text} {name : Text} {v : Variable}

theorem mem_foldl_insertName {known : List Text} :
    name ∈ names.foldl insertName known ↔ name ∈ known ∨ name ∈ names := by
  induction names generalizing known with
  | nil => simp
  | cons x names ih =>
    rw [foldl_cons, ih, insertName]
    split
    · next hknown =>
      have hx := contains_iff_mem.mp hknown
      constructor
      · exact Or.imp_right (mem_cons_of_mem x)
      · rintro (h | h)
        · exact .inl h
        · rcases mem_cons.mp h with rfl | h
          · exact .inl hx
          · exact .inr h
    · simp [or_assoc]

/-- Starting from nothing, the names are collected once, by first occurrence. -/
theorem foldl_insertName_nil (names : List Text) : names.foldl insertName [] = names.eraseDups := by
  induction names using reverseRecOn with
  | nil => rfl
  | append_singleton names name ih =>
    rw [foldl_append, ih, foldl_cons, foldl_nil, eraseDups_append, insertName]
    by_cases hname : name ∈ names
    · simp [cons_removeAll, hname]
    · simp [cons_removeAll, eraseDups_cons, hname]

theorem Collects.refl (c : FormulaContext) : c.Collects [] c :=
  ⟨.refl _, fun _ => id, rfl, prefix_refl _, rfl⟩

theorem Collects.trans (h : c.Collects names c') (h' : c'.Collects names' c'') :
    c.Collects (names ++ names') c'' where
  grows := h.grows.trans h'.grows
  functions := fun f hf => h'.functions f (h.functions f hf)
  scopes := h'.scopes.trans h.scopes
  kept := h.kept.trans h'.kept
  names := by
    have hlists : c'.lists = c.lists := by
      funext name
      rw [lists, lists, h.scopes]
    rw [h'.names, h.names, hlists, filter_append, foldl_append]

theorem find?_env : Scope.find? c.env name = (Scope.find? c.scopes name).or (c.free.lookup name) := by
  rw [Scope.find?, env, findSome?_append]
  simp [Scope.find?]

theorem isSome_lookup {scope : Scope} : (scope.lookup name).isSome ↔ name ∈ scope.map (·.1) := by
  simp [lookup_isSome_iff]

theorem isNone_lookup_congr {scope scope' : Scope} (h : scope.map (·.1) = scope'.map (·.1)) (name : Text) :
    (scope.lookup name).isNone = (scope'.lookup name).isNone := by
  rw [← Option.not_isSome, ← Option.not_isSome, Bool.not_inj_iff, Bool.eq_iff_iff, isSome_lookup,
    isSome_lookup, h]

/-- What a name stands for stays so. -/
theorem Collects.find?_env (h : c.Collects names c') (hname : Scope.find? c.env name = some v) :
    Scope.find? c'.env name = some v := by
  obtain ⟨more, hmore⟩ := h.kept
  rw [FormulaContext.find?_env] at hname ⊢
  rw [h.scopes, ← hmore, lookup_append]
  cases hfind : Scope.find? c.scopes name with
  | some u =>
    rw [hfind] at hname
    exact hname
  | none =>
    rw [hfind, Option.none_or] at hname
    rw [hname]
    rfl

/-- The names that occurred stand for something. -/
theorem Collects.isSome_find?_env (h : c.Collects names c') (hname : name ∈ names) :
    (Scope.find? c'.env name).isSome := by
  rw [FormulaContext.find?_env, h.scopes, Option.isSome_or, Bool.or_eq_true]
  by_cases hlists : c.lists name = true
  · exact .inl hlists
  · refine .inr (isSome_lookup.mpr ?_)
    rw [h.names, mem_foldl_insertName]
    exact .inr (mem_filter.mpr ⟨hname, by simp [hlists]⟩)

/-- The meaning of what was read stays the same. -/
theorem Collects.find?_env_eq (h : c.Collects names c') (h' : c'.Collects names' c'') :
    ∀ name ∈ names, Scope.find? c'.env name = Scope.find? c''.env name := by
  intro name hname
  obtain ⟨v, hv⟩ := Option.isSome_iff_exists.mp (h.isSome_find?_env hname)
  rw [hv, h'.find?_env hv]

/-- Inside of a scope, the names that it lists are not collected. -/
theorem Collects.leave {scope : Scope}
    (h : ({ c with scopes := scope :: c.scopes } : FormulaContext).Collects names c') :
    c.Collects (names.filter fun name => (scope.lookup name).isNone) { c' with scopes := c.scopes } where
  grows := h.grows
  functions := h.functions
  scopes := rfl
  kept := h.kept
  names := by
    have hfilter : names.filter (!lists { c with scopes := scope :: c.scopes } ·) =
        (names.filter fun name => (scope.lookup name).isNone).filter (!c.lists ·) := by
      rw [filter_filter]
      refine filter_congr fun name _ => ?_
      rw [lists, lists, Scope.find?_cons]
      cases scope.lookup name <;> simp
    rw [← hfilter]
    exact h.names

end FormulaContext

/-- A variable is declared with a name and the domain that the name determines. -/
def Registry.Declares (r : Registry) (x : Text × Variable) : Prop :=
  ∃ domain, Domain.ofVariableName x.1 = .ok domain ∧ x.2 < r.variableTable.size ∧
    r.variableDeclaration x.2 = ⟨x.1, some domain⟩

theorem Registry.Declares.grows {r' : Registry} {x : Text × Variable} (h : r.Declares x)
    (hr : r.Grows r') : r'.Declares x := by
  obtain ⟨domain, hdomain, hsize, hdeclaration⟩ := h
  exact ⟨domain, hdomain, Nat.lt_of_lt_of_le hsize hr.size, (hr.declared _ hsize).trans hdeclaration⟩

namespace FormulaParser

variable {c : FormulaContext} {ws : List Word} {E : Error → Prop}

/-- A new variable is declared, unless the name is not allowed. -/
theorem meets_newVariable (hE : ∀ e, Domain.ofVariableName name = .error e → E e) :
    Meets (newVariable name) c ws E fun v c' vs => vs = ws ∧ c'.registry.Declares (name, v) ∧
      c.registry.variableTable.size ≤ v ∧ c.Collects [] c' ∧ c'.free = c.free := by
  rw [newVariable]
  cases hname : Domain.ofVariableName name with
  | error e => exact .throw (hE e hname)
  | ok domain =>
    have hreturns := Registering.returns_newVariable c.registry name domain
    have hdeclaration := c.registry.variableDeclaration_addVariables (k := 0) (d := ⟨name, some domain⟩)
      (show #[(⟨name, some domain⟩ : VariableDeclaration)][0]? = _ from rfl)
    refine .of_reads (.register hreturns ws) ⟨rfl, ⟨domain, hname, ?_, hdeclaration⟩, Nat.le_refl _, ?_, rfl⟩
    · rw [Registry.size_addVariables]
      exact Nat.lt_succ_self _
    · exact ⟨Registry.grows_addVariables _ _, fun _ => id, rfl, prefix_refl _, rfl⟩

/-- A name stands for its variable, which is new if the name is. -/
theorem meets_resolve (hE : ∀ e, Domain.ofVariableName name = .error e → E e) :
    Meets (resolve name) c ws E fun v c' vs => vs = ws ∧ c.Collects [name] c' ∧
      Scope.find? c'.env name = some v := by
  refine .get fun s hs => ?_
  dsimp only
  split
  · next v hv =>
    have hlists : c.lists name = true := Option.isSome_iff_exists.mpr ⟨v, hv⟩
    refine .pure ⟨rfl, ⟨.refl _, fun _ => id, rfl, prefix_refl _, by simp [hlists]⟩, ?_⟩
    rw [FormulaContext.find?_env, show Scope.find? c.scopes name = some v from hv, Option.some_or]
  · next hscopes =>
    have hscopes : Scope.find? c.scopes name = none := hscopes
    have hlists : c.lists name = false := by rw [FormulaContext.lists, hscopes]; rfl
    split
    · next v hv =>
      have hmem : name ∈ c.free.map (·.1) := FormulaContext.isSome_lookup.mp (by rw [hv]; rfl)
      refine .pure ⟨rfl, ⟨.refl _, fun _ => id, rfl, prefix_refl _, ?_⟩, ?_⟩
      · rw [filter_singleton, hlists]
        exact (if_pos (contains_iff_mem.mpr hmem)).symm
      · rw [FormulaContext.find?_env, hscopes, hv]
        rfl
    · next hfree =>
      have hnew : name ∉ c.free.map (·.1) := fun hmem => by
        have hsome := FormulaContext.isSome_lookup.mpr hmem
        rw [hfree] at hsome
        cases hsome
      refine (meets_newVariable hE).bind fun v c' vs hv => ?_
      obtain ⟨rfl, -, -, hnone, hkept⟩ := hv
      refine .change { c' with free := c'.free ++ [(name, v)] } (fun _ => rfl)
        (.pure ⟨rfl, ⟨hnone.grows, hnone.functions, hnone.scopes, ?_, ?_⟩, ?_⟩)
      · exact hkept ▸ prefix_append _ _
      · rw [filter_singleton, hlists, hkept]
        simp [FormulaContext.insertName, hnew]
      · rw [FormulaContext.find?_env, show Scope.find? _ name = none from hnone.scopes ▸ hscopes,
          lookup_append,
          hkept, hfree]
        simp

end FormulaParser

/-- What holds of every part of a term that is read. -/
def Term.ParsedPart (r : Registry) : Term → Prop
  | .integer n => -2147483648 ≤ n ∧ n < 2147483648
  | .function name args => Token.IsIdentifier name ∧ (r.function? ⟨name, args.length⟩).isSome
  | .binary op _ _ => op ≠ .power
  | .interval _ _ => False
  | .variable _ | .string _ | .boolean _ | .infimum | .supremum | .unary _ _ => True

theorem Term.ParsedPart.later {c c' : FormulaContext} {names : List Text} {t : Term}
    (h : t.ParsedPart c.registry)
    (hc : c.Collects names c') : t.ParsedPart c'.registry := by
  cases t with
  | function name args => exact ⟨h.1, hc.functions _ h.2⟩
  | _ => exact h

/-- A phrase has the words `ws`, and between two contexts it means a term. -/
structure TermPhrase.Spells (x : TermPhrase) (ws : List Word) (c : FormulaContext) (t : Term)
    (c' : FormulaContext) : Prop where
  formed : x.Formed
  words : x.words = ws
  collects : c.Collects x.names c'
  value : x.term c'.env = t
  /-- Its functions are declared, and its numbers are in range. -/
  parts : ∀ u ∈ t.subterms, u.ParsedPart c'.registry

namespace TermPhrase.Spells

variable {x y : TermPhrase} {c c' c'' : FormulaContext} {ws vs : List Word} {t u : Term}
  {names : List Text}

theorem term_eq (h : x.Spells ws c t c') (h' : c'.Collects names c'') : x.term c''.env = t := by
  rw [← h.value]
  exact (TermPhrase.term_congr h.formed (h.collects.find?_env_eq h')).symm

/-- A phrase without names and parts. -/
theorem leaf (hx : x.Formed) (hnames : x.names = []) (hsubterms : (x.term c.env).subterms = [x.term c.env])
    (hpart : (x.term c.env).ParsedPart c.registry) : x.Spells x.words c (x.term c.env) c :=
  ⟨hx, rfl, hnames ▸ .refl c, rfl, by rw [hsubterms]; exact forall_mem_singleton.mpr hpart⟩

theorem numeral {digits : Text} (h : Text.toNat digits < 2147483648) (c : FormulaContext) :
    (TermPhrase.numeral digits).Spells [(.number, digits)] c (.integer (Text.toNat digits)) c := by
  refine leaf (.numeral h) rfl rfl ⟨?_, ?_⟩ <;> omega

theorem negativeNumeral {digits : Text} (h : Text.toNat digits ≤ 2147483648) (c : FormulaContext) :
    (TermPhrase.negativeNumeral digits).Spells [mark "-", (.number, digits)] c
      (.integer (-(Text.toNat digits : Int))) c := by
  refine leaf (.negativeNumeral h) rfl rfl ⟨?_, ?_⟩ <;> omega

theorem string (value : Text) (c : FormulaContext) :
    (TermPhrase.string value).Spells [(.string, value)] c (.string value) c :=
  leaf (.string value) rfl rfl trivial

theorem constant {name : Text} (h : Term.special? name = some t) (c : FormulaContext) :
    (TermPhrase.constant name).Spells [(.directive, name)] c t c := by
  refine ⟨.constant (by rw [h]; rfl), rfl, .refl c, by rw [TermPhrase.term, h, Option.getD_some], ?_⟩
  have hleaf : t.subterms = [t] ∧ t.ParsedPart c.registry := by
    simp only [Term.special?] at h
    split_ifs at h <;> (obtain rfl := Option.some.inj h; exact ⟨rfl, trivial⟩)
  rw [hleaf.1]
  exact forall_mem_singleton.mpr hleaf.2

theorem «variable» {v : Variable} (hc : c.Collects [name] c')
    (hv : Scope.find? c'.env name = some v) :
    (TermPhrase.variable name).Spells [(.variable, name)] c (.variable v) c' :=
  ⟨.variable name, rfl, hc, by rw [TermPhrase.term, Scope.resolve, hv, Option.getD_some],
    forall_mem_singleton.mpr trivial⟩

theorem group (h : x.Spells ws c t c') :
    (TermPhrase.group x).Spells (mark "(" :: ws ++ [mark ")"]) c t c' :=
  ⟨.group h.formed, by rw [TermPhrase.words, h.words], h.collects, h.value, h.parts⟩

theorem absolute (h : x.Spells ws c t c') :
    (TermPhrase.absolute x).Spells (mark "|" :: ws ++ [mark "|"]) c (.unary .absolute t) c' :=
  ⟨.absolute h.formed, by rw [TermPhrase.words, h.words], h.collects, congrArg _ h.value,
    Term.forall_subterms_unary.mpr ⟨trivial, h.parts⟩⟩

theorem negative (h : x.Spells ws c t c') (hlevel : x.level ≤ 1)
    (hnumeral : ∀ digits, x ≠ .numeral digits) :
    (TermPhrase.negative x).Spells (mark "-" :: ws) c (.unary .negative t) c' :=
  ⟨.negative h.formed hlevel hnumeral, by rw [TermPhrase.words, h.words], h.collects, congrArg _ h.value,
    Term.forall_subterms_unary.mpr ⟨trivial, h.parts⟩⟩

theorem binary {op : Term.Operator} (hop : op ≠ .power) (h : x.Spells ws c t c')
    (h' : y.Spells vs c' u c'') (hleft : x.level ≤ Human.operatorLevel op)
    (hright : y.level < Human.operatorLevel op) :
    (TermPhrase.binary op x y).Spells (ws ++ mark op.text :: vs) c (.binary op t u) c'' where
  formed := .binary hop h.formed h'.formed hleft hright
  words := by rw [TermPhrase.words, h.words, h'.words]
  collects := h.collects.trans h'.collects
  value := by rw [TermPhrase.term, h.term_eq h'.collects, h'.value]
  parts := Term.forall_subterms_binary.mpr
    ⟨hop, fun u hu => (h.parts u hu).later h'.collects, h'.parts⟩

end TermPhrase.Spells

/-- Phrases with words that are those of arguments, between two contexts. -/
structure TermPhrase.SpellsAll (xs : List TermPhrase) (ws : List Word) (c : FormulaContext)
    (ts : List Term) (c' : FormulaContext) : Prop where
  formed : ∀ x ∈ xs, x.Formed
  words : joined (mark ",") (xs.map (·.words)) = ws
  collects : c.Collects (xs.flatMap (·.names)) c'
  values : xs.map (·.term c'.env) = ts
  parts : ∀ t ∈ ts, ∀ u ∈ t.subterms, u.ParsedPart c'.registry

namespace TermPhrase.SpellsAll

variable {c c' c'' : FormulaContext} {ws vs : List Word} {t : Term} {ts : List Term} {x : TermPhrase}
  {xs : List TermPhrase}

theorem none (c : FormulaContext) : SpellsAll [] [] c [] c :=
  ⟨nofun, rfl, .refl c, rfl, nofun⟩

theorem one (h : x.Spells ws c t c') : SpellsAll [x] ws c [t] c' where
  formed := forall_mem_singleton.mpr h.formed
  words := h.words
  collects := by simpa using h.collects
  values := by simpa using h.value
  parts := forall_mem_singleton.mpr h.parts

/-- A single argument. -/
theorem head (h : SpellsAll [x] ws c [t] c') : x.Spells ws c t c' where
  formed := h.formed x mem_cons_self
  words := h.words
  collects := by simpa using h.collects
  value := by simpa using h.values
  parts := h.parts t mem_cons_self

theorem cons (h : x.Spells ws c t c') (hxs : SpellsAll xs vs c' ts c'') (hne : xs ≠ []) :
    SpellsAll (x :: xs) (ws ++ mark "," :: vs) c (t :: ts) c'' where
  formed := forall_mem_cons.mpr ⟨h.formed, hxs.formed⟩
  words := by
    cases xs with
    | nil => exact absurd rfl hne
    | cons y ys => rw [← h.words, ← hxs.words, map_cons, map_cons, joined]
  collects := h.collects.trans hxs.collects
  values := by rw [map_cons, h.term_eq hxs.collects, hxs.values]
  parts := forall_mem_cons.mpr ⟨fun u hu => (h.parts u hu).later hxs.collects, hxs.parts⟩

/-- The same after something without names. -/
theorem later (h : SpellsAll xs ws c ts c') (hlater : c'.Collects [] c'') : SpellsAll xs ws c ts c'' where
  formed := h.formed
  words := h.words
  collects := by simpa using h.collects.trans hlater
  values := by
    rw [← h.values]
    refine map_congr_left fun x hx => (TermPhrase.term_congr (h.formed x hx) ?_).symm
    exact fun name hname => h.collects.find?_env_eq hlater name (mem_flatMap.mpr ⟨x, hx, hname⟩)
  parts := fun t ht u hu => (h.parts t ht u hu).later hlater

end TermPhrase.SpellsAll

/-- A function with arguments. -/
theorem TermPhrase.Spells.function {name : Text} {xs : List TermPhrase} {c c' : FormulaContext}
    {ws : List Word} {ts : List Term} (hname : Token.IsIdentifier name) (h : SpellsAll xs ws c ts c')
    (hdeclared : (c'.registry.function? ⟨name, ts.length⟩).isSome) :
    (TermPhrase.function name xs).Spells (applied name (xs.map (·.words))) c (.function name ts) c' where
  formed := .function hname h.formed
  words := by rw [TermPhrase.words, TermPhrase.wordsOfAll_eq_map]
  collects := by rw [TermPhrase.names, TermPhrase.namesOfAll_eq_flatMap]; exact h.collects
  value := by rw [TermPhrase.term, TermPhrase.termOfAll_eq_map, ← h.values]
  parts := Term.forall_subterms_function.mpr ⟨⟨hname, hdeclared⟩, h.parts⟩

/-- A function is declared then if it was before, or is the one. -/
theorem Registry.isSome_function?_declareFunction {f g : Symbol} :
    ((r.declareFunction f).function? g).isSome ↔ g = f ∨ (r.function? g).isSome := by
  rw [declareFunction]
  split
  · next h =>
    constructor
    · exact .inr
    · rintro (rfl | hg)
      · exact h
      · exact hg
  · simp only [function?, find?_isSome, mem_append, mem_singleton, beq_iff_eq]
    constructor
    · rintro ⟨d, hd | rfl, rfl⟩
      · exact .inr ⟨d, hd, rfl⟩
      · exact .inl rfl
    · rintro (rfl | ⟨d, hd, rfl⟩)
      · exact ⟨_, .inr rfl, rfl⟩
      · exact ⟨d, .inl hd, rfl⟩

namespace FormulaParser

variable {c : FormulaContext} {ws : List Word} {n d : Nat → Nat} {E : Error → Prop}

/-- One or more items, where `R` says what is read between two contexts. -/
theorem passes_oneOrMore {α : Type} {item : Nat → FormulaParser α} {t : Text}
    {R : List Word → FormulaContext → List α → FormulaContext → Prop}
    (hitem : ∀ c ws, Input n ws → Passes item c ws fun a c' us _ => R us c [a] c')
    (hcons : ∀ {us us' c c' c'' a as}, R us c [a] c' → R us' c' as c'' →
      R (us ++ spelled t :: us') c (a :: as) c'')
    (c : FormulaContext) (ws : List Word) (hrounds : Input rounds ws) (hws : Input n ws) :
    Passes (fun i => Parser.oneOrMore (item i) (Parser.accept t) (rounds i)) c ws
      fun as c' us _ => R us c as c' := by
  induction rounds, ws, hrounds using Input.rounds generalizing c with
  | step rounds ws hrounds ih =>
    refine (hitem c ws hws).bind fun a c' us vs hvs ha => ?_
    subst hvs
    refine .accept hws.suffix (fun vs' hvs' => ?_) fun _ => .pure ?_
    · subst hvs'
      refine (ih vs' hrounds.suffix.next c' hws.suffix.tail).bind fun as c'' us' _ _ has => .pure ?_
      rw [append_nil]
      exact hcons ha has
    · rwa [append_nil]

/-- Operators that group to the left; `R` says what was read. -/
theorem passes_chainLeft {α : Type} {p : Nat → FormulaParser α} {next : FormulaParser (Option (α → α → α))}
    {R : List Word → α → FormulaContext → Prop}
    (hnext : ∀ {us c ws a}, Input d ws → R us a c → Passes (fun _ => next) c ws
      fun combine c' vs _ => c' = c ∧
      (combine = none ∧ vs = [] ∨ ∃ g w, combine = some g ∧ vs = [w] ∧ ∀ rest, Input d rest →
        Passes p c rest fun b c'' us' _ => R (us ++ w :: us') (g a b) c''))
    {us : List Word} {a : α} (hrounds : Input rounds ws) (hws : Input d ws) (ha : R us a c) :
    Passes (fun i => Parser.chainLeft (p i) next (rounds i) a) c ws fun b c' vs _ => R (us ++ vs) b c' := by
  induction rounds, ws, hrounds using Input.rounds generalizing c us a with
  | step rounds ws hrounds ih =>
    refine (hnext hws ha).bind fun combine c' vs rest hvs h => ?_
    obtain ⟨rfl, ⟨rfl, rfl⟩ | ⟨g, w, rfl, rfl, hg⟩⟩ := h
    · exact .pure (by simpa using ha)
    · subst hvs
      refine (hg rest hws.suffix).bind fun b c₂ us₂ rest₂ hrest₂ hb => ?_
      subst hrest₂
      refine (ih rest₂ hrounds.next.suffix.suffix hws.suffix.suffix hb).mono fun b c₃ vs _ _ h => ?_
      simpa using h

/-- Words are those of a phrase up to a level. -/
abbrev IsTerm (level : Nat) (c : FormulaContext) (t : Term) (c' : FormulaContext) (us _ : List Word) : Prop :=
  ∃ x : TermPhrase, x.level ≤ level ∧ x.Spells us c t c'

/-- A parser reads phrases up to a level. -/
def PassesTerms (n : Nat → Nat) (level : Nat) (p : Nat → FormulaParser Term) : Prop :=
  ∀ c ws, Input n ws → Passes p c ws (IsTerm level c)

theorem passes_expect {β : Type} {t : Text} {f : Nat → Unit → FormulaParser β}
    {Q : β → FormulaContext → List Word → List Word → Prop} (hws : Input n ws)
    (hf : ∀ vs, ws = spelled t :: vs → Passes (fun i => f i ()) c vs
      fun b c' us vs => Q b c' (spelled t :: us) vs) :
    Passes (fun i => expect t >>= f i) c ws Q := by
  have hexpect : Passes (fun _ => expect t) c ws fun _ c' us _ => c' = c ∧ us = [spelled t] :=
    .accept hws (fun vs hvs => .pure ⟨rfl, rfl⟩) fun _ => .peek fun _ _ => .failHere nofun
  refine hexpect.bind fun _ c' us vs hvs h => ?_
  obtain ⟨rfl, rfl⟩ := h
  exact hf vs hvs

/-- A step on the registry collects no names. -/
theorem meets_declare {step : Registering Unit} (h : Returns step c.registry () r)
    (hr : c.registry.Grows r) (hfunctions : ∀ f, (c.registry.function? f).isSome → (r.function? f).isSome) :
    Meets (register step) c ws E fun _ c' vs => vs = ws ∧ c.Collects [] c' ∧ c'.registry = r :=
  .of_reads (.register h ws) ⟨rfl, ⟨hr, hfunctions, rfl, prefix_refl _, rfl⟩, rfl⟩

theorem meets_declareFunction (f : Symbol) : Meets (register (Registering.function f)) c ws E fun _ c' vs =>
    vs = ws ∧ c.Collects [] c' ∧ (c'.registry.function? f).isSome := by
  refine (meets_declare (Registering.function_iff.mpr rfl) (Registry.grows_declareFunction _ _) fun g =>
    Registry.isSome_function?_declareFunction.mpr ∘ .inr).mono fun _ c' vs h => ⟨h.1, h.2.1, ?_⟩
  rw [h.2.2]
  exact Registry.isSome_function?_declareFunction.mpr (.inl rfl)

section Terms

variable {T : Nat → FormulaParser Term} (hT : PassesTerms d 4 T)

include hT

theorem passes_arguments (hn : Input n ws) (hws : Input (fun i => d i + 1) ws) :
    Passes (fun i => arguments (n i) (T i)) c ws fun ts c' us _ => ∃ (xs : List TermPhrase) (vs : List Word),
      listed (xs.map (·.words)) = us ∧ TermPhrase.SpellsAll xs vs c ts c' := by
  have hitem : ∀ c ws, Input d ws → Passes T c ws fun t c' us _ =>
      ∃ xs : List TermPhrase, xs ≠ [] ∧ TermPhrase.SpellsAll xs us c [t] c' := by
    refine fun c ws hws => (hT c ws hws).mono fun t c' us _ _ hx => ?_
    obtain ⟨x, -, hx⟩ := hx
    exact ⟨[x], cons_ne_nil _ _, .one hx⟩
  refine .accept hws (fun vs hvs => ?_) fun _ => .pure ⟨[], [], rfl, .none c⟩
  subst hvs
  have hvs := hws.next
  refine (passes_oneOrMore (R := fun us c ts c' => ∃ xs : List TermPhrase, xs ≠ [] ∧
    TermPhrase.SpellsAll xs us c ts c') hitem ?_ c vs hn.tail hvs).bind
      fun ts c' us rest hrest hts => ?_
  · rintro us us' c c' c'' t ts ⟨xs, -, hxs⟩ ⟨ys, hne, hys⟩
    obtain ⟨x, rfl⟩ : ∃ x, xs = [x] := length_eq_one_iff.mp (by simpa using congrArg List.length hxs.values)
    exact ⟨x :: ys, cons_ne_nil _ _, .cons hxs.head hys hne⟩
  · obtain ⟨xs, hne, hxs⟩ := hts
    refine passes_expect (hrest ▸ hvs).suffix fun vs _ => .pure ⟨xs, us, ?_, hxs⟩
    rw [listed, if_neg (by simpa using hne), hxs.words]
    rfl

/-- A term before a closing bracket. -/
theorem passes_bracketed {t : Text} {f : Term → Term} (hws : Input d ws) : Passes (fun i => do
      let inner ← T i
      expect t
      return f inner) c ws fun u c' us _ => ∃ (x : TermPhrase) (inner : Term) (vs : List Word),
        us = vs ++ [spelled t] ∧ u = f inner ∧ x.Spells vs c inner c' := by
  refine (hT c ws hws).bind fun inner c' us vs hvs hx => ?_
  obtain ⟨x, -, hx⟩ := hx
  exact passes_expect (hvs ▸ hws).suffix fun _ _ =>
    .pure ⟨x, inner, us, rfl, rfl, hx⟩

variable (hd : ∀ i, d i < n i)

include hd

theorem passes_primaryTerm : PassesTerms (fun i => d i + 1) 0 fun i => primaryTerm (n i) (T i) := by
  intro c ws hws
  have hbrackets : ∀ t : Token, Passes (fun i => do
      if ← Parser.accept "(" then
        let inner ← T i
        FormulaParser.expect ")"
        return inner
      if ← Parser.accept "|" then
        let inner ← T i
        FormulaParser.expect "|"
        return .unary .absolute inner
      FormulaParser.failHere ("expected term, found " ++ t.text)) c ws (IsTerm 0 c) := by
    refine fun t => .accept hws (fun vs hvs => ?_) fun _ => .accept hws (fun vs hvs => ?_) fun _ => .failHere nofun
    · refine (passes_bracketed hT (f := id) (hvs ▸ hws).next).mono
        fun u c' us _ _ hu => ?_
      obtain ⟨x, inner, vs, rfl, rfl, hx⟩ := hu
      exact ⟨.group x, Nat.le_refl 0, hx.group⟩
    · refine (passes_bracketed hT (hvs ▸ hws).next).mono
        fun u c' us _ _ hu => ?_
      obtain ⟨x, inner, vs, rfl, rfl, hx⟩ := hu
      exact ⟨.absolute x, Nat.le_refl 0, hx.absolute⟩
  refine .peek fun t ht => ?_
  dsimp only
  split
  · next hkind =>
    obtain ⟨vs, rfl⟩ := Token.eq_cons_of_first ht hkind (by decide)
    exact .advance (.ite (fun _ => .throw_bind) fun h =>
      .pure ⟨.numeral t.value, Nat.le_refl 0, .numeral (Nat.not_le.mp h) c⟩)
  · next hkind =>
    obtain ⟨vs, rfl⟩ := Token.eq_cons_of_first ht hkind (by decide)
    exact .advance (.pure ⟨.string t.value, Nat.le_refl 0, .string t.value c⟩)
  · next hkind =>
    obtain ⟨vs, rfl⟩ := Token.eq_cons_of_first ht hkind (by decide)
    refine .advance ((Passes.of_quiet (.resolve _) (meets_resolve (E := always) fun _ _ => trivial)).bind
      fun v c' us _ _ h => .pure ⟨.variable t.value, Nat.le_refl 0, ?_⟩)
    obtain ⟨rfl, hcollects, hfind⟩ := h
    exact .variable hcollects hfind
  · next hkind =>
    obtain ⟨vs, rfl⟩ := Token.eq_cons_of_first ht hkind (by decide)
    have hconstant : ∀ u, Term.special? t.value = some u → Passes (fun _ => do Parser.advance; return u) c
        ((.directive, t.value) :: vs) (IsTerm 0 c) :=
      fun u hu => .advance (.pure ⟨.constant t.value, Nat.le_refl 0, .constant hu c⟩)
    refine .ite (fun h₁ => hconstant _ ?_) fun h₁ => .ite (fun h₂ => hconstant _ ?_) fun h₂ =>
      .ite (fun h₃ => hconstant _ ?_) fun h₃ => .ite (fun h₄ => hconstant _ ?_) fun _ => .failHere nofun
    · rw [Term.special?, if_pos h₁]
    · rw [Term.special?, if_neg h₁, if_pos h₂]
    · rw [Term.special?, if_neg h₁, if_neg h₂, if_pos h₃]
    · rw [Term.special?, if_neg h₁, if_neg h₂, if_neg h₃, if_pos h₄]
  · next hkind =>
    obtain ⟨vs, rfl⟩ := Token.eq_cons_of_first ht hkind (by decide)
    have hname : Token.IsIdentifier t.value := hws.proper _ mem_cons_self
    refine .advance ((passes_arguments hT (hws.tail.mono hd) hws.tail).bind fun args c' us vs' _ hargs => ?_)
    obtain ⟨xs, vs, rfl, hxs⟩ := hargs
    refine (Passes.of_quiet (.declare fun r R hR => hR.function r _)
      (meets_declareFunction (E := always) _)).bind fun _ c'' us _ _ h =>
      .pure ⟨.function t.value xs, Nat.le_refl 0, ?_⟩
    obtain ⟨rfl, hlater, hdeclared⟩ := h
    rw [append_nil, append_nil]
    exact .function hname (hxs.later hlater) hdeclared
  · exact hbrackets t
  · exact hbrackets t

theorem passes_unaryTerm (hrounds : Input rounds ws) (hws : Input (fun i => d i + 1) ws) :
    Passes (fun i => unaryTerm (n i) (T i) (rounds i)) c ws (IsTerm 1 c) := by
  induction rounds, ws, hrounds using Input.rounds generalizing c with
  | step rounds ws hrounds ih =>
    refine .accept hws (fun vs hvs => .peek fun t ht => .ite (fun hkind => ?_) fun hkind => ?_) fun _ =>
      (passes_primaryTerm hT hd c ws hws).mono fun t c' us _ _ hx => ?_
    · obtain ⟨rest, rfl⟩ := Token.eq_cons_of_first ht (beq_iff_eq.mp hkind) (by decide)
      exact .advance (.ite (fun _ => .throw_bind) fun h =>
        .pure ⟨.negativeNumeral t.value, Nat.le_refl 1, .negativeNumeral (Nat.not_lt.mp h) c⟩)
    · subst hvs
      refine (ih vs hrounds.next hws.tail).bind fun u c' us rest hrest hx => .pure ?_
      obtain ⟨x, hlevel, hx⟩ := hx
      rw [append_nil]
      refine ⟨.negative x, Nat.le_refl 1, hx.negative hlevel ?_⟩
      rintro digits rfl
      have hfirst : t.kind = .number := by
        rw [hrest, ← hx.words] at ht
        exact congrArg Prod.fst ht
      exact hkind (beq_iff_eq.mpr hfirst)
    · obtain ⟨x, hlevel, hx⟩ := hx
      exact ⟨x, Nat.le_succ_of_le hlevel, hx⟩

end Terms

theorem passes_acceptOperator (ops : List Term.Operator) (hws : Input n ws) :
    Passes (fun _ => acceptOperator ops) c ws fun combine c' us _ => c' = c ∧
      ((combine = none ∧ us = []) ∨ ∃ op ∈ ops, combine = some (Term.binary op) ∧ us = [mark op.text]) := by
  refine .peek fun t ht => ?_
  split
  · exact .pure ⟨rfl, .inl ⟨rfl, rfl⟩⟩
  · next op hop =>
    have his := find?_some hop
    obtain ⟨vs, rfl⟩ := hws.eq_spelled_cons ht his
    have hspelled : spelled op.text = mark op.text := by cases op <;> rfl
    exact .advance (.pure ⟨rfl, .inr ⟨op, mem_of_find?_eq_some hop, rfl, congrArg ([·]) hspelled⟩⟩)

/-- Operators of a level between phrases that bind more tightly. -/
theorem passes_chain {p : Nat → FormulaParser Term} {ops : List Term.Operator} {low level : Nat}
    (hp : PassesTerms d low p) (hops : ∀ op ∈ ops, op ≠ .power ∧ Human.operatorLevel op = level)
    (hlow : low < level) (hd : ∀ i, d i ≤ n i) :
    PassesTerms d level (fun i => do Parser.chainLeft (p i) (acceptOperator ops) (n i) (← p i)) := by
  intro c ws hws
  refine (hp c ws hws).bind fun t c' us vs hvs hx => ?_
  obtain ⟨x, hlevel, hx⟩ := hx
  have hvs := (hvs ▸ hws).suffix
  refine passes_chainLeft (R := fun us t c' => IsTerm level c t c' us [])
    (fun {us c' ws t} hws hx => ?_) (hvs.mono hd) hvs
    ⟨x, by omega, hx⟩
  refine (passes_acceptOperator ops hws).mono fun combine c'' vs _ _ h => ⟨h.1, h.2.imp_right fun h => ?_⟩
  obtain ⟨op, hop, hcombine, hword⟩ := h
  obtain ⟨hpower, hoplevel⟩ := hops op hop
  refine ⟨_, _, hcombine, hword, fun rest hrest => (hp _ rest hrest).mono fun u c₂ us₂ _ _ hy => ?_⟩
  obtain ⟨x, hlevel, hx⟩ := hx
  obtain ⟨y, hylevel, hy⟩ := hy
  exact ⟨.binary op x y, Nat.le_of_eq hoplevel, hx.binary hpower hy (hoplevel ▸ hlevel) (by omega)⟩

/-- Terms are phrases. -/
theorem passes_term {c : FormulaContext} {ws : List Word} (hws : Input d ws) (hd : ∀ i, d i ≤ n i) :
    Passes (fun i => term (n i) (d i)) c ws (IsTerm 4 c) := by
  induction d, ws, hws using Input.rounds generalizing c with
  | step d ws hws ih =>
    have hunary : PassesTerms (fun i => d i + 1) 1
        fun i => unaryTerm (n i) (term (n i) (d i)) (n i) := fun c ws hws =>
      passes_unaryTerm (fun c ws hws => ih ws hws fun i => Nat.le_of_succ_le (hd i)) hd (hws.mono hd) hws
    have hproduct : PassesTerms (fun i => d i + 1) 3 fun i => multiplicative (n i) (term (n i) (d i)) :=
      passes_chain hunary (by decide) (by decide) hd
    have hsum : PassesTerms (fun i => d i + 1) 4 fun i => additive (n i) (term (n i) (d i)) :=
      passes_chain hproduct (by decide) (by decide) hd
    exact hsum c ws hws

end FormulaParser

end LogicProgram
