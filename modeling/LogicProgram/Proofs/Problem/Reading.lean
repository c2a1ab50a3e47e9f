import LogicProgram.Proofs.Problem.Obligations
import LogicProgram.Proofs.Rendering.Naming

/-!
# What proof problems say

A proof problem is read line by line: a line `tff(name, role, content).` states something in a
role, and all other lines are comments or empty. A problem that is written says what its
sections list, under their names and in their roles, after what the background theory and the
declarations say. This only holds if nothing that is written breaks its line, since names and
comments are written as they are.
-/

namespace LogicProgram

open List

namespace Tff

/-- What a line of a proof problem states. -/
structure Stated where
  /-- The name, which is of no account for provers. -/
  name : Text
  role : Text
  content : Text
deriving DecidableEq, Repr

/-- What a line states, if it has the form `tff(name, role, content).`. -/
def stated? (line : Text) : Option Stated := do
  let rest ← line.dropPrefix? "tff("
  let (name, rest) ← Text.splitFirst? ", " rest
  let (role, rest) ← Text.splitFirst? ", " rest
  let content ← rest.dropSuffix? ")."
  return ⟨name, role, content⟩

/-- What the lines of a text state, from the first to the last. -/
def readings (text : Text) : List Stated := (text.splitOn '\n'.toUInt8).filterMap stated?

/-- A text that stays on its line. -/
def OnLine (t : Text) : Prop := '\n'.toUInt8 ∉ t

instance (t : Text) : Decidable (OnLine t) := inferInstanceAs (Decidable (_ ∉ t))

/-- A name that ends before the comma after it. -/
def IsLabel (t : Text) : Prop := OnLine t ∧ ','.toUInt8 ∉ t

instance (t : Text) : Decidable (IsLabel t) := inferInstanceAs (Decidable (_ ∧ _ ∉ t))

/-- What is stated can be read from one line. -/
def Stated.Legible (x : Stated) : Prop := IsLabel x.name ∧ IsLabel x.role ∧ OnLine x.content

instance (x : Stated) : Decidable x.Legible := inferInstanceAs (Decidable (_ ∧ _ ∧ _))

theorem onLine_append {t u : Text} : OnLine (t ++ u) ↔ OnLine t ∧ OnLine u := by
  simp [OnLine]

/-- The text before the first comma and blank. -/
theorem splitFirst?_comma {t : Text} (h : ','.toUInt8 ∉ t) (rest : Text) :
    Text.splitFirst? ", " (t ++ ", " ++ rest) = some (t, rest) := by
  have hneedle : Text.ofString ", " = [0x2c, 0x20] := by decide
  rw [hneedle]
  induction t with
  | nil => simp [Text.splitFirst?]
  | cons b t ih =>
    obtain ⟨hb, ht⟩ := not_or.mp (mt mem_cons.mpr h)
    have hno : ([0x2c, 0x20] : Text).isPrefixOf (b :: (t ++ [0x2c, 0x20] ++ rest)) = false := by
      simp only [isPrefixOf, Bool.and_eq_false_iff, beq_eq_false_iff_ne]
      exact .inl hb
    rw [cons_append, cons_append, Text.splitFirst?, hno, ih ht]
    rfl

/-- A text says something, whatever is written after it. -/
def Says (t : Text) (xs : List Stated) : Prop := ∀ rest, readings (t ++ rest) = xs ++ readings rest

namespace Says

variable {t u : Text} {xs ys : List Stated}

theorem nil : Says [] [] := fun _ => rfl

theorem readings_eq (h : Says t xs) : readings t = xs := by
  have hnone : readings [] = [] := by decide
  simpa [hnone] using h []

theorem append (ht : Says t xs) (hu : Says u ys) : Says (t ++ u) (xs ++ ys) := fun rest => by
  rw [append_assoc, ht, hu, append_assoc]

theorem skip (ht : Says t xs) (hu : Says u []) : Says (t ++ u) xs := by
  simpa using ht.append hu

theorem flatMap {α : Type} {l : List α} {write : α → Text} {read : α → Stated}
    (h : ∀ a ∈ l, Says (write a) [read a]) : Says (l.flatMap write) (l.map read) := by
  induction l with
  | nil => exact nil
  | cons a l ih =>
    obtain ⟨ha, hl⟩ := forall_mem_cons.mp h
    exact ha.append (ih hl)

/-- A line with its end says what it states. -/
theorem ofLine (h : OnLine t) : Says (t ++ "\n") (stated? t).toList := fun rest => by
  have hend : "\n" = ['\n'.toUInt8] := by decide
  rw [hend, append_assoc, singleton_append, readings, splitOn_append_cons_self_of_not_mem h,
    filterMap_cons]
  cases stated? t <;> rfl

/-- The line that states something. -/
theorem line {x : Stated} (h : x.Legible) : Says (Tff.line x.name x.role x.content) [x] := by
  obtain ⟨name, role, content⟩ := x
  obtain ⟨hname, hrole, hcontent⟩ := h
  have hline : OnLine ("tff(" ++ name ++ ", " ++ role ++ ", " ++ content ++ ").") := by
    simp only [onLine_append]
    exact ⟨⟨⟨⟨⟨⟨by decide, hname.1⟩, by decide⟩, hrole.1⟩, by decide⟩, hcontent⟩, by decide⟩
  have hstated : stated? ("tff(" ++ name ++ ", " ++ role ++ ", " ++ content ++ ").") =
      some ⟨name, role, content⟩ := by
    have hprefix : ∀ rest : Text, (("tff(" : Text) ++ rest).dropPrefix? "tff(" = some rest :=
      fun rest => dropPrefix?_append_of_beq rest (beq_self_eq_true _)
    have hsuffix : (content ++ ").").dropSuffix? ")." = some content :=
      dropSuffix?_eq_some_iff.mpr ⟨_, rfl, beq_self_eq_true _⟩
    have hparts : (("tff(" : Text) ++ name ++ ", " ++ role ++ ", " ++ content ++ ").") =
        "tff(" ++ (name ++ ", " ++ (role ++ ", " ++ (content ++ ")."))) := by
      simp only [append_assoc]
    rw [hparts, stated?, hprefix]
    simp only [Option.bind_eq_bind, Option.bind_some, splitFirst?_comma hname.2,
      splitFirst?_comma hrole.2, hsuffix]
    rfl
  have hsays := ofLine hline
  rw [hstated] at hsays
  have hend : ")." ++ "\n" = Text.ofString ").\n" := by decide
  rw [append_assoc, hend] at hsays
  exact hsays

/-- A comment states nothing. -/
theorem remark (h : OnLine t) : Says ("% " ++ t ++ "\n") [] := by
  have hline : OnLine ("% " ++ t) := onLine_append.mpr ⟨by decide, h⟩
  exact ofLine hline

theorem blank : Says "\n" [] := ofLine (t := []) (by decide)

theorem comment (h : OnLine t) : Says (Document.comment t) [] := by
  rw [Document.comment]
  split
  · exact nil
  · exact remark h

theorem heading (h : OnLine t) : Says (Document.heading t) [] := by
  have hrule : Says (List.replicate 72 '%'.toUInt8 ++ "\n") [] :=
    ofLine (t := List.replicate 72 '%'.toUInt8) (by decide)
  have hparts : Document.heading t = (List.replicate 72 '%'.toUInt8 ++ "\n") ++
      ("% " ++ t ++ "\n") ++ (List.replicate 72 '%'.toUInt8 ++ "\n") := by
    have hbreak : "\n% " = "\n" ++ Text.ofString "% " := by decide
    rw [Document.heading, hbreak]
    simp only [append_assoc]
  rw [hparts]
  exact (hrule.append (remark h)).append hrule

/-- Lines under a comment. -/
theorem group {α : Type} {l : List α} {write : α → Text} {read : α → Stated} (ht : OnLine t)
    (h : ∀ a ∈ l, Says (write a) [read a]) : Says (Document.group t (l.map write)) (l.map read) := by
  cases l with
  | nil => exact nil
  | cons a l => exact (comment ht).append (flatMap h)

/-- Blocks say what their lines say. -/
theorem blocks {l : List ((Text × List Text) × List Stated)}
    (h : ∀ g ∈ l, OnLine g.1.1 ∧ Says g.1.2.flatten g.2) :
    Says (Document.blocks (l.map (·.1))) (l.flatMap (·.2)) := by
  induction l with
  | nil => exact nil
  | cons g l ih =>
    obtain ⟨hg, hl⟩ := forall_mem_cons.mp h
    have hfirst := (heading hg.1).append hg.2
    cases l with
    | nil => simpa [Document.blocks, Text.join] using hfirst
    | cons => simpa [Document.blocks, Text.join] using (hfirst.skip blank).append (ih hl)

end Says

end Tff

/-- The names of the symbolic constants that a proof problem speaks of. -/
def Registry.symbolicConstants (r : Registry) : List Text :=
  ((r.sortedFunctions.filter (!·.symbol.isBuiltInFunction)).filter (·.isSymbolicConstant)).map
    (·.symbol.name)

namespace Tff

/-- A type declaration as it is stated. -/
def typeStated (type : Text) : Stated := ⟨"type", "type", type⟩

/-- An axiom as it is stated. -/
def Annotated.stated (a : Annotated) : Stated := ⟨a.name, a.role.text, a.formula.text⟩

/-- What the declarations of symbols say: types, that constants are symbolic, and their order. -/
def declared (r : Registry) : List Stated :=
  (r.sortedPredicates.filter (!·.symbol.isBuiltInPredicate)).map
      (fun p => typeStated (predicateType p.symbol))
    ++ (r.sortedFunctions.filter (!·.symbol.isBuiltInFunction)).map
      (fun f => typeStated (functionType f.symbol f.domain))
    ++ r.symbolicConstants.map (fun c => (symbolicConstant c).stated)
    ++ (constantOrder r.symbolicConstants).map (·.stated)

/-- What every proof problem over some declarations says. -/
def preamble (r : Registry) : List Stated :=
  Background.types.map typeStated ++ Background.axioms.map (·.stated) ++ declared r

theorem says_typeLine {type : Text} (h : (typeStated type).Legible) :
    Says (typeLine type) [typeStated type] := .line (x := typeStated type) h

theorem says_annotated {a : Annotated} (h : a.stated.Legible) : Says a.text [a.stated] :=
  .line (x := a.stated) h

theorem says_typesText : Says Background.typesText (Background.types.map typeStated) := by
  have hlabel : IsLabel "type" := by decide
  have htypes : ∀ t ∈ Background.types, OnLine t := by decide
  exact .flatMap fun t ht => says_typeLine ⟨hlabel, hlabel, htypes t ht⟩

theorem says_axiomsText : Says Background.axiomsText (Background.axioms.map (·.stated)) := by
  have hcommented : ∀ (t : Text) (l : List Annotated), OnLine t →
      (∀ a ∈ l, IsLabel a.name ∧ OnLine a.formula.text) →
      Says (Background.commented t l) (l.map (·.stated)) := by
    refine fun t l ht hl => (Says.remark ht).append (.flatMap fun a ha => ?_)
    have hrole : IsLabel a.role.text := by cases a.role <;> decide
    exact says_annotated ⟨(hl a ha).1, hrole, (hl a ha).2⟩
  rw [Background.axioms, map_append, map_append, Background.axiomsText]
  exact ((((hcommented _ _ (by decide) (by decide)).skip .blank).append
    (hcommented _ _ (by decide) (by decide))).skip .blank).append
      (hcommented _ _ (by decide) (by decide))

theorem says_declarations {r : Registry} (h : ∀ x ∈ declared r, x.Legible) {t : Text}
    (ht : Document.declarations r = some t) : Says t (declared r) := by
  simp only [declared, forall_mem_append, forall_mem_map] at h
  obtain ⟨⟨⟨hpredicates, hfunctions⟩, hconstants⟩, horder⟩ := h
  rw [Document.declarations] at ht
  split at ht
  · cases ht
  · obtain rfl := Option.some.inj ht
    exact (((Says.group (by decide) fun d hd => says_typeLine (hpredicates d hd)).append
      (.group (by decide) fun d hd => says_typeLine (hfunctions d hd))).append
        (.group (by decide) fun c hc => says_annotated (hconstants c hc))).append
          (.group (by decide) fun a ha => says_annotated (horder a ha))

theorem declared_eq_nil {r : Registry} (h : Document.declarations r = none) : declared r = [] := by
  rw [Document.declarations] at h
  split at h
  · next hempty =>
    rw [Bool.and_eq_true, List.isEmpty_iff, List.isEmpty_iff] at hempty
    simp [declared, Registry.symbolicConstants, hempty.1, hempty.2, constantOrder]
  · cases h

/-- The axioms relate neighbours, hence each constant with later ones. -/
theorem constantOrder_of_pairwise {R : Text → Text → Prop} {cs : List Text} (h : cs.Pairwise R) :
    ∀ f ∈ constantOrder cs, ∃ a ∈ cs, ∃ b ∈ cs, R a b ∧
      f = Background.named "symbolic_constant_order" (Background.less (.apply a []) (.apply b [])) := by
  fun_induction constantOrder cs with
  | case1 a b rest ih =>
    rw [pairwise_cons] at h
    rw [forall_mem_cons]
    refine ⟨⟨a, by simp, b, by simp, h.1 b (by simp), rfl⟩, fun f hf => ?_⟩
    obtain ⟨c, hc, d, hd, hcd, hf⟩ := ih h.2 f hf
    exact ⟨c, mem_cons_of_mem _ hc, d, mem_cons_of_mem _ hd, hcd, hf⟩
  | case2 => exact nofun

/-- Nothing is to be proven in what every problem says. -/
theorem role_preamble {r : Registry} {x : Stated} (hx : x ∈ preamble r) :
    x.role ≠ "conjecture" := by
  have htype : "type" ≠ Text.ofString "conjecture" := by decide
  have hgiven : Role.hypothesis.text ≠ "conjecture" := by decide
  have hbackground : ∀ a ∈ Background.axioms, a.role = .hypothesis := by decide
  simp only [preamble, declared, mem_append, mem_map] at hx
  rcases hx with (⟨_, _, rfl⟩ | ⟨a, ha, rfl⟩) | ((⟨_, _, rfl⟩ | ⟨_, _, rfl⟩) | ⟨_, _, rfl⟩) | ⟨a, ha, rfl⟩
  · exact htype
  · show a.role.text ≠ _
    rw [hbackground a ha]
    exact hgiven
  · exact htype
  · exact htype
  · exact hgiven
  · obtain ⟨_, _, _, _, -, rfl⟩ :=
      constantOrder_of_pairwise (pairwise_of_forall fun _ _ => trivial) a ha
    exact hgiven

end Tff

namespace Document

/-- A formula of a section as it is stated. -/
def statedAs (r : Registry) (a : AnnotatedFormula) : Tff.Stated := ⟨a.name, a.role, formulaText r a.formula⟩

/-- A proof problem says what all do, and then what its sections list. -/
theorem readings_tptpText {r : Registry} (hr : ∀ x ∈ Tff.declared r, x.Legible)
    {sections : List DocumentSection} (htitles : ∀ s ∈ sections, Tff.OnLine s.title)
    (h : ∀ a ∈ sections.flatMap (·.formulas), (statedAs r a).Legible ∧ Tff.OnLine a.description) :
    Tff.readings (tptpText r sections) =
      Tff.preamble r ++ (sections.flatMap (·.formulas)).map (statedAs r) := by
  have hbackground : ∀ g ∈ [((Text.ofString "anthem types", [Tff.Background.typesText]),
        Tff.Background.types.map Tff.typeStated), (("anthem axioms",
          [Tff.Background.axiomsText]), Tff.Background.axioms.map (·.stated))],
      Tff.OnLine g.1.1 ∧ Tff.Says g.1.2.flatten g.2 :=
    forall_mem_cons.mpr ⟨⟨by decide, by simpa using Tff.says_typesText⟩,
      forall_mem_singleton.mpr ⟨by decide, by simpa using Tff.says_axiomsText⟩⟩
  have hdeclared : ∀ g ∈ (declarations r).toList.map fun t =>
      ((Text.ofString "types", [t]), Tff.declared r), Tff.OnLine g.1.1 ∧ Tff.Says g.1.2.flatten g.2 := by
    have htitle : Tff.OnLine "types" := by decide
    refine forall_mem_map.mpr fun t ht => ⟨htitle, ?_⟩
    simpa using Tff.says_declarations hr (Option.mem_toList.mp ht)
  have hsections : ∀ g ∈ (sections.filter (!·.formulas.isEmpty)).map fun s =>
      ((s.title, s.formulas.map (statementLine r)), s.formulas.map (statedAs r)),
      Tff.OnLine g.1.1 ∧ Tff.Says g.1.2.flatten g.2 := by
    refine forall_mem_map.mpr fun s hs => ?_
    have hs := mem_of_mem_filter hs
    refine ⟨htitles s hs, .flatMap fun a ha => ?_⟩
    obtain ⟨hlegible, hdescription⟩ := h a (mem_flatMap.mpr ⟨s, hs, ha⟩)
    exact (Tff.Says.comment hdescription).append (.line (x := statedAs r a) hlegible)
  have hsays := Tff.Says.blocks (forall_mem_append.mpr
    ⟨forall_mem_append.mpr ⟨hbackground, hdeclared⟩, hsections⟩)
  have hformulas : ∀ sections : List DocumentSection, ((sections.filter (!·.formulas.isEmpty)).flatMap
      fun s => s.formulas.map (statedAs r)) = (sections.flatMap (·.formulas)).map (statedAs r) := by
    intro sections
    induction sections with
    | nil => rfl
    | cons s sections ih => cases hs : s.formulas <;> simpa [hs] using ih
  rw [map_append, map_append, map_map, map_map, ← Option.toList_map] at hsays
  refine (Tff.Says.readings_eq (t := tptpText r sections) hsays).trans ?_
  have hpreamble : (declarations r).toList.flatMap (fun _ => Tff.declared r) = Tff.declared r := by
    cases hd : declarations r with
    | none => exact (Tff.declared_eq_nil hd).symm
    | some => exact append_nil _
  simp only [flatMap_append, flatMap_map, flatMap_cons, flatMap_nil, hpreamble, hformulas,
    Tff.preamble, append_nil, append_assoc]

end Document

namespace Problem

/-- What is written of a problem stays on its lines. -/
structure OnLines (p : Problem) : Prop where
  declared : ∀ x ∈ Tff.declared p.registry, x.Legible
  /-- The names that statements were given. -/
  names : ∀ e ∈ p.entries, Tff.IsLabel e.statement.name
  /-- The comments before statements. -/
  descriptions : ∀ e ∈ p.entries, Tff.OnLine e.statement.description
  formulas : ∀ e ∈ p.entries, Tff.OnLine (Document.formulaText p.registry e.statement.formula)

variable {p : Problem} {role? : Nat → Entry → Option Text}

/-- What is written is the statements that have a role. -/
theorem mem_sectionsWith {a : AnnotatedFormula} :
    a ∈ (p.sectionsWith role?).flatMap (·.formulas) ↔
      ∃ i e role, p.entries[i]? = some e ∧ role? i e = some role ∧ p.annotated i e role = a := by
  simp only [sectionsWith, mem_flatMap, mem_map, exists_exists_and_eq_and,
    mem_filterMap, mem_filter, Prod.exists, mem_zipIdx_iff_getElem?, Option.map_eq_some_iff]
  constructor
  · rintro ⟨_, _, e, i, ⟨he, _⟩, role, hrole, rfl⟩
    exact ⟨i, e, role, he, hrole, rfl⟩
  · rintro ⟨i, e, role, he, hrole, rfl⟩
    exact ⟨e.part, mem_all_sections e.part, e, i, ⟨he, by simp⟩, role, hrole, rfl⟩

theorem isLabel_nameAfter (before : List Entry) {e : Entry} (h : Tff.IsLabel e.statement.name) :
    Tff.IsLabel (nameAfter before e) := by
  have hnumeral : ∀ (n : Nat) (b : UInt8), Text.isDigit b = false → b ∉ Text.ofNat n :=
    fun n b hb hmem => absurd (Text.ofNat_isDigit n b hmem) (by simp [hb])
  rw [nameAfter]
  split
  · refine ⟨Tff.onLine_append.mpr ⟨by decide, hnumeral _ _ (by decide)⟩, fun hmem => ?_⟩
    exact (mem_append.mp hmem).elim (by decide) (hnumeral _ _ (by decide))
  · exact h

/-- The statements that have a role are stated in it, under their names. -/
theorem OnLines.readings_eq (h : p.OnLines)
    (hroles : ∀ i e role, role? i e = some role → Tff.IsLabel role) :
    Tff.readings (Document.tptpText p.registry (p.sectionsWith role?)) = Tff.preamble p.registry ++
      ((p.sectionsWith role?).flatMap (·.formulas)).map (Document.statedAs p.registry) := by
  refine Document.readings_tptpText h.declared (fun s hs => ?_) fun a ha => ?_
  · obtain ⟨part, hpart, rfl⟩ := mem_map.mp hs
    exact (by decide : ∀ part ∈ SectionKind.all, Tff.OnLine part.title) part hpart
  · obtain ⟨i, e, role, he, hrole, rfl⟩ := mem_sectionsWith.mp ha
    have hmem := mem_of_getElem? he
    exact ⟨⟨isLabel_nameAfter _ (h.names e hmem), hroles i e role hrole, h.formulas e hmem⟩,
      h.descriptions e hmem⟩

end Problem

end LogicProgram
