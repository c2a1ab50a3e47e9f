import LogicProgram.Proofs.Problem.Run

/-!
# The texts of proof obligations

A problem lists its statements section by section, and gives a name to each. Whatever
the statuses are, the formulas that are written are some of those of the whole problem,
with the same names and in the same order. They can be written if all formulas can.
-/

namespace LogicProgram

open List

namespace Document

/-- Pieces that are written come before what follows them. -/
theorem result_append (ts : List Text) (d : Document) :
    result (ts.map .ok ++ d) = d.result.map (ts.flatten ++ ·) := by
  induction ts with
  | nil =>
    rw [map_nil, nil_append]
    cases d.result <;> rfl
  | cons t ts ih =>
    have hcons : result (.ok t :: (ts.map .ok ++ d)) = (result (ts.map .ok ++ d)).map (t ++ ·) := by
      unfold result
      rw [failure?, written]
      cases failure? (ts.map .ok ++ d) <;> rfl
    rw [map_cons, cons_append, hcons, ih]
    cases d.result with
    | error e => rfl
    | ok u => exact congrArg Except.ok (append_assoc t ts.flatten u).symm

/-- Titled blocks of lines with an empty line between neighbours. -/
def blocks (gs : List (Text × List Text)) : Text :=
  Text.join "\n" (gs.map fun g => heading g.1 ++ g.2.flatten)

theorem result_titled (gs : List (Text × List Text)) :
    (titled (gs.map fun g => (g.1, g.2.map .ok))).result = .ok (blocks gs) := by
  induction gs with
  | nil => rfl
  | cons g gs ih =>
    cases gs with
    | nil =>
      have hone := result_append (heading g.1 :: g.2) []
      rw [append_nil] at hone
      rw [map_singleton, titled]
      exact hone.trans (congrArg Except.ok (append_nil _))
    | cons g' gs =>
      have hmore := result_append (heading g.1 :: g.2 ++ [Text.ofString "\n"])
        (titled ((g' :: gs).map fun g => (g.1, g.2.map .ok)))
      rw [ih] at hmore
      simp only [map_cons, map_nil, titled, map_append, cons_append, append_assoc, nil_append] at hmore ⊢
      rw [hmore]
      simp [blocks, Text.join, Except.map]

/-- A formula as it is written in proof problems. -/
def formulaText (r : Registry) (f : Formula) : Text :=
  match f.tptp r with
  | .ok t => t
  | .error _ => []

/-- A comment line, if there is a comment, and the line that states a formula. -/
def statementLine (r : Registry) (a : AnnotatedFormula) : Text :=
  comment a.description ++
    ("tff(" ++ a.name ++ ", " ++ a.role ++ ", " ++ formulaText r a.formula ++ ").\n")

/-- The text of a proof problem: the types and axioms of the background theory, the types of the
declared symbols, and the sections that hold something, one line for each formula. -/
def tptpText (r : Registry) (sections : List DocumentSection) : Text :=
  blocks ([(Text.ofString "anthem types", [Tff.Background.typesText]),
      ("anthem axioms", [Tff.Background.axiomsText])]
    ++ ((declarations r).map fun t => (Text.ofString "types", [t])).toList
    ++ (sections.filter (!·.formulas.isEmpty)).map fun s => (s.title, s.formulas.map (statementLine r)))

/-- A proof problem can be written if its formulas can. -/
theorem result_tptp {r : Registry} {sections : List DocumentSection}
    (h : ∀ a ∈ sections.flatMap (·.formulas), ∃ t, a.formula.tptp r = .ok t) :
    (tptp r sections).result = .ok (tptpText r sections) := by
  have hline : ∀ a ∈ sections.flatMap (·.formulas), tptpLine r a = .ok (statementLine r a) := by
    intro a ha
    obtain ⟨t, ht⟩ := h a ha
    rw [tptpLine, statementLine, formulaText, ht]
    rfl
  have hsections : ofSections (tptpLine r) sections = ((sections.filter (!·.formulas.isEmpty)).map
      fun s => (s.title, s.formulas.map (statementLine r))).map fun g => (g.1, g.2.map .ok) := by
    rw [ofSections, map_map]
    refine map_congr_left fun s hs => ?_
    rw [Function.comp_apply, map_map]
    refine congrArg (Prod.mk s.title) (map_congr_left fun a ha => ?_)
    exact hline a (mem_flatMap.mpr ⟨s, mem_of_mem_filter hs, ha⟩)
  rw [tptpText, ← result_titled, tptp, hsections]
  cases declarations r <;> rfl

end Document

namespace Problem

/-- The statements stand section by section. -/
def Ordered (p : Problem) : Prop := p.entries.Pairwise fun e e' => e.part.index ≤ e'.part.index

theorem ordered_empty (r : Registry) : (empty r).Ordered := List.Pairwise.nil

/-- A statement is added after its section and before later ones. -/
theorem Ordered.add {p : Problem} (hp : p.Ordered) (part : SectionKind) (s : Statement) :
    (p.add part s).Ordered := by
  have hbefore : ∀ e ∈ p.entries.takeWhile (fun e => e.part.index ≤ part.index),
      e.part.index ≤ part.index := by
    have hall := all_takeWhile (p := fun e : Entry => decide (e.part.index ≤ part.index))
      (l := p.entries)
    exact fun e he => of_decide_eq_true (all_eq_true.mp hall e he)
  have hafter : ∀ e ∈ p.entries.dropWhile (fun e => e.part.index ≤ part.index),
      part.index < e.part.index := by
    have hsorted := List.Pairwise.sublist
      (dropWhile_sublist fun e : Entry => decide (e.part.index ≤ part.index)) hp
    have hfirst := head?_dropWhile_not (fun e : Entry => e.part.index ≤ part.index) p.entries
    cases hrest : p.entries.dropWhile fun e => e.part.index ≤ part.index with
    | nil => exact nofun
    | cons e rest =>
      rw [hrest] at hfirst hsorted
      have he : part.index < e.part.index := by simpa using hfirst
      rw [pairwise_cons] at hsorted
      exact forall_mem_cons.mpr ⟨he, fun e' he' => Nat.lt_of_lt_of_le he (hsorted.1 e' he')⟩
  refine pairwise_append.mpr ⟨hp.sublist (takeWhile_sublist _),
    pairwise_cons.mpr ⟨fun e he => Nat.le_of_lt (hafter e he), hp.sublist (dropWhile_sublist _)⟩, ?_⟩
  intro e he e' he'
  rcases mem_cons.mp he' with rfl | he'
  · exact hbefore e he
  · exact Nat.le_trans (hbefore e he) (Nat.le_of_lt (hafter e' he'))

/-- Sections one after the other hold all that stands in them. -/
theorem flatMap_filter_part {α : Type} {part : α → SectionKind} {l : List α}
    (h : l.Pairwise fun a b => (part a).index ≤ (part b).index) :
    SectionKind.all.flatMap (fun k => l.filter (part · == k)) = l := by
  induction l with
  | nil => rfl
  | cons a l ih =>
    rw [pairwise_cons] at h
    have ih := ih h.2
    have hsorted : SectionKind.all.Pairwise fun k k' => k.index < k'.index := by decide
    obtain ⟨before, after, hall⟩ := append_of_mem (mem_all_sections (part a))
    rw [hall] at ih hsorted ⊢
    rw [pairwise_append, pairwise_cons] at hsorted
    -- The sections before that of the first have nothing, those after it are in the rest.
    have hbefore : ∀ k ∈ before, l.filter (part · == k) = [] := by
      intro k hk
      rw [filter_eq_nil_iff]
      intro b hb heq
      have hlt := hsorted.2.2 k hk (part a) mem_cons_self
      have hle := h.1 b hb
      rw [beq_iff_eq.mp heq] at hle
      omega
    have hfirst : ∀ k ∈ before, part a ≠ k := fun k hk heq =>
      Nat.lt_irrefl _ (heq ▸ hsorted.2.2 k hk (part a) mem_cons_self)
    have hlast : ∀ k ∈ after, part a ≠ k := fun k hk heq =>
      Nat.lt_irrefl _ (heq ▸ hsorted.2.1.1 k hk)
    have hskip : ∀ k, part a ≠ k → (a :: l).filter (part · == k) = l.filter (part · == k) :=
      fun k hk => filter_cons_of_neg (by simpa using hk)
    have hnone : before.flatMap (fun k => l.filter (part · == k)) = [] := by simpa using hbefore
    rw [flatMap_append, flatMap_cons, hnone, nil_append] at ih
    rw [flatMap_append, flatMap_cons, flatMap_congr fun k hk => hskip k (hfirst k hk),
      flatMap_congr fun k hk => hskip k (hlast k hk), hnone, filter_cons_of_pos (by simp),
      nil_append, cons_append, ih]

/-- The name of a statement after others. One without a name gets the number that it
has among those of its section. -/
def nameAfter (before : List Entry) (e : Entry) : Text :=
  if e.statement.name.isEmpty then
    "statement_" ++ Text.ofNat
      (before.countP (fun b => b.part == e.part && b.statement.name.isEmpty) + 1)
  else e.statement.name

/-- The statement at a position as it is written in a role. -/
def annotated (p : Problem) (i : Nat) (e : Entry) (role : Text) : AnnotatedFormula :=
  { name := nameAfter (p.entries.take i) e, description := e.statement.description, role,
    formula := e.statement.formula }

/-- The sections with those positions that have a role. -/
def sectionsWith (p : Problem) (role? : Nat → Entry → Option Text) : List DocumentSection :=
  SectionKind.all.map fun part =>
    { title := part.title
      formulas := (p.entries.zipIdx.filter (·.1.part == part)).filterMap fun x =>
        (role? x.2 x.1).map (p.annotated x.2 x.1) }

/-- Counting along a section gives the names by position. -/
theorem named_eq {p : Problem} (part : SectionKind) (role? : Statement → Option Text)
    {before l : List Entry} (h : p.entries = before ++ l) :
    ((named (before.countP fun b => b.part == part && b.statement.name.isEmpty)
        ((l.filter (·.part == part)).map (·.statement))).filterMap fun (name, s) =>
          (role? s).map fun role => { name, description := s.description, role, formula := s.formula }) =
      ((l.zipIdx before.length).filter (·.1.part == part)).filterMap fun x =>
        (role? x.1.statement).map (p.annotated x.2 x.1) := by
  induction l generalizing before with
  | nil => rfl
  | cons e l ih =>
    have hsplit : p.entries = (before ++ [e]) ++ l := by
      rw [h, append_assoc, singleton_append]
    have ih := ih hsplit
    rw [countP_append, countP_singleton, length_append, length_singleton] at ih
    have htake : p.entries.take before.length = before := by rw [h, take_left]
    rw [zipIdx_cons, filter_cons, filter_cons]
    by_cases hpart : e.part = part
    · simp only [hpart, beq_self_eq_true, if_true, map_cons, named, Bool.true_and] at ih ⊢
      have hannotated : p.annotated before.length e = fun role =>
          { name := nameAfter before e, description := e.statement.description, role,
            formula := e.statement.formula } := by
        funext role
        rw [annotated, htake]
      rw [filterMap_cons]
      simp only [hannotated]
      rw [nameAfter, hpart, ← ih]
      split
      · simp [filterMap_cons]
      · simp [filterMap_cons]
    · simpa [hpart] using ih

/-- Names do not depend on which statements have a role. -/
theorem sections_eq (p : Problem) (role? : Statement → Option Text) :
    p.sections role? = p.sectionsWith fun _ e => role? e.statement := by
  refine map_congr_left fun part _ => ?_
  have hnamed := named_eq part role? (nil_append p.entries).symm
  exact congrArg (fun formulas => ({ title := part.title, formulas } : DocumentSection)) hnamed

/-- The problem with a status for every position. -/
def marked (p : Problem) (status : Nat → Entry → ProofStatus) : Problem :=
  { p with entries := p.entries.mapIdx fun i e => e.mark (status i e) }

variable {p : Problem} {status status' : Nat → Entry → ProofStatus}

@[simp] theorem marked_registry : (p.marked status).registry = p.registry := rfl

theorem getElem?_marked (i : Nat) :
    (p.marked status).entries[i]? = (p.entries[i]?).map fun e => e.mark (status i e) :=
  getElem?_mapIdx

theorem zipIdx_marked : (p.marked status).entries.zipIdx =
    p.entries.zipIdx.map fun x => (x.1.mark (status x.2 x.1), x.2) := by
  refine ext_getElem? fun i => ?_
  rw [getElem?_zipIdx, getElem?_marked, getElem?_map, getElem?_zipIdx, Option.map_map,
    Option.map_map]
  cases p.entries[i]? with
  | none => rfl
  | some e => simp

theorem reset_eq (d : Direction) (p : Problem) :
    p.reset d = p.marked fun _ e => e.statement.initialStatus d := by
  have he : (p.reset d).entries = (p.marked fun _ e => e.statement.initialStatus d).entries := by
    refine ext_getElem? fun i => ?_
    rw [getElem?_marked]
    exact getElem?_map
  exact congrArg (fun entries => { p with entries }) he

theorem marked_congr (h : ∀ i e, p.entries[i]? = some e → status i e = status' i e) :
    p.marked status = p.marked status' := by
  have he : (p.marked status).entries = (p.marked status').entries := by
    refine ext_getElem? fun i => ?_
    rw [getElem?_marked, getElem?_marked]
    cases he : p.entries[i]? with
    | none => rfl
    | some e => rw [Option.map_some, Option.map_some, h i e he]
  exact congrArg (fun entries => { p with entries }) he

theorem marked_setStatus (i : Nat) (now : ProofStatus) :
    (p.marked status).setStatus i now = p.marked fun j e => if i = j then now else status j e := by
  have he : ((p.marked status).setStatus i now).entries =
      (p.marked fun j e => if i = j then now else status j e).entries := by
    refine ext_getElem? fun j => ?_
    rw [getElem?_setStatus, getElem?_marked, getElem?_marked]
    split
    · rw [Option.map_map]
      rfl
    · rfl
  exact congrArg (fun entries => { p with entries }) he

theorem sameStatements_marked : SameStatements p (p.marked status) := by
  refine ⟨rfl, ext_getElem? fun i => ?_⟩
  rw [getElem?_map, getElem?_map, getElem?_marked, Option.map_map]
  rfl

theorem Ordered.marked (hp : p.Ordered) (status : Nat → Entry → ProofStatus) : (p.marked status).Ordered := by
  have hplaces : (p.marked status).entries.map (·.part.index) = p.entries.map (·.part.index) := by
    refine ext_getElem? fun i => ?_
    rw [getElem?_map, getElem?_map, getElem?_marked, Option.map_map]
    rfl
  have hsorted : (p.entries.map (·.part.index)).Pairwise (· ≤ ·) := pairwise_map.mpr hp
  rw [← hplaces] at hsorted
  exact pairwise_map.mp hsorted

theorem nameAfter_unmarked (before : List Entry) (e : Entry) :
    nameAfter (before.map Entry.unmarked) e.unmarked = nameAfter before e := by
  rw [nameAfter, countP_map]
  rfl

/-- A statement keeps its name whatever becomes of its proof. -/
theorem sectionsWith_marked (role? : Nat → Entry → Option Text) :
    (p.marked status).sectionsWith role? =
      p.sectionsWith fun i e => role? i (e.mark (status i e)) := by
  have hname : ∀ i e role, (p.marked status).annotated i (e.mark (status i e)) role =
      p.annotated i e role := by
    intro i e role
    rw [annotated, annotated, ← nameAfter_unmarked, ← nameAfter_unmarked (p.entries.take i), map_take,
      map_take, ← sameStatements_marked.entries]
    rfl
  refine map_congr_left fun part _ => ?_
  rw [zipIdx_marked, filter_map, filterMap_map]
  simp only [Function.comp_def, funext (hname _ _)]
  rfl

theorem sections_marked (role? : Statement → Option Text) : (p.marked status).sections role? =
      p.sectionsWith fun i e => role? (e.mark (status i e)).statement := by
  rw [sections_eq, sectionsWith_marked]

/-- The problem as a whole is written with every statement as an axiom. -/
theorem document_eq (p : Problem) (format : Format) : p.document format =
      .ofFormat format p.registry (p.sectionsWith fun _ _ => some "axiom") := by
  rw [document, sections_eq]

theorem document_marked (format : Format) : (p.marked status).document format = p.document format := by
  rw [document_eq, document_eq, sectionsWith_marked, marked_registry]

end Problem

end LogicProgram
