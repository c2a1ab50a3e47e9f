import LogicProgram.Prover.Verdict
import Mathlib.Data.List.TakeWhile
import Mathlib.Tactic.Common

/-!
# What counts as a proof

A conjecture counts as proven if the prover ends normally and its output has a remark
that gives a refutation as the reason for the end of the search.
-/

namespace LogicProgram.Verdict

open List

/-- The number of a worker in parentheses, or nothing. -/
def IsWorker (t : Text) : Prop :=
  t = [] ∨ ∃ digits : Text, digits ≠ [] ∧ (∀ b ∈ digits, Text.isDigit b = true) ∧
    t = "(" ++ digits ++ ")"

/-- An output has a remark that says something, and goes on with `rest` after it. -/
def Says (stdout said rest : Text) : Prop :=
  ∃ before worker : Text, IsWorker worker ∧ stdout = before ++ "% " ++ worker ++ said ++ rest

/-- What is dropped is nothing or the number of a worker. -/
theorem exists_worker (t : Text) : ∃ worker, IsWorker worker ∧ t = worker ++ dropWorker t := by
  unfold dropWorker
  split
  next b r =>
    split
    next hopen =>
      split
      next d ds c rest hdigits hrest =>
        split
        next hclose =>
          refine ⟨"(" ++ (d :: ds) ++ ")", .inr ⟨d :: ds, nofun, fun e he => ?_, rfl⟩, ?_⟩
          · rw [← hdigits] at he
            exact mem_takeWhile_imp he
          · have hr : r = (d :: ds) ++ c :: rest := by
              rw [← hdigits, ← hrest, takeWhile_append_dropWhile]
            rw [hr, show b = '('.toUInt8 from beq_iff_eq.mp hopen,
              show c = ')'.toUInt8 from beq_iff_eq.mp hclose, append_assoc, append_assoc]
            rfl
        next => exact ⟨[], .inl rfl, rfl⟩
      next => exact ⟨[], .inl rfl, rfl⟩
    next => exact ⟨[], .inl rfl, rfl⟩
  next => exact ⟨[], .inl rfl, rfl⟩

/-- The number of a worker is dropped before anything but a parenthesis. -/
theorem dropWorker_append {worker t : Text} (hworker : IsWorker worker)
    (ht : ∀ b ∈ t.head?, Text.isChar '(' b = false) : dropWorker (worker ++ t) = t := by
  rcases hworker with rfl | ⟨digits, hne, hdigits, rfl⟩
  · cases t with
    | nil => rfl
    | cons b r => simp [dropWorker, ht b rfl]
  · obtain ⟨d, ds, rfl⟩ := exists_cons_of_ne_nil hne
    have hstop : Text.isDigit ')'.toUInt8 = false := by decide
    have hread : ("(" ++ (d :: ds) ++ ")" : Text) ++ t = '('.toUInt8 :: ((d :: ds) ++ ')'.toUInt8 :: t) := by
      rw [append_assoc, append_assoc]
      rfl
    have htake : ((d :: ds) ++ ')'.toUInt8 :: t).takeWhile Text.isDigit = d :: ds := by
      rw [takeWhile_append_of_pos hdigits, takeWhile_cons_of_neg (by simp [hstop]),
        append_nil]
    have hdrop : ((d :: ds) ++ ')'.toUInt8 :: t).dropWhile Text.isDigit = ')'.toUInt8 :: t := by
      rw [dropWhile_append_of_pos hdigits, dropWhile_cons_of_neg (by simp [hstop])]
    rw [hread]
    simp only [dropWorker, htake, hdrop]
    rfl

theorem mem_remarks_cons {b : UInt8} {r s : Text} : s ∈ remarks (b :: r) ↔
    (∃ rest, b :: r = ("% " : Text) ++ rest ∧ dropWorker rest = s) ∨ s ∈ remarks r := by
  have hmark : ("% " : Text) = ['%'.toUInt8, ' '.toUInt8] := rfl
  simp only [hmark, cons_append, nil_append, List.cons.injEq]
  conv_lhs => rw [remarks.eq_def]
  dsimp only
  split
  next c rest hpercent =>
    have hb : b = '%'.toUInt8 := beq_iff_eq.mp hpercent
    split
    next hspace =>
      have hc : c = ' '.toUInt8 := beq_iff_eq.mp hspace
      rw [mem_cons, eq_comm]
      simp [hb, hc]
    next hspace =>
      have hc : c ≠ ' '.toUInt8 := fun he => hspace (beq_iff_eq.mpr he)
      simp [hc]
  next hother =>
    refine (or_iff_right ?_).symm
    rintro ⟨rest, ⟨rfl, rfl⟩, _⟩
    exact hother _ rest rfl rfl

/-- The remarks of an output are what follows a percent sign and a space. -/
theorem mem_remarks {stdout s : Text} : s ∈ remarks stdout ↔
    ∃ before rest : Text, stdout = before ++ "% " ++ rest ∧ dropWorker rest = s := by
  induction stdout with
  | nil =>
    refine ⟨nofun, ?_⟩
    rintro ⟨before, rest, h, _⟩
    obtain ⟨hmark, _⟩ := append_eq_nil_iff.mp h.symm
    exact absurd (append_eq_nil_iff.mp hmark).2 (by decide)
  | cons b r ih =>
    rw [mem_remarks_cons, ih]
    constructor
    · rintro (⟨rest, hrest, hs⟩ | ⟨before, rest, rfl, hs⟩)
      · exact ⟨[], rest, hrest, hs⟩
      · exact ⟨b :: before, rest, rfl, hs⟩
    · rintro ⟨before, rest, h, hs⟩
      cases before with
      | nil => exact .inl ⟨rest, h, hs⟩
      | cons c before =>
        obtain ⟨rfl, rfl⟩ := List.cons.inj h
        exact .inr ⟨before, rest, rfl, hs⟩

/-- What remarks say is on their list, unless it starts like a worker. -/
theorem says_iff {stdout said rest : Text}
    (hsaid : ∀ b ∈ (said ++ rest).head?, Text.isChar '(' b = false) :
    Says stdout said rest ↔ said ++ rest ∈ remarks stdout := by
  rw [mem_remarks]
  constructor
  · rintro ⟨before, worker, hworker, rfl⟩
    refine ⟨before, worker ++ (said ++ rest), ?_, dropWorker_append hworker hsaid⟩
    simp only [append_assoc]
  · rintro ⟨before, text, rfl, htext⟩
    obtain ⟨worker, hworker, hsplit⟩ := exists_worker text
    refine ⟨before, worker, hworker, ?_⟩
    rw [hsplit, htext]
    simp only [append_assoc]

theorem after?_eq_some {beginning t rest : Text} :
    after? beginning t = some rest ↔ t = beginning ++ rest := by
  unfold after?
  split
  next h =>
    obtain ⟨tail, rfl⟩ := isPrefixOf_iff_prefix.mp h
    simp
  next h =>
    refine ⟨nofun, fun ht => absurd ?_ h⟩
    exact isPrefixOf_iff_prefix.mpr ⟨rest, ht.symm⟩

/-- A remark that gives a reason does not start like a worker. -/
theorem says_reason_iff {stdout reason rest : Text} :
    Says stdout ("Termination reason: " ++ reason) rest ↔
      ("Termination reason: " ++ reason : Text) ++ rest ∈ remarks stdout := by
  refine says_iff fun b hb => ?_
  obtain rfl : 'T'.toUInt8 = b := Option.some.inj hb
  decide

/-- A reason is found wherever a remark gives it and its word ends. -/
theorem any_isReason {stdout reason : Text} : (remarks stdout).any (isReason reason) = true ↔
    ∃ rest, Says stdout ("Termination reason: " ++ reason) rest ∧ endsWord rest = true := by
  simp only [any_eq_true, says_reason_iff]
  constructor
  · rintro ⟨s, hs, hreason⟩
    unfold isReason at hreason
    split at hreason
    next rest hrest =>
      rw [after?_eq_some.mp hrest] at hs
      exact ⟨rest, hs, hreason⟩
    next => cases hreason
  · rintro ⟨rest, hs, hrest⟩
    refine ⟨_, hs, ?_⟩
    rw [isReason, after?_eq_some.mpr rfl]
    exact hrest

/-- A space or a carriage return. -/
def isTrailing (b : UInt8) : Bool := Text.isChar ' ' b || Text.isChar '\r' b

/-- Nothing but spaces and carriage returns stands before the end of the line or of the text. -/
def endsLine (t : Text) : Bool :=
  match t.dropWhile isTrailing with
  | [] => true
  | b :: _ => Text.isChar '\n' b

theorem endsWord_of_endsLine {t : Text} (h : endsLine t = true) : endsWord t = true := by
  cases t with
  | nil => rfl
  | cons b r =>
    have hbyte : ∀ c : UInt8, c = ' '.toUInt8 ∨ c = '\r'.toUInt8 ∨ c = '\n'.toUInt8 →
        isWordByte c = false := by
      rintro c (rfl | rfl | rfl) <;> decide
    have hb : b = ' '.toUInt8 ∨ b = '\r'.toUInt8 ∨ b = '\n'.toUInt8 := by
      by_cases htrailing : isTrailing b = true
      · rcases Bool.or_eq_true_iff.mp htrailing with hspace | hreturn
        · exact .inl (beq_iff_eq.mp hspace)
        · exact .inr (.inl (beq_iff_eq.mp hreturn))
      · rw [endsLine, dropWhile_cons_of_neg htrailing] at h
        exact .inr (.inr (beq_iff_eq.mp h))
    rw [endsWord, hbyte b hb]
    rfl

/-- A proof needs the exit code zero and a refutation as the reason. -/
theorem exists_proven {exitCode : Int} {stdout stderr : Text} :
    (∃ v, ofOutput exitCode stdout stderr = .ok v ∧ v.outcome = .proven) ↔
      exitCode = 0 ∧ (remarks stdout).any (isReason "Refutation") = true := by
  constructor
  · rintro ⟨v, h, hproven⟩
    unfold ofOutput at h
    dsimp only at h
    split at h
    next =>
      split at h
      · cases h
        cases hproven
      · cases h
    next hexit =>
      split at h
      next hrefutation => exact ⟨by simpa using hexit, hrefutation⟩
      next =>
        split at h
        · cases h
          cases hproven
        · split at h
          · cases h
            cases hproven
          · cases h
  · rintro ⟨rfl, hrefutation⟩
    refine ⟨⟨.proven, seconds? stdout⟩, ?_, rfl⟩
    simp [ofOutput, hrefutation]

/-- An output counts as a proof if and only if the exit code is zero and a remark gives a
refutation as the reason for the end, either as the whole reason, up to the end of the line or
of the output, or as the first word of a longer reason. -/
theorem ofOutput_proven_iff (exitCode : Int) (stdout stderr : Text) :
    (∃ v, ofOutput exitCode stdout stderr = .ok v ∧ v.outcome = .proven) ↔
      exitCode = 0 ∧
        ((∃ rest, Says stdout "Termination reason: Refutation" rest ∧ endsLine rest = true) ∨
          ∃ rest, Says stdout "Termination reason: Refutation" rest ∧
            endsWord rest = true ∧ endsLine rest = false) := by
  rw [exists_proven, any_isReason, ← exists_or]
  refine and_congr_right' (exists_congr fun rest => ?_)
  show Says stdout "Termination reason: Refutation" rest ∧ endsWord rest = true ↔ _
  rw [← and_or_left]
  refine and_congr_right' ⟨fun hword => ?_, ?_⟩
  · cases hline : endsLine rest with
    | true => exact .inl rfl
    | false => exact .inr ⟨hword, rfl⟩
  · rintro (hline | ⟨hword, _⟩)
    · exact endsWord_of_endsLine hline
    · exact hword

/-- The search was given up without a proof. -/
def refutationNotFound : Text :=
  "% (4242)Termination reason: Refutation not found, incomplete strategy\n"

/-- The reason starts with the word looked for, but it is not a refutation: no remark of the
output gives one as the whole reason. -/
theorem ofOutput_refutationNotFound :
    ofOutput 0 refutationNotFound [] = .ok ⟨.proven, none⟩ ∧
      ¬ ∃ rest, Says refutationNotFound "Termination reason: Refutation" rest ∧
        endsLine rest = true := by
  refine ⟨by decide, ?_⟩
  rintro ⟨rest, hsays, hline⟩
  have hgoesOn : (remarks refutationNotFound).all (fun s =>
      (after? "Termination reason: Refutation" s).all (!endsLine ·)) = true := by decide
  have hmem : ("Termination reason: Refutation" : Text) ++ rest ∈ remarks refutationNotFound :=
    says_reason_iff.mp hsays
  have hrest := all_eq_true.mp hgoesOn _ hmem
  rw [after?_eq_some.mpr rfl] at hrest
  simp [hline] at hrest

end LogicProgram.Verdict
