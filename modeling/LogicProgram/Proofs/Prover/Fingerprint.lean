import LogicProgram.Configuration
import LogicProgram.Proofs.Rendering.Naming

/-!
# What fingerprints tell apart

The fingerprint of a call of the prover is its command and its arguments with blanks
between them. It says what stands between any two blanks, and no more: it is not known
which blanks belong to an argument.
-/

namespace LogicProgram

open List

namespace ProverOptions

/-- The texts of a call as a line shows them. -/
def shown (o : ProverOptions) : List Text :=
  o.command :: if o.fullArguments = [] then [[]] else o.fullArguments

/-- What stands between the blanks of a call. -/
def pieces (o : ProverOptions) : List Text := o.shown.flatMap (·.splitOn 0x20)

/-- A call without blanks of its own. -/
def Blankless (o : ProverOptions) : Prop := ∀ t ∈ o.command :: o.arguments, 0x20 ∉ t

instance (o : ProverOptions) : Decidable o.Blankless :=
  inferInstanceAs (Decidable (∀ t ∈ o.command :: o.arguments, 0x20 ∉ t))

/-- The pieces are those of the texts, one after another. -/
theorem splitOn_join {t : Text} {ts : List Text} :
    (Text.join " " (t :: ts)).splitOn 0x20 = (t :: ts).flatMap (·.splitOn 0x20) := by
  induction ts generalizing t with
  | nil => rw [Text.join, flatMap_singleton]
  | cons u ts ih => rw [Text.join, append_assoc, flatMap_cons, ← ih]; exact splitOn_append_cons_self t _

theorem fingerprint_eq_join (o : ProverOptions) : o.fingerprint = Text.join " " o.shown := by
  rw [fingerprint, shown]
  cases o.fullArguments <;> rfl

theorem splitOn_fingerprint (o : ProverOptions) : o.fingerprint.splitOn 0x20 = o.pieces := by
  rw [fingerprint_eq_join, shown, splitOn_join]
  rfl

/-- The time limit has no blanks. -/
theorem Blankless.shown {o : ProverOptions} (h : o.Blankless) : ∀ t ∈ o.shown, 0x20 ∉ t := by
  have hfull : ∀ t ∈ o.fullArguments, 0x20 ∉ t := by
    rw [fullArguments]
    split
    · have hlimit : ∀ n, 0x20 ∉ Text.ofNat n := fun n hn => absurd (Text.ofNat_isDigit n _ hn) (by decide)
      simp only [forall_mem_append, forall_mem_cons]
      exact ⟨(forall_mem_cons.mp h).2, by decide, hlimit _, nofun⟩
    · exact (forall_mem_cons.mp h).2
  refine forall_mem_cons.mpr ⟨(forall_mem_cons.mp h).1, ?_⟩
  split
  · simp
  · exact hfull

/-- Without blanks, a text is a piece. -/
theorem Blankless.pieces_eq {o : ProverOptions} (h : o.Blankless) : o.pieces = o.shown := by
  have hone : ∀ t ∈ o.shown, t.splitOn 0x20 = [t] := fun t ht => splitOn_eq_singleton (h.shown t ht)
  rw [pieces, flatMap_congr hone, flatMap_singleton']

/-- No argument looks like an empty one. -/
theorem shown_eq_iff (o o' : ProverOptions) : o.shown = o'.shown ↔ o.command = o'.command ∧
    (o.fullArguments = o'.fullArguments ∨ o.fullArguments ++ o'.fullArguments = [[]]) := by
  rw [shown, shown, cons.injEq]
  generalize o.fullArguments = args, o'.fullArguments = args'
  rcases args with _ | ⟨t, ts⟩ <;> rcases args' with _ | ⟨t', ts'⟩ <;> simp [eq_comm]

/-- Fingerprints are the same exactly if the pieces are. Without blanks in them, commands and
arguments are then the same, unless one call has no argument and the other only an empty one. -/
theorem fingerprint_eq_iff (o o' : ProverOptions) : (o.fingerprint = o'.fingerprint ↔ o.pieces = o'.pieces) ∧
    (o.Blankless → o'.Blankless → (o.fingerprint = o'.fingerprint ↔ o.command = o'.command ∧
      (o.fullArguments = o'.fullArguments ∨ o.fullArguments ++ o'.fullArguments = [[]]))) := by
  have hpieces : o.fingerprint = o'.fingerprint ↔ o.pieces = o'.pieces := by
    rw [← splitOn_fingerprint, ← splitOn_fingerprint]
    refine ⟨congrArg _, fun h => ?_⟩
    calc o.fingerprint = [0x20].intercalate (o.fingerprint.splitOn 0x20) := (intercalate_splitOn 0x20).symm
      _ = o'.fingerprint := by rw [h, intercalate_splitOn]
  refine ⟨hpieces, fun h h' => ?_⟩
  rw [hpieces, h.pieces_eq, h'.pieces_eq, shown_eq_iff]

/-- The standard call with other arguments. -/
def ofArguments (arguments : List String) : ProverOptions :=
  { standard with arguments := arguments.map Text.ofString }

/-- Another number of cores is another fingerprint. -/
theorem fingerprint_eq_iff_cores : (ofArguments ["--cores", "8"]).Blankless ∧ (ofArguments ["--cores", "9"]).Blankless ∧
    (ofArguments ["--cores", "8"]).fingerprint ≠ (ofArguments ["--cores", "9"]).fingerprint := by
  have height : (ofArguments ["--cores", "8"]).Blankless := by decide +kernel
  have hnine : (ofArguments ["--cores", "9"]).Blankless := by decide +kernel
  exact ⟨height, hnine, fun h => absurd (((fingerprint_eq_iff _ _).2 height hnine).mp h) (by decide +kernel)⟩

end ProverOptions

/-- Two valid configurations have the same fingerprint, but not the same arguments: a blank inside of an
argument looks like one between two arguments. -/
theorem Configuration.fingerprint_proverOptions_shared : ∃ c c' : Configuration,
    c.validate = .ok c ∧ c'.validate = .ok c' ∧ c.proverOptions.fingerprint = c'.proverOptions.fingerprint ∧
    c.proverOptions.fullArguments ≠ c'.proverOptions.fullArguments :=
  ⟨{ standard with prover := { standard.prover with arguments := ["--cores 8"] } },
    { standard with prover := { standard.prover with arguments := ["--cores", "8"] } }, by decide +kernel⟩

end LogicProgram
