import LogicProgram.Main
import LogicProgram.Proofs.Completion.Conservation
import LogicProgram.Proofs.Completion.Cycles
import LogicProgram.Proofs.Completion.Inlining
import LogicProgram.Proofs.Formula.FreeVariables
import LogicProgram.Proofs.Formula.Polarity
import LogicProgram.Proofs.Parsing
import LogicProgram.Proofs.Phrase.Chain
import LogicProgram.Proofs.Problem.Exclusion
import LogicProgram.Proofs.Problem.Shape
import LogicProgram.Proofs.Problem.Soundness
import LogicProgram.Proofs.Prover.Cache
import LogicProgram.Proofs.Prover.Fingerprint
import LogicProgram.Proofs.Prover.TimeLimit
import LogicProgram.Proofs.Prover.Verdict
import LogicProgram.Proofs.Rendering.RoundTrip
import LogicProgram.Proofs.Rule.Arity
import LogicProgram.Proofs.Rule.Composition
import LogicProgram.Proofs.Rule.RoundTrip
import LogicProgram.Proofs.Simplification.NormalForm
import LogicProgram.Proofs.Simplification.Occurrences
import LogicProgram.Proofs.Tff.Meaning
import LogicProgram.Proofs.Verification
