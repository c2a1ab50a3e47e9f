import LogicProgram.Number.Binary64

/-!
# How a prover is called

A prover is a command with arguments. A time limit is passed on as a last
argument in whole seconds; it is kept in nanoseconds as a 64-bit number.
-/

namespace LogicProgram

/-- How a prover is called. -/
structure ProverOptions where
  command : Text
  /-- Its arguments, without the time limit. -/
  arguments : List Text
  /-- The time limit in nanoseconds; none if it is not positive. -/
  timeLimit : Int64
deriving DecidableEq, Repr, Inhabited

namespace ProverOptions

/-- The number of nanoseconds in a number of seconds, as far as 64 bits hold. -/
def nanoseconds (seconds : Int64) : Int64 := seconds * 1000000000

/-- The call that is made unless something else is asked for. -/
def standard : ProverOptions :=
  { command := "vampire"
    arguments := ["--mode", "casc", "--cores", "8"].map Text.ofString
    timeLimit := nanoseconds 300 }

/-- The whole seconds of a positive time, which is first rounded to a binary
fraction: the last part of a second may so become a whole one. -/
def wholeSeconds (nanoseconds : Nat) : Nat :=
  let part := (Binary64.ofRatio? (nanoseconds % Nat.pow 10 9) (Nat.pow 10 9)).getD default
  let (n, d) := part.ratio
  ((Binary64.ofRatio? (nanoseconds / Nat.pow 10 9 * d + n) d).getD default).floor

/-- All arguments of the call. -/
def fullArguments (o : ProverOptions) : List Text :=
  if 0 < o.timeLimit then
    o.arguments ++ [Text.ofString "--time_limit", Text.ofNat (wholeSeconds o.timeLimit.toInt.toNat)]
  else o.arguments

/-- The call on one line, which tells different calls apart in a cache. -/
def fingerprint (o : ProverOptions) : Text := o.command ++ " " ++ Text.join " " o.fullArguments

end ProverOptions

end LogicProgram
