import LogicProgram.Number.Binary64

/-!
# Durations

A duration is written as numbers with units, such as `1h30m` or `1.5s`, and is
counted in nanoseconds. A fraction is divided by a power of ten and multiplied
by its unit in binary floating-point arithmetic, and cut off.
-/

namespace LogicProgram.Duration

/-- The units and how many nanoseconds they have. -/
def units : List (Text × Nat) :=
  [("ns", 1), ("us", 1000), ("µs", 1000), ("μs", 1000), ("ms", 1000000), ("s", 1000000000),
    ("m", 60 * 1000000000), ("h", 3600 * 1000000000)]

/-- The greatest magnitude. -/
def limit : Nat := Nat.pow 2 63

/-- The leading digits of a fraction as a number and how many they are; digits
after those that fit the limit are passed over. -/
def fraction (digits : Text) : Nat × Nat :=
  let step (state : Nat × Nat × Bool) (b : UInt8) : Nat × Nat × Bool :=
    let (value, count, full) := state
    if full then state
    else if (limit - 1) / 10 < value then (value, count, true)
    else
      let next := 10 * value + Text.digitValue b
      if limit < next then (value, count, true) else (next, count + 1, false)
  let (value, count, _) := digits.foldl step (0, 0, false)
  (value, count)

/-- A power of ten built by multiplying one by ten and rounding each time,
unless it becomes too large. -/
def powerOfTen? : (count : Nat) → Option Binary64
  | 0 => Binary64.ofRatio? 1 1
  | count + 1 => (powerOfTen? count).bind fun x =>
    let (n, d) := x.ratio
    Binary64.ofRatio? (10 * n) d

/-- The nanoseconds of a fraction of a unit. A fraction with more places than
there are powers of ten is nothing. -/
def fractionOf (unit value count : Nat) : Nat :=
  match powerOfTen? count with
  | none => 0
  | some scale =>
    let nearest (num den : Nat) : Nat × Nat := ((Binary64.ofRatio? num den).getD default).ratio
    let (n, d) := scale.ratio
    let (a, b) := nearest value 1
    let (u, v) := nearest (unit * d) n
    ((Binary64.ofRatio? (a * u) (b * v)).getD default).floor

/-- A byte of a unit: neither a digit nor a point. -/
def isUnitByte (b : UInt8) : Bool := !Text.isDigit b && !Text.isChar '.' b

/-- A number with its unit at the start of a text, in nanoseconds, and the rest. -/
def component? (t : Text) : Option (Nat × Text) := do
  let whole := t.takeWhile Text.isDigit
  let rest := t.dropWhile Text.isDigit
  let (digits, rest) := match rest with
    | b :: r =>
      if Text.isChar '.' b then (r.takeWhile Text.isDigit, r.dropWhile Text.isDigit) else ([], rest)
    | [] => ([], rest)
  if whole.isEmpty && digits.isEmpty then none
  let name := rest.takeWhile isUnitByte
  let (_, unit) ← units.find? (·.1 == name)
  let count := Text.toNat whole
  if limit < count || limit / unit < count then none
  let (value, places) := fraction digits
  let total := count * unit + (if value == 0 then 0 else fractionOf unit value places)
  if limit < total then none
  return (total, rest.dropWhile isUnitByte)

/-- The sum of all components of a text, of which there are at most `n`. -/
def total? : (n : Nat) → (sum : Nat) → Text → Option Nat
  | 0, _, _ => none
  | n + 1, sum, t => do
    let (part, rest) ← component? t
    let sum := (sum + part) % Nat.pow 2 64
    if limit < sum then none
    if rest.isEmpty then return sum else total? n sum rest

/-- The nanoseconds of a duration. -/
def parse? (t : Text) : Option Int :=
  let (negative, magnitude) := match t with
    | b :: r =>
      if Text.isChar '-' b then (true, r) else if Text.isChar '+' b then (false, r) else (false, t)
    | [] => (false, t)
  if magnitude == Text.ofString "0" then some 0
  else (total? magnitude.length 0 magnitude).bind fun n =>
    if negative then some (-n) else if n < limit then some n else none

end LogicProgram.Duration
