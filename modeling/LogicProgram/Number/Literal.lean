import LogicProgram.Number.Binary64

/-!
# Number literals

Integers are written in base ten, or after a leading zero in base eight, two or
sixteen, with single underscores between digits. Decimals may have a fraction
and an exponent.
-/

namespace LogicProgram.Literal

/-- The value of a digit or letter as a digit. -/
def digitOf? (b : UInt8) : Option Nat :=
  if Text.isDigit b then some (Text.digitValue b)
  else if Text.isLower b then some (b.toNat - 'a'.toNat + 10)
  else if Text.isUpper b then some (b.toNat - 'A'.toNat + 10)
  else none

/-- The value of a text of digits in a base; underscores are passed over. -/
def inBase? (base : Nat) (t : Text) : Option Nat :=
  t.foldl (fun n b =>
    if Text.isChar '_' b then n
    else n.bind fun n => (digitOf? b).bind fun d => if d < base then some (base * n + d) else none)
    (some 0)

/-- Whether every underscore stands between two digits, given whether a digit
stands before the text. -/
def underscoresBetween (afterDigit : Bool) : Text → Bool
  | [] => true
  | [b] => !Text.isChar '_' b
  | b :: c :: r =>
    if Text.isChar '_' b then afterDigit && !Text.isChar '_' c && underscoresBetween false (c :: r)
    else underscoresBetween true (c :: r)

/-- Whether every underscore stands between two decimal digits, given whether
one stands before the text. -/
def underscoresInDecimal (afterDigit : Bool) : Text → Bool
  | [] => true
  | b :: r =>
    if Text.isChar '_' b then
      afterDigit && r.head?.any Text.isDigit && underscoresInDecimal false r
    else underscoresInDecimal (Text.isDigit b) r

/-- A sign at the start of a text, and the rest. -/
def splitSign : Text → Bool × Text
  | [] => (false, [])
  | b :: r =>
    if Text.isChar '-' b then (true, r) else if Text.isChar '+' b then (false, r) else (false, b :: r)

/-- The base that a literal without sign is written in, its digits, and whether
the digits follow a mark of the base. -/
def splitBase (t : Text) : Nat × Text × Bool :=
  match t with
  | z :: m :: d :: r =>
    if Text.isChar '0' z then
      if Text.isChar 'b' m || Text.isChar 'B' m then (2, d :: r, true)
      else if Text.isChar 'o' m || Text.isChar 'O' m then (8, d :: r, true)
      else if Text.isChar 'x' m || Text.isChar 'X' m then (16, d :: r, true)
      else (8, m :: d :: r, true)
    else (10, t, false)
  | z :: r => if Text.isChar '0' z then (8, r, true) else (10, t, false)
  | [] => (10, [], false)

/-- The value of a literal without sign. -/
def natural? (t : Text) : Option Nat :=
  if t.isEmpty then none
  else
    let (base, digits, marked) := splitBase t
    if underscoresBetween marked digits then inBase? base digits else none

/-- A magnitude with a sign, if it fits 64 bits. -/
def signed? (negative : Bool) (magnitude : Nat) : Option Int64 :=
  let value : Int := if negative then -magnitude else magnitude
  if -Int.pow 2 63 ≤ value && value < Int.pow 2 63 then some (Int64.ofInt value) else none

/-- The value of a literal, if it fits 64 bits. -/
def integer? (t : Text) : Option Int64 :=
  let (negative, magnitude) := splitSign t
  (natural? magnitude).bind (signed? negative)

/-- The value of digits in a base after an optional sign, if it fits 64 bits. -/
def signedInBase? (base : Nat) (t : Text) : Option Int64 :=
  let (negative, digits) := splitSign t
  if digits.isEmpty then none else (inBase? base digits).bind (signed? negative)

/-- A decimal: its digits as a number, how many of them follow the point, and
the exponent. -/
structure Decimal where
  /-- All digits read as one number. -/
  digits : Nat
  /-- How many digits there are. -/
  width : Nat
  /-- How many digits follow the point. -/
  places : Nat
  /-- The power of ten to multiply by. -/
  exponent : Int
deriving DecidableEq, Repr, Inhabited

/-- An exponent, or nothing at the end of the text. -/
def exponent? : Text → Option Int
  | [] => some 0
  | b :: r =>
    if Text.isChar 'e' b || Text.isChar 'E' b then
      let (negative, digits) := splitSign r
      if !digits.isEmpty && digits.all Text.isDigit then
        some (if negative then -(Text.toNat digits : Int) else Text.toNat digits)
      else none
    else none

/-- A decimal without sign. -/
def decimal? (t : Text) : Option Decimal :=
  let whole := t.takeWhile Text.isDigit
  let rest := t.dropWhile Text.isDigit
  let (fraction, rest) := match rest with
    | b :: r =>
      if Text.isChar '.' b then (r.takeWhile Text.isDigit, r.dropWhile Text.isDigit) else ([], rest)
    | [] => ([], rest)
  let digits := whole ++ fraction
  if digits.isEmpty then none
  else (exponent? rest).map fun e => ⟨Text.toNat digits, digits.length, fraction.length, e⟩

/-- The nearest binary number, unless the decimal is too large. Decimals that
are far out of range are decided by their size alone. -/
def Decimal.toBinary? (d : Decimal) : Option Binary64 :=
  let scale := d.exponent - d.places
  if d.digits == 0 || scale + d.width < -400 then Binary64.ofRatio? 0 1
  else if 400 < scale then none
  else if 0 ≤ scale then Binary64.ofRatio? (d.digits * Nat.pow 10 scale.toNat) 1
  else Binary64.ofRatio? d.digits (Nat.pow 10 (-scale).toNat)

end LogicProgram.Literal
