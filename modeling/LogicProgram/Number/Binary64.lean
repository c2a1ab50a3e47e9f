import LogicProgram.Text.Basic

/-!
# Binary floating-point numbers

Times are reported as decimals and kept as the nearest number of the form
`mantissa * 2 ^ exponent` with 53 bits of mantissa, a half going to the even
neighbour. Only numbers that are not negative are needed. Everything is exact
arithmetic on natural numbers.
-/

namespace LogicProgram

/-- A quotient rounded to the nearest natural number, a half to the even one. -/
def roundHalfEven (num den : Nat) : Nat :=
  let q := num / den
  let r := num % den
  if den < 2 * r || (2 * r == den && q % 2 == 1) then q + 1 else q

/-- A number `mantissa * 2 ^ exponent` that is not negative. -/
structure Binary64 where
  /-- Below `2 ^ 53`, and at least `2 ^ 52` unless the exponent is the least. -/
  mantissa : Nat
  /-- At least `-1074` and at most `971`. -/
  exponent : Int
deriving DecidableEq, Repr, Inhabited

namespace Binary64

/-- The least exponent, which the numbers close to zero have. -/
def leastExponent : Int := -1074

def greatestExponent : Int := 971

/-- A fraction divided by a power of two. -/
def descale (num den : Nat) (exponent : Int) : Nat × Nat :=
  if 0 ≤ exponent then (num, den * Nat.pow 2 exponent.toNat)
  else (num * Nat.pow 2 (-exponent).toNat, den)

/-- The exponent with which a positive fraction has a mantissa of 53 bits, or
the least exponent if that is greater. -/
def exponentOf (num den : Nat) : Int :=
  let guess : Int := (num.log2 : Int) - (den.log2 : Int) - 52
  let (n, d) := descale num den guess
  max leastExponent (if n < Nat.pow 2 52 * d then guess - 1 else guess)

/-- The number nearest to a fraction, unless it is too large. -/
def ofRatio? (num den : Nat) : Option Binary64 :=
  if num == 0 then some ⟨0, leastExponent⟩
  else
    let e := exponentOf num den
    let (n, d) := descale num den e
    let m := roundHalfEven n d
    let (m, e) := if m == Nat.pow 2 53 then (Nat.pow 2 52, e + 1) else (m, e)
    if greatestExponent < e then none else some ⟨m, e⟩

/-- The number as a fraction. -/
def ratio (x : Binary64) : Nat × Nat :=
  if 0 ≤ x.exponent then (x.mantissa * Nat.pow 2 x.exponent.toNat, 1)
  else (x.mantissa, Nat.pow 2 (-x.exponent).toNat)

/-- The greatest natural number that is not above the number. -/
def floor (x : Binary64) : Nat :=
  let (n, d) := x.ratio
  n / d

/-- The interchange encoding as a natural number below `2 ^ 64`. -/
def bits (x : Binary64) : Nat :=
  if x.mantissa < Nat.pow 2 52 then x.mantissa
  else (x.exponent - leastExponent + 1).toNat * Nat.pow 2 52 + (x.mantissa - Nat.pow 2 52)

/-- The interchange encoding in base sixteen, with sixteen digits. -/
def bitsText (x : Binary64) : Text := Text.hex 16 x.bits

/-- The number with two decimal places, rounded from its exact value. -/
def hundredthsText (x : Binary64) : Text :=
  let (n, d) := x.ratio
  let h := roundHalfEven (n * 100) d
  Text.ofNat (h / 100) ++ "." ++ [Text.digit (h / 10 % 10), Text.digit (h % 10)]

/-- The number of a decimal with `places` digits after the point. -/
def ofDecimal? (digits places : Nat) : Option Binary64 := ofRatio? digits (Nat.pow 10 places)

end Binary64

end LogicProgram
