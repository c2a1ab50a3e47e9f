/-!
# Text as bytes

Programs, specifications and prover output are read byte by byte and need not
be valid UTF-8, so a text is a list of bytes. String literals are written as
their UTF-8 encoding. This module has the character classes of ASCII, decimal
numerals, joining and searching; quoting is in `Text.Quoted`.
-/

namespace LogicProgram

/-- A text: its bytes in order. -/
abbrev Text := List UInt8

namespace Text

/-- The UTF-8 encoding of a string. -/
@[coe] def ofString (s : String) : Text := s.toUTF8.data.toList

instance : Coe String Text := ⟨ofString⟩

/-- Whether `b` encodes the ASCII character `c`. -/
def isChar (c : Char) (b : UInt8) : Bool := b == c.toUInt8

def isDigit (b : UInt8) : Bool := '0'.toUInt8 ≤ b && b ≤ '9'.toUInt8

def isLower (b : UInt8) : Bool := 'a'.toUInt8 ≤ b && b ≤ 'z'.toUInt8

def isUpper (b : UInt8) : Bool := 'A'.toUInt8 ≤ b && b ≤ 'Z'.toUInt8

/-- The digit of a value below ten. -/
def digit (n : Nat) : UInt8 := '0'.toUInt8 + n.toUInt8

def digitValue (b : UInt8) : Nat := b.toNat - '0'.toNat

/-- The decimal numeral of a natural number, without leading zeros. -/
def ofNat (n : Nat) : Text :=
  if n < 10 then [digit n] else ofNat (n / 10) ++ [digit (n % 10)]
termination_by n

/-- The decimal numeral of an integer, with a minus sign if it is negative. -/
def ofInt : Int → Text
  | .ofNat n => ofNat n
  | .negSucc n => "-" ++ ofNat (n + 1)

/-- A hexadecimal digit in lower case. -/
def hexDigit (n : Nat) : UInt8 :=
  if n < 10 then digit n else 'a'.toUInt8 + (n - 10).toUInt8

/-- The last `width` hexadecimal digits of a number. -/
def hex : (width : Nat) → Nat → Text
  | 0, _ => []
  | width + 1, n => hex width (n / 16) ++ [hexDigit (n % 16)]

/-- The value of a text of digits, read in base ten. -/
def toNat (t : Text) : Nat := t.foldl (fun n b => 10 * n + digitValue b) 0

/-- The texts of a list with a separator between neighbours. -/
def join (separator : Text) : List Text → Text
  | [] => []
  | [t] => t
  | t :: u :: r => t ++ separator ++ join separator (u :: r)

/-- What follows the first occurrence of `needle`, with what stands before it. -/
def splitFirst? (needle : Text) : Text → Option (Text × Text)
  | [] => if needle.isEmpty then some ([], []) else none
  | b :: r =>
    if needle.isPrefixOf (b :: r) then some ([], (b :: r).drop needle.length)
    else (splitFirst? needle r).map fun (before, after) => (b :: before, after)

/-- `t` in typographic quotes. -/
def enquoted (t : Text) : Text := "“" ++ t ++ "”"

/-- Texts ordered by their bytes, a proper beginning before its continuation. -/
def precedes : Text → Text → Bool
  | [], [] => false
  | [], _ :: _ => true
  | _ :: _, [] => false
  | a :: s, b :: t => a < b || (a == b && precedes s t)

end Text

end LogicProgram
