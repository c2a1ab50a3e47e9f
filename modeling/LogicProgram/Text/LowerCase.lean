import LogicProgram.Text.Utf8

/-!
# Lower case

Names are compared without regard to case, and all of them are ASCII, so only
letters whose lower-case form is ASCII matter. Besides the ASCII letters these
are the Kelvin sign and the dotted capital I.
-/

namespace LogicProgram.Text

/-- The lower-case form of a code point, if it is an ASCII letter. -/
def lowerCode (point : Nat) : Nat :=
  if 'A'.toNat ≤ point && point ≤ 'Z'.toNat then point + 32
  else if point == 0x212a then 'k'.toNat
  else if point == 0x130 then 'i'.toNat
  else point

/-- The text with the letters of `lowerCode` in lower case. -/
def lower (t : Text) : Text :=
  (pieces t).flatMap fun
    | .code point _ => encode (lowerCode point)
    | .stray byte => [byte]

end LogicProgram.Text
