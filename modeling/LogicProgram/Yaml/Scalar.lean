import LogicProgram.Number.Literal

/-!
# Scalars

A scalar without quotes may stand for nothing, a truth value or a number; one
in quotes is always text.
-/

namespace LogicProgram.Yaml

/-- A scalar as it is written. -/
structure Scalar where
  /-- Whether it is in quotes. -/
  quoted : Bool
  text : Text
deriving DecidableEq, Repr, Inhabited

/-- What a scalar stands for. -/
inductive Value where
  | null
  | boolean (value : Bool)
  /-- A whole number of 64 bits. -/
  | integer (value : Int64)
  /-- A number with a sign and a magnitude; no magnitude is infinity. -/
  | decimal (negative : Bool) (magnitude : Option Binary64)
  /-- A number that none of the above can hold. -/
  | otherNumber
  | text (value : Text)
deriving DecidableEq, Repr, Inhabited

namespace Scalar

def nullWords : List Text := ["", "~", "null", "Null", "NULL"].map Text.ofString

/-- Words for truth. -/
def trueWords : List Text := ["true", "True", "TRUE"].map Text.ofString

/-- Words for falsehood. -/
def falseWords : List Text := ["false", "False", "FALSE"].map Text.ofString

/-- Words for infinity, after a sign. -/
def infinityWords : List Text := [".inf", ".Inf", ".INF"].map Text.ofString

/-- Words for what is not a number. -/
def undefinedWords : List Text := [".nan", ".NaN", ".NAN"].map Text.ofString

/-- A decimal of either sign. -/
def decimal? (t : Text) : Option Value :=
  let (negative, magnitude) := Literal.splitSign t
  ((Literal.decimal? magnitude).bind (·.toBinary?)).map fun x => .decimal negative (some x)

/-- A whole number of 64 bits, with or without sign. -/
def integer? (t : Text) : Option Value :=
  match Literal.integer? t with
  | some i => some (.integer i)
  | none =>
    match Literal.natural? t with
    | some n => if n < Nat.pow 2 64 then some .otherNumber else none
    | none => none

/-- A whole number after a mark of its base, where a sign may follow the mark. -/
def markedInteger? (t : Text) : Option Value :=
  let after (mark : Text) (base : Nat) : Option Value :=
    if mark.isPrefixOf t then (Literal.signedInBase? base (t.drop mark.length)).map .integer else none
  (after "0b" 2).orElse fun _ => after "0o" 8

/-- The number that a text stands for. In a number that starts with a sign or
a digit underscores are passed over; in one that starts with a point they stand
between digits. -/
def number? (t : Text) : Option Value :=
  if undefinedWords.contains t then some .otherNumber
  else
    let (negative, magnitude) := Literal.splitSign t
    if infinityWords.contains magnitude then some (.decimal negative none)
    else
      let digits := t.filter (!Text.isChar '_' ·)
      if t.head?.any (Text.isChar '.') then
        if Literal.underscoresInDecimal false t then decimal? digits else none
      else
        (integer? digits).orElse fun _ => (decimal? digits).orElse fun _ => markedInteger? digits

def mayBeNumber (t : Text) : Bool :=
  t.head?.any fun b => Text.isDigit b || ['+', '-', '.'].any (Text.isChar · b)

/-- What a scalar stands for. -/
def value (s : Scalar) : Value :=
  if s.quoted then .text s.text
  else if nullWords.contains s.text then .null
  else if trueWords.contains s.text then .boolean true
  else if falseWords.contains s.text then .boolean false
  else if mayBeNumber s.text then (number? s.text).getD (.text s.text)
  else .text s.text

end Scalar

end LogicProgram.Yaml
