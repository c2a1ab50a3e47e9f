import LogicProgram.Text.Printable
import LogicProgram.Text.Utf8

/-!
# Quoted text

Printable code points stand for themselves inside quotes, except for the quote
itself and the backslash. The seven usual controls have letter escapes, other
ASCII controls and stray bytes are written `\x` with two digits, and further
code points `\u` with four or `\U` with eight.
-/

namespace LogicProgram.Text

/-- The letter that stands for a control character after a backslash. -/
def controlLetter (point : Nat) : Option Text :=
  match point with
  | 7 => some "a"
  | 8 => some "b"
  | 9 => some "t"
  | 10 => some "n"
  | 11 => some "v"
  | 12 => some "f"
  | 13 => some "r"
  | _ => none

def doubleQuote : Nat := 0x22

def singleQuote : Nat := 0x27

def backslash : Nat := 0x5c

/-- A code point inside quotes whose code point is `mark`. -/
def escape (mark point : Nat) : Text :=
  if point == mark || point == backslash then "\\" ++ encode point
  else if isPrintable point then encode point
  else match controlLetter point with
    | some letter => "\\" ++ letter
    | none =>
      if point < 0x20 || point == 0x7f then "\\x" ++ hex 2 point
      else if point < 0x10000 then "\\u" ++ hex 4 point
      else "\\U" ++ hex 8 point

/-- A piece of a text inside double quotes. -/
def escapePiece : Piece → Text
  | .code point _ => escape doubleQuote point
  | .stray byte => "\\x" ++ hex 2 byte.toNat

def quote (t : Text) : Text := "\"" ++ (pieces t).flatMap escapePiece ++ "\""

/-- A code point in single quotes. -/
def quoteCode (point : Nat) : Text := "'" ++ escape singleQuote point ++ "'"

end LogicProgram.Text
