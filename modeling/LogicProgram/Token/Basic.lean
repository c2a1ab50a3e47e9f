import LogicProgram.Error

/-!
# Tokens

The words of programs and specifications. A token remembers where its first
byte stands; the value of a directive is without its leading `#` and the value
of a string is without quotes and escapes.
-/

namespace LogicProgram

/-- The classes of tokens. -/
inductive Token.Kind where
  /-- The end of the text, after all other tokens. -/
  | endOfInput
  /-- A word that starts with a lower-case letter. -/
  | identifier
  /-- A word that starts with an upper-case letter or an underscore. -/
  | variable
  /-- A run of digits. -/
  | number
  | string
  /-- A word after `#`. -/
  | directive
  /-- Punctuation. -/
  | symbol
deriving DecidableEq, Repr, Inhabited

/-- A word of a text. -/
structure Token where
  kind : Token.Kind
  /-- What the token says. -/
  value : Text
  /-- The place of its first byte. -/
  position : Position
deriving DecidableEq, Repr, Inhabited

namespace Token

/-- A token as messages show it. -/
def text (t : Token) : Text :=
  if t.kind = .endOfInput then "end of input" else t.value.enquoted

/-- Whether the token is the symbol or identifier `word`. -/
def is (t : Token) (word : Text) : Bool :=
  (t.kind == .symbol || t.kind == .identifier) && t.value == word

end Token

end LogicProgram
