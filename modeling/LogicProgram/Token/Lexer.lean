import LogicProgram.Text.Quoted
import LogicProgram.Token.Basic

/-!
# Splitting a text into tokens

A text is a sequence of segments: runs of white space, comments and tokens. A
comment runs from `%` to the end of the line, or from `%*` to the next `*%`.
`segment` finds the segment at the start of a text, and `tokenize` repeats it
while it counts lines and columns.
-/

namespace LogicProgram.Token

/-- White space between tokens. -/
def isBlank (b : UInt8) : Bool :=
  Text.isChar ' ' b || Text.isChar '\t' b || Text.isChar '\n' b || Text.isChar '\r' b

/-- A byte inside a word. -/
def isWordByte (b : UInt8) : Bool :=
  Text.isLower b || Text.isUpper b || Text.isDigit b || Text.isChar '_' b || b == 0x27

/-- The spellings of symbols; of two that fit, the one listed first is read. -/
def symbolSpellings : List Text := List.map Text.ofString [
  "<->", ":-", "->", "<-", "..", "<=", ">=", "!=", "<>", "==", "**",
  "(", ")", "\x7b", "\x7d", "[", "]", ",", ";", ".", ":", "/", "<", ">", "=",
  "+", "-", "*", "\\", "|", "@", "&", "^", "?", "~"]

/-- The segment at the start of a nonempty text. -/
structure Segment where
  /-- The kind and value of a token; nothing for white space and comments. -/
  content : Option (Kind × Text)
  /-- The number of bytes of the segment after its first one. -/
  tailLength : Nat
deriving DecidableEq, Repr

/-- A segment that is skipped. -/
def Segment.skipped (tailLength : Nat) : Segment := ⟨none, tailLength⟩

/-- A segment that is a token. -/
def Segment.token (kind : Kind) (value : Text) (tailLength : Nat) : Segment :=
  ⟨some (kind, value), tailLength⟩

/-- What a byte means after a backslash in a string literal. -/
def unescape (b : UInt8) : UInt8 :=
  if Text.isChar 'n' b then 0x0a else if Text.isChar 't' b then 0x09 else b

/-- The value of a string literal after its opening quote, and the number of
bytes up to and including the closing one. A line may end inside a literal only
after a backslash. -/
def literal : Text → Option (Text × Nat)
  | [] => none
  | b :: r =>
    if b == 0x5c then
      match r with
      | [] => none
      | c :: r => (literal r).map fun (value, n) => (unescape c :: value, n + 2)
    else if b == 0x22 then some ([], 1)
    else if b == 0x0a then none
    else (literal r).map fun (value, n) => (b :: value, n + 1)

/-- The segment of a comment after its `%`. -/
def comment (r : Text) : Except Text Segment :=
  match r with
  | [] => .ok (.skipped 0)
  | c :: body =>
    if Text.isChar '*' c then
      match Text.splitFirst? "*%" body with
      | some (inside, _) => .ok (.skipped (inside.length + 3))
      | none => .error "block comment is not terminated"
    else .ok (.skipped (r.takeWhile (!Text.isChar '\n' ·)).length)

/-- The segment at the start of the text `b :: r`, or why there is none. -/
def segment (b : UInt8) (r : Text) : Except Text Segment :=
  if isBlank b then .ok (.skipped (r.takeWhile isBlank).length)
  else if Text.isChar '%' b then comment r
  else if Text.isDigit b then
    let more := r.takeWhile Text.isDigit
    .ok (.token .number (b :: more) more.length)
  else if Text.isLower b then
    let more := r.takeWhile isWordByte
    .ok (.token .identifier (b :: more) more.length)
  else if Text.isUpper b || Text.isChar '_' b then
    let more := r.takeWhile isWordByte
    .ok (.token .variable (b :: more) more.length)
  else if Text.isChar '#' b then
    let word := r.takeWhile isWordByte
    if word.isEmpty then .error "expected directive name after '#'"
    else .ok (.token .directive word word.length)
  else if b == 0x22 then
    match literal r with
    | some (value, n) => .ok (.token .string value n)
    | none => .error "string literal is not terminated"
  else
    match symbolSpellings.find? (·.isPrefixOf (b :: r)) with
    | some spelling => .ok (.token .symbol spelling (spelling.length - 1))
    | none => .error ("unexpected character " ++ Text.quoteCode b.toNat)

/-- The tokens of a text that starts at place `p`, ended by the end token. -/
def tokenizeFrom (p : Position) : Text → Except Error (List Token)
  | [] => .ok [⟨.endOfInput, [], p⟩]
  | b :: r =>
    match segment b r with
    | .error detail => .error (.lexical detail p)
    | .ok s =>
      match tokenizeFrom (p.after (b :: r.take s.tailLength)) (r.drop s.tailLength) with
      | .error e => .error e
      | .ok tokens =>
        match s.content with
        | none => .ok tokens
        | some (kind, value) => .ok (⟨kind, value, p⟩ :: tokens)
termination_by t => t.length
decreasing_by simp only [List.length_drop, List.length_cons]; omega

/-- The tokens of a text, ended by the end token. -/
def tokenize (t : Text) : Except Error (List Token) := tokenizeFrom .start t

end LogicProgram.Token
