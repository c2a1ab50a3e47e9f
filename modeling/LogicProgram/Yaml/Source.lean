import LogicProgram.Text.Utf8

/-!
# The characters of a document

A document is read as characters, which are written in UTF-8 or, after a byte
order mark, in UTF-16. Bytes are decoded a window at a time, so that a
malformed character is refused when its window is needed and not before. A
`Source` stands before a character and knows its line and column; `Reading` is
the type of steps over it.
-/

namespace LogicProgram.Yaml

/-- What stands after the last character. -/
def endMark : Nat := 0

/-- The byte order mark. -/
def byteOrderMark : Nat := 0xfeff

/-- The code point of a character. -/
def code (c : Char) : Nat := c.toNat

/-- A space or tab. -/
def isBlank (p : Nat) : Bool := p == code ' ' || p == code '\t'

/-- A line break: a carriage return, line feed, next line, line separator or
paragraph separator. -/
def isBreak (p : Nat) : Bool :=
  p == code '\n' || p == code '\r' || p == 0x85 || p == 0x2028 || p == 0x2029

/-- A line break of ASCII. -/
def isShortBreak (p : Nat) : Bool := p == code '\n' || p == code '\r'

/-- A line break or the end. -/
def endsLine (p : Nat) : Bool := isBreak p || p == endMark

/-- A blank, a line break or the end. -/
def isSpace (p : Nat) : Bool := isBlank p || endsLine p

/-- Whether a character is one of some of ASCII. -/
def isOneOf (cs : List Char) (p : Nat) : Bool := cs.any (code · == p)

/-- Whether a character may occur in a document. -/
def isAllowed (p : Nat) : Bool :=
  p == 9 || p == 10 || p == 13 || (0x20 ≤ p && p ≤ 0x7e) || p == 0x85
    || (0xa0 ≤ p && p ≤ 0xd7ff) || (0xe000 ≤ p && p ≤ 0xfffd) || (0x10000 ≤ p && p ≤ 0x10ffff)

/-- How characters are written as bytes. -/
inductive Charset where
  | utf8
  /-- Units of two bytes, of which the low one comes first or last. -/
  | utf16 (lowFirst : Bool)
deriving DecidableEq, Repr, Inhabited

/-- What stands at the start of some bytes. -/
inductive Decoded where
  /-- A character and the number of its bytes. -/
  | character (point width : Nat)
  /-- The beginning of a character. -/
  | incomplete
  /-- Bytes with which no character starts. -/
  | malformed
deriving DecidableEq, Repr

namespace Charset

/-- The number of bytes that the first byte of a character in UTF-8 announces. -/
def width? (lead : UInt8) : Option Nat :=
  if lead < 0x80 then some 1
  else if lead < 0xc0 then none
  else if lead < 0xe0 then some 2
  else if lead < 0xf0 then some 3
  else if lead < 0xf8 then some 4
  else none

/-- The character in UTF-8 at the start of some bytes. -/
def firstUtf8 : Text → Decoded
  | [] => .incomplete
  | a :: r =>
    match width? a with
    | none => .malformed
    | some width =>
      if r.length + 1 < width then .incomplete
      else match Text.leadingCode a r with
        | some (point, n) => .character point (n + 1)
        | none => .malformed

/-- The unit of two bytes. -/
def unit (lowFirst : Bool) (a b : UInt8) : Nat :=
  if lowFirst then a.toNat + 256 * b.toNat else 256 * a.toNat + b.toNat

/-- The character in UTF-16 at the start of some bytes. -/
def firstUtf16 (lowFirst : Bool) : Text → Decoded
  | a :: b :: r =>
    let high := unit lowFirst a b
    if 0xdc00 ≤ high && high < 0xe000 then .malformed
    else if high < 0xd800 || 0xdc00 ≤ high then .character high 2
    else match r with
      | c :: d :: _ =>
        let low := unit lowFirst c d
        if 0xdc00 ≤ low && low < 0xe000 then
          .character (0x10000 + (high - 0xd800) * 0x400 + (low - 0xdc00)) 4
        else .malformed
      | _ => .incomplete
  | _ => .incomplete

/-- The character at the start of some bytes. -/
def first : Charset → Text → Decoded
  | utf8 => firstUtf8
  | utf16 lowFirst => firstUtf16 lowFirst

/-- The characters of some bytes, at most `n` of them, and the bytes of one that
is not complete. -/
def characters (charset : Charset) : (n : Nat) → Text → Option (List Nat × Text)
  | 0, bytes => some ([], bytes)
  | n + 1, bytes =>
    match charset.first bytes with
    | .incomplete => some ([], bytes)
    | .malformed => none
    | .character point width =>
      if isAllowed point then
        (characters charset n (bytes.drop width)).map fun (points, rest) => (point :: points, rest)
      else none

/-- The byte order marks and the way of writing that they announce. -/
def marks : List (Text × Charset) :=
  [([0xff, 0xfe], utf16 true), ([0xfe, 0xff], utf16 false), ([0xef, 0xbb, 0xbf], utf8)]

end Charset

/-- A place in a document. -/
structure Source where
  /-- The characters that have been decoded and not been passed. -/
  ahead : List Nat
  /-- The bytes that have not been decoded. -/
  bytes : Text
  /-- How many of them the next window shows. -/
  room : Nat
  /-- How they are written. -/
  charset : Charset
  /-- The character that came next when more were last needed. -/
  front : Nat
  /-- The number of characters passed. -/
  index : Nat
  /-- The number of line breaks passed. -/
  line : Nat
  /-- The number of characters passed on this line. -/
  column : Nat
  /-- The number of line breaks since the last character that is not blank. -/
  breaks : Nat
  /-- The number of bytes of the document, which bounds all loops over it. -/
  size : Nat
deriving Repr, Inhabited

namespace Source

/-- The number of bytes of a window. -/
def window : Nat := 512

/-- The place before the first character of a document. -/
def ofText (t : Text) : Source :=
  let (mark, charset) := (Charset.marks.find? (·.1.isPrefixOf t)).getD ([], .utf8)
  { ahead := [], bytes := t.drop mark.length, room := window - mark.length, charset
    front := endMark, index := 0, line := 0, column := 0, breaks := 0, size := t.length }

/-- Whether some number of characters has been decoded. -/
def has (s : Source) (n : Nat) : Bool := (s.ahead.take n).length == n

/-- The source with one more window decoded. -/
def load? (s : Source) : Option Source :=
  (s.charset.characters s.room (s.bytes.take s.room)).bind fun (points, rest) =>
    if points.isEmpty then none
    else some { s with
      ahead := s.ahead ++ points, bytes := rest ++ s.bytes.drop s.room, room := window }

/-- The source with windows decoded, at most `rounds`, until there are `n`
characters. Behind the last character stands an end mark. -/
def fill? (n : Nat) : (rounds : Nat) → Source → Option Source
  | 0, s => some s
  | rounds + 1, s =>
    if s.has n then some s
    else if s.bytes.isEmpty then some { s with ahead := s.ahead ++ [endMark] }
    else s.load?.bind (fill? n rounds)

/-- The source with `n` characters decoded. -/
def need? (s : Source) (n : Nat) : Option Source :=
  if s.has n then some s
  else (fill? n (s.bytes.length + 1) s).map fun s => { s with front := s.ahead.headD endMark }

/-- A decoded character some places further. -/
def peek (s : Source) (n : Nat) : Nat := (s.ahead[n]?).getD endMark

def current (s : Source) : Nat := s.ahead.headD endMark

/-- The place after the next character, which is on the same line. -/
def skip (s : Source) : Source :=
  { s with
    ahead := s.ahead.tail, index := s.index + 1, column := s.column + 1
    breaks := if isBlank s.current then s.breaks else 0 }

/-- The number of characters of the line break that comes next. -/
def breakWidth (s : Source) : Nat :=
  if s.current == code '\r' && s.peek 1 == code '\n' then 2 else 1

/-- The place after the line break that comes next. -/
def skipBreak (s : Source) : Source :=
  { s with
    ahead := s.ahead.drop s.breakWidth, index := s.index + s.breakWidth, line := s.line + 1
    column := 0, breaks := s.breaks + 1 }

/-- What the line break that comes next stands for in a scalar: itself if it is
a separator, otherwise a line feed. -/
def breakCode (s : Source) : Nat :=
  if s.current == 0x2028 || s.current == 0x2029 then s.current else code '\n'

/-- Whether a line starts here with three times a character and then a space. -/
def startsWithThree (s : Source) (c : Char) : Bool :=
  s.column == 0 && s.ahead.take 3 == List.replicate 3 (code c) && isSpace (s.peek 3)

/-- Whether a document starts or ends here with a mark. -/
def atMark (s : Source) : Bool := s.startsWithThree '-' || s.startsWithThree '.'

end Source

/-- A step over the characters of a document, which may refuse it. -/
abbrev Reading := StateT Source Option

namespace Reading

/-- Decodes some number of characters. -/
def need (n : Nat) : Reading Unit := fun s => (s.need? n).map ((), ·)

def current : Reading Nat := return (← get).current

def skip : Reading Unit := modify Source.skip

def skipBreak : Reading Unit := do
  need 2
  modify Source.skipBreak

/-- Passes the blanks of a kind that come next, at most `n`. -/
def skipWhile (kind : Nat → Bool) : (n : Nat) → Reading Unit
  | 0 => return ()
  | n + 1 => do
    if kind (← current) then
      skip
      need 1
      skipWhile kind n

/-- Passes everything up to the end of a line that is not before the place with
`index` characters before it. -/
def skipToLineEnd (index : Nat) : (n : Nat) → Reading Unit
  | 0 => return ()
  | n + 1 => do
    need 1
    let s ← get
    if endsLine s.current then
      if s.index < index then
        skipBreak
        skipToLineEnd index n
    else
      skip
      skipToLineEnd index n

/-- How far a search for a comment goes. -/
def commentDistance : Nat := 512

/-- The distance to the next comment if only characters of a kind stand before
it, from a distance on and for at most `n` characters. -/
def commentAfter? (kind : Nat → Bool) (distance : Nat) : (n : Nat) → Reading (Option Nat)
  | 0 => return none
  | n + 1 => do
    need (distance + 1)
    let p := (← get).peek distance
    if kind p then commentAfter? kind (distance + 1) n
    else return if p == code '#' then some distance else none

/-- Passes a comment at a distance up to the end of its line. -/
def skipComment (distance : Nat) : Reading Unit := do
  let s ← get
  skipToLineEnd (s.index + distance) (s.size + 1)

/-- Passes a comment on this line if blanks only stand before it. -/
def lineComment : Reading Unit := do
  if (← get).breaks == 0 then
    if let some distance ← commentAfter? isBlank 0 commentDistance then skipComment distance

/-- Passes the comments at the start of the following lines, at most `n`, from
the end of a line on. Blank lines may stand between them. -/
def followingComments : (n : Nat) → Reading Unit
  | 0 => return ()
  | n + 1 => do
    if isShortBreak (← current) then
      let kind (p : Nat) : Bool := isBlank p || isShortBreak p
      if let some distance ← commentAfter? kind 1 (commentDistance - 1) then
        skipComment distance
        followingComments n

/-- Passes the comment that comes next and those at the start of the following
lines. -/
def comments : Reading Unit := do
  skipComment 0
  followingComments (← get).size

end Reading

end LogicProgram.Yaml
