import LogicProgram.Yaml.Scalar
import LogicProgram.Yaml.Source

/-!
# Reading scalars

Plain and quoted scalars may go on over lines. White space inside them is held
back until it is known that the scalar goes on. Within a line it is kept; one
line break stands for a space, and further ones for themselves.
-/

namespace LogicProgram.Yaml

/-- White space inside a scalar. -/
structure Gap where
  /-- The blanks before the first line break. -/
  blanks : List Nat
  /-- Whether a line has ended. -/
  lines : Bool
  /-- What the first line break stands for; an escaped one stands for nothing. -/
  first : List Nat
  /-- The further line breaks. -/
  more : List Nat
deriving DecidableEq, Repr, Inhabited

namespace Gap

/-- No white space. -/
def empty : Gap := ⟨[], false, [], []⟩

/-- What is left of the line break that ended a line with a backslash. -/
def escaped : Gap := ⟨[], true, [], []⟩

/-- The gap after a blank. -/
def blank (g : Gap) (p : Nat) : Gap := if g.lines then g else { g with blanks := g.blanks ++ [p] }

/-- The gap after a line break. -/
def lineBreak (g : Gap) (p : Nat) : Gap :=
  if g.lines then { g with more := g.more ++ [p] } else ⟨[], true, [p], []⟩

/-- What a gap stands for. -/
def text (g : Gap) : List Nat :=
  if !g.lines then g.blanks
  else if g.first == [code '\n'] then
    if g.more.isEmpty then [code ' '] else g.more
  else g.first ++ g.more

end Gap

/-- Adds the white space that comes next to a gap. A tab may not stand before
the column `indent` of a new line. -/
def gapRest (indent : Nat) : (n : Nat) → Gap → Reading Gap
  | 0, gap => return gap
  | n + 1, gap => do
    let s ← get
    let p := s.current
    if isBlank p then
      if gap.lines && s.column < indent && p == code '\t' then failure
      Reading.skip
      Reading.need 1
      gapRest indent n (gap.blank p)
    else if isBreak p then
      Reading.skipBreak
      Reading.need 1
      gapRest indent n (gap.lineBreak s.breakCode)
    else return gap

/-- Characters that end a plain scalar between brackets. -/
def flowIndicators : List Char := [',', '?', '[', ']', '\x7b', '\x7d']

/-- Whether a plain scalar ends here within a line. -/
def endsPlain (inFlow : Bool) (s : Source) : Bool :=
  isSpace s.current || (s.current == code ':' && isSpace (s.peek 1))
    || (inFlow && isOneOf flowIndicators s.current)

/-- The characters of a plain scalar up to white space or an indicator, after
`found`, whose last one comes first. -/
def plainRun (inFlow : Bool) : (n : Nat) → (found : List Nat) → Reading (List Nat)
  | 0, found => return found
  | n + 1, found => do
    let s ← get
    if endsPlain inFlow s then return found
    Reading.skip
    Reading.need 2
    plainRun inFlow n (s.current :: found)

/-- The characters of a plain scalar after white space and `found`, the last one
first, and whether a line has ended after them. In a block it ends before a line
that starts before the column `indent`. -/
def plainRest (inFlow : Bool) (indent : Nat) :
    (n : Nat) → Gap → (found : List Nat) → Reading (List Nat × Bool)
  | 0, _, _ => failure
  | n + 1, gap, found => do
    Reading.need 4
    let s ← get
    if s.atMark || s.current == code '#' then return (found, gap.lines)
    if endsPlain inFlow s then return (found, gap.lines)
    let found ← plainRun inFlow (s.size + 1) (gap.text.reverse ++ found)
    let p ← Reading.current
    if !isBlank p && !isBreak p then return (found, false)
    let gap ← gapRest indent (s.size + 1) .empty
    if !inFlow && (← get).column < indent then return (found, gap.lines)
    plainRest inFlow indent n gap found

/-- The text of some characters of which the last one comes first. -/
def textOfReversed (found : List Nat) : Text := found.reverse.flatMap Text.encode

/-- A plain scalar, and whether a line has ended after it. -/
def plainScalar (inFlow : Bool) (indent : Nat) : Reading (Scalar × Bool) := do
  let (found, lines) ← plainRest inFlow indent ((← get).size + 1) .empty []
  return (⟨false, textOfReversed found⟩, lines)

/-- What a character stands for after a backslash. -/
def escapes : List (Char × Nat) :=
  [('0', 0), ('a', 7), ('b', 8), ('t', 9), ('\t', 9), ('n', 10), ('v', 11), ('f', 12), ('r', 13),
    ('e', 27), (' ', 32), ('"', 34), ('\'', 39), ('\\', 92), ('N', 0x85), ('_', 0xa0), ('L', 0x2028),
    ('P', 0x2029)]

/-- How many digits of base sixteen follow a character after a backslash. -/
def hexEscapes : List (Char × Nat) := [('x', 2), ('u', 4), ('U', 8)]

/-- The value of digits of base sixteen. -/
def hexValue? (digits : List Nat) : Option Nat :=
  if digits.all (· < 0x80) && !digits.contains (code '_') then
    Literal.inBase? 16 (digits.map Nat.toUInt8)
  else none

/-- The character that stands after a backslash, which is passed. -/
def escape : Reading Nat := do
  let mark := (← get).peek 1
  match escapes.find? (code ·.1 == mark) with
  | some (_, p) =>
    Reading.skip
    Reading.skip
    return p
  | none =>
    match hexEscapes.find? (code ·.1 == mark) with
    | none => failure
    | some (_, width) =>
      Reading.skip
      Reading.skip
      Reading.need width
      match hexValue? ((List.range width).map (← get).peek) with
      | none => failure
      | some p =>
        if (0xd800 ≤ p && p ≤ 0xdfff) || 0x10ffff < p then failure
        for _ in List.range width do Reading.skip
        return p

/-- The characters of a quoted scalar up to white space or its closing quote,
after `found`, whose last one comes first, and the gap that an escaped line
break opens. -/
def quotedRun (quote : Char) : (n : Nat) → (found : List Nat) → Reading (List Nat × Gap)
  | 0, _ => failure
  | n + 1, found => do
    let s ← get
    let p := s.current
    if isSpace p then return (found, .empty)
    else if p == code quote then
      if quote == '\'' && s.peek 1 == p then
        Reading.skip
        Reading.skip
        Reading.need 2
        quotedRun quote n (p :: found)
      else return (found, .empty)
    else if quote == '"' && p == code '\\' then
      if isBreak (s.peek 1) then
        Reading.need 3
        Reading.skip
        Reading.skipBreak
        return (found, .escaped)
      else
        let e ← escape
        Reading.need 2
        quotedRun quote n (e :: found)
    else
      Reading.skip
      Reading.need 2
      quotedRun quote n (p :: found)

/-- The characters of a quoted scalar after `found`, the last one first, up to
its closing quote. -/
def quotedRest (quote : Char) : (n : Nat) → (found : List Nat) → Reading (List Nat)
  | 0, _ => failure
  | n + 1, found => do
    Reading.need 4
    let s ← get
    if s.atMark || s.current == endMark then failure
    let (found, gap) ← quotedRun quote (s.size + 1) found
    Reading.need 1
    if (← Reading.current) == code quote then return found
    let gap ← gapRest 0 (s.size + 1) gap
    quotedRest quote n (gap.text.reverse ++ found)

/-- A scalar in quotes of a kind. -/
def quotedScalar (quote : Char) : Reading Scalar := do
  Reading.skip
  let found ← quotedRest quote ((← get).size + 1) []
  Reading.skip
  return ⟨true, textOfReversed found⟩

end LogicProgram.Yaml
