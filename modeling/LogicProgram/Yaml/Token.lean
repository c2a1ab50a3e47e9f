import LogicProgram.Yaml.Scalar.Reading

/-!
# Tokens of a document

Tokens mark where blocks, sequences, mappings, keys and values start and end.
A scalar turns out to be a key only when the colon after it is met, so a
`TokenQueue` holds tokens back until it is known what stands before them. Blocks
start and end by the columns of their first characters.
-/

namespace LogicProgram.Yaml

inductive Token where
  | streamEnd
  | documentStart
  | documentEnd
  | blockSequenceStart
  | blockMappingStart
  | blockEnd
  | flowSequenceStart
  | flowSequenceEnd
  | flowMappingStart
  | flowMappingEnd
  | blockEntry
  | flowEntry
  | key
  | value
  | scalar (value : Scalar)
deriving DecidableEq, Repr, Inhabited

/-- Something that is a key if a colon follows it. -/
structure PendingKey where
  /-- Whether it may still be a key. -/
  possible : Bool
  /-- Whether it has to be a key. -/
  required : Bool
  /-- The number of its first token. -/
  number : Nat
  /-- The number of characters before it. -/
  index : Nat
  line : Nat
  column : Nat
deriving DecidableEq, Repr, Inhabited

/-- A document from which tokens are taken. -/
structure TokenQueue where
  /-- What has not been read. -/
  source : Source
  /-- The tokens that have been read and not been taken. -/
  tokens : List Token
  /-- The number of tokens taken. -/
  taken : Nat
  /-- The columns of the blocks that are open, the innermost first. -/
  indents : List Nat
  /-- What may be a key in the block and in each open bracket, the innermost
  first. -/
  keys : List PendingKey
  /-- The numbers of tokens that wait for a colon, with the level of their key
  counted from the block. -/
  waiting : List (Nat × Nat)
  /-- Whether a key may start here. -/
  keyAllowed : Bool
deriving Repr, Inhabited

/-- A step that takes tokens, which may refuse the document. -/
abbrev Lexing := StateT TokenQueue Option

namespace TokenQueue

/-- The queue before the first token of a document. -/
def ofText (t : Text) : TokenQueue :=
  { source := .ofText t, tokens := [], taken := 0, indents := [], keys := [default], waiting := []
    keyAllowed := true }

/-- Whether the place is between brackets. -/
def inFlow (q : TokenQueue) : Bool := 1 < q.keys.length

/-- The level of the innermost bracket, zero for a block. -/
def level (q : TokenQueue) : Nat := q.keys.length - 1

/-- The number of the next token that is read. -/
def nextNumber (q : TokenQueue) : Nat := q.taken + q.tokens.length

/-- The queue with a token at its end. -/
def push (q : TokenQueue) (t : Token) : TokenQueue := { q with tokens := q.tokens ++ [t] }

/-- The queue with a token before the one with a number. -/
def insertAt (q : TokenQueue) (number : Nat) (t : Token) : TokenQueue :=
  if number < q.taken then q.push t
  else { q with tokens := q.tokens.insertIdx (number - q.taken) t }

/-- The innermost key. -/
def key (q : TokenQueue) : PendingKey := q.keys.headD default

/-- The queue with another innermost key. -/
def withKey (q : TokenQueue) (k : PendingKey) : TokenQueue := { q with keys := k :: q.keys.tail }

/-- The queue in which a token waits no longer. -/
def stopWaiting (q : TokenQueue) (number : Nat) : TokenQueue :=
  { q with waiting := q.waiting.filter (·.1 != number) }

/-- The queue with all blocks closed that start after a column, or all blocks if
there is none. -/
def closeBlocks (q : TokenQueue) (column : Option Nat) : TokenQueue :=
  if q.inFlow then q
  else
    let isInner (indent : Nat) : Bool := column.all (· < indent)
    { q with
      tokens := q.tokens ++ (q.indents.takeWhile isInner).map fun _ => Token.blockEnd
      indents := q.indents.dropWhile isInner }

/-- The least column of further lines of a scalar. -/
def scalarIndent (q : TokenQueue) : Nat := (q.indents.head?.map (· + 1)).getD 0

end TokenQueue

namespace Lexing

/-- How deep brackets and blocks may be nested. -/
def depthLimit : Nat := 10000

/-- How many characters may stand between the start of a key and its colon. -/
def keyLength : Nat := 1024

/-- Refuses the document unless a condition holds. -/
def require (condition : Bool) : Lexing Unit := if condition then return () else failure

def read {α : Type} (step : Reading α) : Lexing α := fun q =>
  (step.run q.source).map fun (a, source) => (a, { q with source })

/-- Whether the key of a level is still possible here. It is no longer on
another line or after too many characters. -/
def isKeyPossible (level : Nat) : Lexing Bool := do
  let q ← get
  let depth := q.level - level
  match q.keys[depth]? with
  | none => return false
  | some k =>
    if !k.possible then return false
    else if k.line < q.source.line || k.index + keyLength < q.source.index then
      require !k.required
      set { q with keys := q.keys.set depth { k with possible := false } }
      return false
    else return true

/-- Gives up the innermost key, which may not have to be one. -/
def dropKey : Lexing Unit := do
  let q ← get
  if q.key.possible then
    require !q.key.required
    set ((q.withKey { q.key with possible := false }).stopWaiting q.key.number)

/-- Remembers the next token as a possible key, if a key may start here. It has
to be one if it starts at the column of the innermost block. -/
def saveKey : Lexing Unit := do
  if (← get).keyAllowed then
    dropKey
    modify fun q =>
      let s := q.source
      let required := !q.inFlow && q.indents.head? == some s.column
      let k : PendingKey := ⟨true, required, q.nextNumber, s.index, s.line, s.column⟩
      { q.withKey k with waiting := (k.number, q.level) :: q.waiting.filter (·.1 != k.number) }

/-- Opens a block at a column, unless one is open there or further in. Its first
token comes before the one with a number, or last. -/
def openBlock (column : Nat) (number : Option Nat) (start : Token) : Lexing Unit := do
  let q ← get
  if !q.inFlow && q.indents.head?.all (· < column) then
    let q := { q with indents := column :: q.indents }
    require (q.indents.length ≤ depthLimit)
    set (match number with
      | some n => q.insertAt n start
      | none => q.push start)

/-- Whether a key may start after the next token. -/
def allowKey (allowed : Bool) : Lexing Unit := modify ({ · with keyAllowed := allowed })

/-- Adds a token of some characters, which are passed. -/
def token (width : Nat) (t : Token) : Lexing Unit := do
  for _ in List.range width do read Reading.skip
  modify (·.push t)

/-- The end of the document. -/
def streamEnd : Lexing Unit := do
  modify fun q =>
    let s := q.source
    { q with source := if s.column == 0 then s else { s with column := 0, line := s.line + 1 } }
  modify (·.closeBlocks none)
  dropKey
  allowKey false
  token 0 .streamEnd

/-- The mark of the start or end of a document. -/
def documentMark (t : Token) : Lexing Unit := do
  modify (·.closeBlocks none)
  dropKey
  allowKey false
  token 3 t

/-- An opening bracket. -/
def openBracket (t : Token) : Lexing Unit := do
  saveKey
  modify fun q =>
    let s := q.source
    { q with keys := ⟨false, false, q.nextNumber, s.index, s.line, s.column⟩ :: q.keys }
  require ((← get).level ≤ depthLimit)
  allowKey true
  token 1 t

/-- A closing bracket. -/
def closeBracket (t : Token) : Lexing Unit := do
  dropKey
  modify fun q => if q.inFlow then { q.stopWaiting q.key.number with keys := q.keys.tail } else q
  allowKey false
  token 1 t

/-- A comma between brackets. -/
def flowEntry : Lexing Unit := do
  dropKey
  allowKey true
  token 1 .flowEntry

/-- The dash of an entry. -/
def blockEntry : Lexing Unit := do
  let q ← get
  if !q.inFlow then
    require q.keyAllowed
    openBlock q.source.column none .blockSequenceStart
  dropKey
  allowKey true
  token 1 .blockEntry

/-- The question mark before a key. -/
def explicitKey : Lexing Unit := do
  let q ← get
  if !q.inFlow then
    require q.keyAllowed
    openBlock q.source.column none .blockMappingStart
  dropKey
  allowKey !q.inFlow
  token 1 .key

/-- The colon before a value. What may be a key before it is one. -/
def value : Lexing Unit := do
  if ← isKeyPossible (← get).level then
    let k := (← get).key
    modify (·.insertAt k.number .key)
    openBlock k.column (some k.number) .blockMappingStart
    modify fun q => (q.withKey { k with possible := false }).stopWaiting k.number
    allowKey false
  else
    let q ← get
    if !q.inFlow then
      require q.keyAllowed
      openBlock q.source.column none .blockMappingStart
    allowKey !q.inFlow
  token 1 .value

/-- A plain scalar. If it ended at the end of a line, a key may follow. -/
def plain : Lexing Unit := do
  saveKey
  let q ← get
  let (s, lines) ← read (plainScalar q.inFlow q.scalarIndent)
  allowKey lines
  token 0 (.scalar s)

/-- A scalar in quotes. -/
def quoted (quote : Char) : Lexing Unit := do
  saveKey
  allowKey false
  let s ← read (quotedScalar quote)
  token 0 (.scalar s)

/-- Passes white space and comments. A tab may stand only where no key may
start. At the start of a line a byte order mark is passed. -/
def skipSpace : (n : Nat) → Lexing Unit
  | 0 => return ()
  | n + 1 => do
    read (Reading.need 1)
    let s := (← get).source
    if s.column == 0 && s.front == byteOrderMark then
      read Reading.skip
    read (Reading.need 1)
    let q ← get
    let isPassed (p : Nat) : Bool := p == code ' ' || ((q.inFlow || !q.keyAllowed) && p == code '\t')
    read (Reading.skipWhile isPassed (s.size + 1))
    if (← read Reading.current) == code '#' then read Reading.comments
    if isBreak (← read Reading.current) then
      read Reading.skipBreak
      if !q.inFlow then allowKey true
      skipSpace n

/-- Characters with which no plain scalar starts, unless a dash, question mark or
colon is followed by more. -/
def indicators : List Char :=
  ['-', '?', ':', ',', '[', ']', '\x7b', '\x7d', '#', '&', '*', '!', '|', '>', '\'', '"', '%', '@',
    '\x60']

/-- Whether a plain scalar starts here. -/
def startsPlain (inFlow : Bool) (s : Source) : Bool :=
  let p := s.current
  let next := s.peek 1
  (!isSpace p && !isOneOf indicators p) || (p == code '-' && !isBlank next)
    || (!inFlow && isOneOf ['?', ':'] p && !isSpace next)

/-- Reads a token that stands on a line with others, and a comment after it. A
comment after the dash of an entry belongs to what follows. Tags, anchors and
block scalars are refused. -/
def lineToken : Lexing Unit := do
  let q ← get
  let s := q.source
  let isIndicator (c : Char) : Bool := s.current == code c
  let isAlone : Bool := isSpace (s.peek 1)
  if isIndicator '[' then openBracket .flowSequenceStart
  else if isIndicator '\x7b' then openBracket .flowMappingStart
  else if isIndicator ']' then closeBracket .flowSequenceEnd
  else if isIndicator '\x7d' then closeBracket .flowMappingEnd
  else if isIndicator ',' then flowEntry
  else if isIndicator '-' && isAlone then blockEntry
  else if isIndicator '?' && (q.inFlow || isAlone) then explicitKey
  else if isIndicator ':' && (q.inFlow || isAlone) then value
  else if isIndicator '\'' then quoted '\''
  else if isIndicator '"' then quoted '"'
  else if startsPlain q.inFlow s then plain
  else failure
  if (← get).tokens.getLast? != some .blockEntry then read Reading.lineComment

/-- Reads one token, and those of the blocks that start or end with it.
Directives are refused. -/
def readToken : Lexing Unit := do
  read (Reading.need 1)
  skipSpace ((← get).source.size + 1)
  modify fun q => q.closeBlocks (some q.source.column)
  read (Reading.need 4)
  let s := (← get).source
  if s.current == endMark then streamEnd
  else if s.column == 0 && s.current == code '%' then failure
  else if s.startsWithThree '-' then documentMark .documentStart
  else if s.startsWithThree '.' then documentMark .documentEnd
  else lineToken

/-- Reads tokens, at most `n`, until there are three and the first one no longer
waits for a colon. -/
def fill : (n : Nat) → Lexing Unit
  | 0 => return ()
  | n + 1 => do
    let q ← get
    let isReady ← do
      if q.tokens.length < 3 then pure false
      else match q.waiting.lookup q.taken with
        | none => pure true
        | some level => pure !(← isKeyPossible level)
    if !isReady then
      readToken
      fill n

def peek : Lexing Token := do
  fill ((← get).source.size + 8)
  match (← get).tokens with
  | t :: _ => return t
  | [] => failure

def take : Lexing Unit :=
  modify fun q => { q with tokens := q.tokens.tail, taken := q.taken + 1 }

end Lexing

end LogicProgram.Yaml
