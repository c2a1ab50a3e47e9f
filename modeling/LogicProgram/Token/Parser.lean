import LogicProgram.Token.Stream

/-!
# Parsers over a token stream

A parser moves a stream forward, may change a context of its own, and fails
with an error; what it changed before it failed remains. Repetition is bounded
by a number of rounds: since every further round passes a token, the number of
tokens is a bound that is never reached.
-/

namespace LogicProgram

/-- What a parser works on. -/
structure ParserState (σ : Type) where
  /-- The tokens and the current place among them. -/
  stream : Stream
  /-- What the parser keeps besides. -/
  context : σ

/-- A parser with a context of type `σ`. -/
abbrev Parser (σ α : Type) := ExceptT Error (StateM (ParserState σ)) α

namespace Parser

variable {σ α : Type}

/-- The current token. -/
def peek : Parser σ Token := return (← get).stream.peek

/-- The token `n` places further. -/
def peekAt (n : Nat) : Parser σ Token := return (← get).stream.peekAt n

/-- Passes the current token. -/
def advance : Parser σ Unit := modify fun s => { s with stream := s.stream.advance }

/-- The current token, which is passed. -/
def next : Parser σ Token := do
  let t ← peek
  advance
  return t

/-- Whether the current token is the symbol or identifier `word`. -/
def isAt (word : Text) : Parser σ Bool := return (← peek).is word

/-- Whether all tokens have been passed. -/
def atEnd : Parser σ Bool := return (← get).stream.atEnd

/-- Passes the current token if it is the symbol or identifier `word`. -/
def accept (word : Text) : Parser σ Bool := do
  if ← isAt word then
    modify fun s => { s with stream := s.stream.pass }
    return true
  return false

/-- Fails at the place of the current token. -/
def failHere (fault : Fault) : Parser σ α := do
  throw (.fault fault (← peek).position)

/-- The parser's result, if there is one; otherwise the stream stays where it is. -/
def attempt (p : Parser σ (Option α)) : Parser σ (Option α) := do
  let s ← get
  match (p.run s : Except Error (Option α) × ParserState σ) with
  | (.ok (some a), s') => do
    set s'
    return some a
  | (_, s') => do
    set { s' with stream := s.stream }
    return none

/-- One `item`, and a further one each time that `more` says so. -/
def oneOrMore (item : Parser σ α) (more : Parser σ Bool) : (rounds : Nat) → Parser σ (List α)
  | 0 => return [← item]
  | rounds + 1 => do
    let first ← item
    if ← more then return first :: (← oneOrMore item more rounds)
    return [first]

/-- Operands joined to the left, as long as `operator` finds one. -/
def chainLeft (operand : Parser σ α) (operator : Parser σ (Option (α → α → α))) :
    (rounds : Nat) → α → Parser σ α
  | 0, left => return left
  | rounds + 1, left => do
    match ← operator with
    | none => return left
    | some combine => chainLeft operand operator rounds (combine left (← operand))

/-- Runs a parser on tokens from their start. -/
def runOn (p : Parser σ α) (tokens : List Token) (context : σ) :
    Except Error α × ParserState σ :=
  p.run ⟨Stream.ofTokens tokens, context⟩

end Parser

end LogicProgram
