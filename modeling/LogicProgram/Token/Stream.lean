import LogicProgram.Token.Basic

/-!
# A cursor over tokens

A stream stands at a token of a list. The end token is kept apart, so that it
can be looked at any number of times and never be passed.
-/

namespace LogicProgram

/-- A token that stands for the end. -/
abbrev EndToken := { t : Token // t.kind = .endOfInput }

/-- A place in a list of tokens. -/
structure Stream where
  /-- The tokens passed, the last one first. -/
  behind : List Token
  /-- The tokens not yet passed. -/
  ahead : List Token
  /-- The token that stands after all others. -/
  last : EndToken
  /-- How far a move went past the last token, or before the first if negative. -/
  beyond : Int := 0
deriving DecidableEq, Repr

namespace Stream

/-- A stream before the first of `tokens`. An end token at place `0:0` is
supplied if the list does not end with one. -/
def ofTokens (tokens : List Token) : Stream :=
  let supplied : EndToken := ⟨⟨.endOfInput, [], .unknown⟩, rfl⟩
  match tokens.getLast? with
  | some t =>
    if h : t.kind = .endOfInput then ⟨[], tokens.dropLast, ⟨t, h⟩, 0⟩
    else ⟨[], tokens, supplied, 0⟩
  | none => ⟨[], [], supplied, 0⟩

instance : Inhabited Stream := ⟨ofTokens []⟩

/-- The token `n` places after the current one, or before it if `n` is negative,
or else the end token. -/
def peekAt (s : Stream) (n : Int) : Token :=
  match n + s.beyond with
  | .ofNat n => (s.ahead[n]?).getD s.last
  | .negSucc n => (s.behind[n]?).getD s.last

def peek (s : Stream) : Token := s.ahead.headD s.last

/-- The stream after the current token, whatever that is. -/
def pass (s : Stream) : Stream :=
  match s.ahead with
  | [] => { s with beyond := s.beyond + 1 }
  | t :: r => { s with behind := t :: s.behind, ahead := r }

/-- The stream after the current token; at the end it stays. -/
def advance (s : Stream) : Stream :=
  match s.ahead with
  | [] => s
  | t :: r => { s with behind := t :: s.behind, ahead := r }

/-- Whether the current token is the symbol or identifier `word`. -/
def isAt (s : Stream) (word : Text) : Bool := s.peek.is word

/-- Whether all tokens have been passed. -/
def atEnd (s : Stream) : Bool := s.peek.kind == .endOfInput

/-- A word is never the end, so that to pass it does not lead beyond the end. -/
theorem pass_eq_advance {s : Stream} {word : Text} (h : s.isAt word = true) : s.pass = s.advance := by
  rw [isAt, peek] at h
  rw [pass, advance]
  cases hahead : s.ahead with
  | nil =>
    rw [hahead, List.headD_nil, Token.is, s.last.2] at h
    cases h
  | cons t r => rfl

/-- The number of tokens passed, and how far the stream is beyond them. -/
def position (s : Stream) : Int := s.behind.length + s.beyond

/-- The number of tokens left before the end token. -/
def remaining (s : Stream) : Nat := s.ahead.length

/-- All tokens but the end token. -/
def tokens (s : Stream) : List Token := s.behind.reverse ++ s.ahead

/-- The stream at the position `n`. Outside of the list it stands at the nearer
end and remembers how far it is beyond. -/
def moveTo (s : Stream) (n : Int) : Stream :=
  let k := min n.toNat s.tokens.length
  ⟨(s.tokens.take k).reverse, s.tokens.drop k, s.last, n - k⟩

end Stream

end LogicProgram
