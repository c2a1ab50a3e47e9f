import LogicProgram.Text.Basic

/-!
# UTF-8

Decoding splits a text into code points and bytes that belong to no
well-formed sequence. Overlong forms, surrogates and values above `0x10ffff`
are not well-formed. `encode` writes one code point.
-/

namespace LogicProgram.Text

/-- A piece of a text that may or may not be valid UTF-8. -/
inductive Piece where
  /-- A well-formed sequence: its code point and its bytes. -/
  | code (point : Nat) (bytes : Text)
  /-- A byte at which no well-formed sequence starts. -/
  | stray (byte : UInt8)
deriving DecidableEq, Repr

def isContinuation (b : UInt8) : Bool := 0x80 ≤ b && b ≤ 0xbf

/-- The six low bits that a continuation byte carries. -/
def continuationBits (b : UInt8) : Nat := b.toNat % 64

/-- Whether a three-byte sequence may start with `a` and `b`. -/
def isThreeByteLead (a b : UInt8) : Bool :=
  if a == 0xe0 then 0xa0 ≤ b && b ≤ 0xbf
  else if a == 0xed then 0x80 ≤ b && b ≤ 0x9f
  else 0xe1 ≤ a && a ≤ 0xef && isContinuation b

/-- Whether a four-byte sequence may start with `a` and `b`. -/
def isFourByteLead (a b : UInt8) : Bool :=
  if a == 0xf0 then 0x90 ≤ b && b ≤ 0xbf
  else if a == 0xf4 then 0x80 ≤ b && b ≤ 0x8f
  else 0xf1 ≤ a && a ≤ 0xf3 && isContinuation b

/-- The code point of the sequence at the start of a nonempty text and the
number of bytes after its first one, if the sequence is well-formed. -/
def leadingCode (a : UInt8) (r : Text) : Option (Nat × Nat) :=
  if a < 0x80 then some (a.toNat, 0)
  else match r with
    | [] => none
    | b :: r =>
      if 0xc2 ≤ a && a ≤ 0xdf && isContinuation b then
        some (a.toNat % 32 * 64 + continuationBits b, 1)
      else match r with
        | [] => none
        | c :: r =>
          if isThreeByteLead a b && isContinuation c then
            some ((a.toNat % 16 * 64 + continuationBits b) * 64 + continuationBits c, 2)
          else match r with
            | [] => none
            | d :: _ =>
              if isFourByteLead a b && isContinuation c && isContinuation d then
                some (((a.toNat % 8 * 64 + continuationBits b) * 64 + continuationBits c) * 64
                  + continuationBits d, 3)
              else none

/-- The pieces of a text from left to right. -/
def pieces : Text → List Piece
  | [] => []
  | a :: r =>
    match leadingCode a r with
    | some (point, n) => .code point (a :: r.take n) :: pieces (r.drop n)
    | none => .stray a :: pieces r
termination_by t => t.length
decreasing_by all_goals simp_wf; try omega

/-- The UTF-8 encoding of a code point. -/
def encode (point : Nat) : Text :=
  if point < 0x80 then [point.toUInt8]
  else if point < 0x800 then
    [(0xc0 + point / 64).toUInt8, (0x80 + point % 64).toUInt8]
  else if point < 0x10000 then
    [(0xe0 + point / 4096).toUInt8, (0x80 + point / 64 % 64).toUInt8, (0x80 + point % 64).toUInt8]
  else
    [(0xf0 + point / 262144).toUInt8, (0x80 + point / 4096 % 64).toUInt8,
      (0x80 + point / 64 % 64).toUInt8, (0x80 + point % 64).toUInt8]

end LogicProgram.Text
