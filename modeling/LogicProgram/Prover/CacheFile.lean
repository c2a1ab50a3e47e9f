import LogicProgram.Prover.Cache

/-!
# The text of a cache file

A saved cache is a sequence of messages, each after its number of bytes. A
message starts with the number of a type: a negative one is described by the
message, and a value of one that is not follows. A cache is a value of a type
that its file describes first, so a text whose first message has a value or
describes a type of the format itself is not a saved cache. What is read of a
text is only why it cannot be a cache; the entries of a file that was saved are
known without its text.
-/

namespace LogicProgram.CacheFile

/-- Why a text is not a saved cache. -/
inductive Damage where
  /-- There is nothing where a number has to be. -/
  | empty
  /-- It ends inside a message or before the cache. -/
  | cutShort
  /-- A number has too many bytes. -/
  | wideNumber
  /-- A message is longer than any can be. -/
  | longMessage
  /-- A type of the format is described. -/
  | describedType
  /-- There is a value of another type, which is shown. -/
  | otherType (type : Text)
deriving DecidableEq, Repr

def Damage.text : Damage → Text
  | .empty => "EOF"
  | .cutShort => "unexpected EOF"
  | .wideNumber => "gob: encoded unsigned integer out of range"
  | .longMessage => "invalid message length"
  | .describedType => "gob: duplicate type received"
  | .otherType type =>
    "gob: decoding into local type *map[string]prover.cacheEntry, received remote type " ++ type

/-- The number with some bytes, the most significant one first. -/
def bigEndian (bytes : Text) : Nat := bytes.foldl (fun n b => 256 * n + b.toNat) 0

/-- The number at the start of a text and what follows. Small numbers are one
byte; before the bytes of others stands how many they are, at most eight, as a
negative number. -/
def number : Text → Except Damage (Nat × Text)
  | [] => .error .empty
  | b :: rest =>
    let size := 256 - b.toNat
    if b < 128 then .ok (b.toNat, rest)
    else if 8 < size then .error .wideNumber
    else if rest.length < size then .error .cutShort
    else .ok (bigEndian (rest.take size), rest.drop size)

/-- The least length that no message has. -/
def lengthLimit : Nat := Nat.pow 2 33

/-- The first message. -/
def message (t : Text) : Except Damage Text := do
  let (length, rest) ← number t
  if lengthLimit ≤ length then throw .longMessage
  if rest.length < length then throw .cutShort
  return rest.take length

/-- The number of a type, whose sign is its last bit, in 32 bits. -/
def typeNumber (n : Nat) : Int :=
  Int.bmod (if n % 2 = 0 then (n / 2 : Nat) else Int.negSucc (n / 2)) (Nat.pow 2 32)

/-- The least number of types that are not part of the format. -/
def firstDescribed : Int := 64

/-- A record type as it is shown. -/
def record (name : Text) (fields : List (Text × Text)) : Text :=
  let shown : Text := fields.flatMap fun (f, type) => f ++ (" " : Text) ++ type ++ ("; " : Text)
  name ++ " = struct \x7b " ++ shown ++ "\x7d"

/-- The type of a field and of what all types have in common. -/
def namedNumber (name : Text) : Text := record name [("Name", "string"), ("Id", "int")]

/-- What all types have in common. It is shown in full the first time. -/
def common (full : Bool) : Text × Text :=
  ("CommonType", if full then namedNumber "CommonType" else "CommonType")

/-- The type of array types. -/
def arrayType (full : Bool) : Text := record "arrayType" [common full, ("Elem", "int"), ("Len", "int")]

/-- The type of slice types. -/
def sliceType (full : Bool) : Text := record "sliceType" [common full, ("Elem", "int")]

/-- The type of lists of fields. -/
def fieldsType : Text := "[]" ++ namedNumber "fieldType"

/-- The type of record types. -/
def recordType (full : Bool) : Text := record "structType" [common full, ("Field", fieldsType)]

/-- The type of types of finite maps. -/
def mapType (full : Bool) : Text := record "mapType" [common full, ("Key", "int"), ("Elem", "int")]

/-- The type of types with an encoding of their own. -/
def encodedType (full : Bool) : Text := record "gobEncoderType" [common full]

/-- The type of descriptions of types. -/
def wireType : Text :=
  record "wireType" [("ArrayT", arrayType true), ("SliceT", sliceType false),
    ("StructT", recordType false), ("MapT", mapType false), ("GobEncoderT", encodedType false),
    ("BinaryMarshalerT", "gobEncoderType"), ("TextMarshalerT", "gobEncoderType")]

/-- The types of the format in the order of their numbers, from one on. -/
def formatTypes : List Text :=
  (["bool", "int", "uint", "float", "bytes", "string", "complex", "interface"] : List Text)
    ++ List.replicate 7 (Text.ofString "_reserved1")
    ++ [wireType, arrayType true, namedNumber "CommonType", sliceType true, recordType true,
      namedNumber "fieldType", fieldsType, mapType true, encodedType true]

/-- A type as it is shown by its number. -/
def typeText (n : Nat) : Text :=
  match n with
  | 0 => "unknown type"
  | n + 1 => formatTypes.getD n "unknown type"

/-- What the first message of a text says: the number of a type. -/
def firstType (t : Text) : Except Damage Int := do
  let (n, _) ← number (← message t)
  return typeNumber n

/-- Why a text that this program did not save is not a cache. If it describes
types, it is taken to end before the cache. -/
def damage (t : Text) : Damage :=
  match firstType t with
  | .error d => d
  | .ok type =>
    if 0 ≤ type then .otherType (typeText type.toNat)
    else if -type < firstDescribed then .describedType
    else .cutShort

/-- How the text of every saved cache starts: with the description of its type. -/
def savedStart : Text :=
  [15, 255, 135, 4, 1, 2, 255, 136, 0, 1, 12, 1, 255, 130, 0, 0]

end LogicProgram.CacheFile
