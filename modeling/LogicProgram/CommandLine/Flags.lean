import LogicProgram.Text.Basic

/-!
# Flags of a command

A flag is an update of the options of a command. It is given by its name after
two dashes or by its letter after one; several letters may stand together. The
value follows an equals sign or is the next argument; a switch is on without
one. Two dashes alone end the flags.
-/

namespace LogicProgram.CommandLine

/-- A flag of a command with options `α`. -/
structure Flag (α : Type) where
  /-- The name, without dashes. -/
  name : Text
  letter : Option Char
  /-- Whether it is a switch, which needs no value. -/
  isSwitch : Bool
  /-- The options with a value of the flag, unless the value is refused. -/
  set : Text → α → Option α

namespace Flag

variable {α : Type}

def named? (flags : List (Flag α)) (name : Text) : Option (Flag α) := flags.find? (·.name == name)

def lettered? (flags : List (Flag α)) (b : UInt8) : Option (Flag α) :=
  flags.find? (·.letter.any (Text.isChar · b))

/-- The options with a switch on. -/
def turnOn (f : Flag α) (a : α) : Option α := f.set "true" a

/-- A name and the value after the first equals sign, if there is one. -/
def splitValue (t : Text) : Text × Option Text :=
  let name := t.takeWhile (!Text.isChar '=' ·)
  match t.dropWhile (!Text.isChar '=' ·) with
  | [] => (name, none)
  | _ :: value => (name, some value)

/-- The options after a flag given by its name, and whether it took the next
argument as its value. -/
def setNamed (flags : List (Flag α)) (t : Text) (next : Option Text) (a : α) :
    Option (α × Bool) := do
  let (name, value) := splitValue t
  let f ← named? flags name
  match value with
  | some v => return (← f.set v a, false)
  | none =>
    if f.isSwitch then return (← f.turnOn a, false)
    else return (← f.set (← next) a, true)

/-- Letters from here on are meant for a test of the program and passed over. -/
def testMark : Text := "test."

/-- The options after flags given by their letters, and whether the last of them
took the next argument as its value. -/
def setLettered (flags : List (Flag α)) (next : Option Text) : Text → α → Option (α × Bool)
  | [], a => some (a, false)
  | b :: rest, a => do
    if testMark.isPrefixOf (b :: rest) then return (a, false)
    let f ← lettered? flags b
    match rest with
    | e :: v :: more =>
      if Text.isChar '=' e then return (← f.set (v :: more) a, false)
    | _ => pure ()
    if f.isSwitch then setLettered flags next rest (← f.turnOn a)
    else if rest.isEmpty then return (← f.set (← next) a, true)
    else return (← f.set rest a, false)

inductive Shape where
  /-- An argument of the command. -/
  | positional
  /-- The end of the flags. -/
  | terminator
  | named (rest : Text)
  | lettered (rest : Text)
deriving DecidableEq, Repr

/-- What an argument is. -/
def shape : Text → Shape
  | b :: c :: r =>
    if !Text.isChar '-' b then .positional
    else if !Text.isChar '-' c then .lettered (c :: r)
    else if r.isEmpty then .terminator
    else .named r
  | _ => .positional

/-- The options and the other arguments of a command, unless a flag is refused. -/
def parse (flags : List (Flag α)) : List Text → α → Option (α × List Text)
  | [], a => some (a, [])
  | s :: rest, a =>
    match shape s with
    | .positional => (parse flags rest a).map fun (a, words) => (a, s :: words)
    | .terminator => some (a, rest)
    | .named t =>
      match setNamed flags t rest.head? a, rest with
      | some (a, true), _ :: rest => parse flags rest a
      | some (a, _), rest => parse flags rest a
      | none, _ => none
    | .lettered t =>
      match setLettered flags rest.head? t a, rest with
      | some (a, true), _ :: rest => parse flags rest a
      | some (a, _), rest => parse flags rest a
      | none, _ => none

/-- Whether an argument takes the next one as its value. Flags that are not known
are taken to do so. -/
def takesNext (flags : List (Flag α)) (s : Text) : Bool :=
  !s.any (Text.isChar '=') &&
    match shape s with
    | .named name => (named? flags name).all (!·.isSwitch)
    | .lettered [b] => (lettered? flags b).all (!·.isSwitch)
    | _ => false

/-- The first argument that is no flag and no value of one, and the arguments
without it. A value at the very end is not passed over, so nothing follows it. -/
def firstWord (flags : List (Flag α)) : List Text → Option (Text × List Text)
  | [] => none
  | s :: rest =>
    if shape s = .terminator then none
    else if takesNext flags s then
      match rest with
      | v :: w :: more => (firstWord flags (w :: more)).map fun (word, others) => (word, s :: v :: others)
      | _ => none
    else if shape s = .positional && !s.isEmpty && !s.head?.any (Text.isChar '-') then some (s, rest)
    else (firstWord flags rest).map fun (word, others) => (word, s :: others)

end Flag

end LogicProgram.CommandLine
