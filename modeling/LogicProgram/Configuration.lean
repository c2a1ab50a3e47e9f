import LogicProgram.Number.Duration
import LogicProgram.Problem.Statement
import LogicProgram.Prover.Options
import LogicProgram.Yaml.Parser
import LogicProgram.Yaml.Printer

/-!
# Configuration

A configuration says how the prover is called, where proofs are remembered, and
how results are computed and shown. It is read from a file on top of the
standard one, and checked field by field in a fixed order.
-/

namespace LogicProgram

/-- When output is coloured. -/
inductive ColorChoice where
  /-- If it goes to a terminal. -/
  | auto
  | always
  | never
deriving DecidableEq, Repr, Inhabited

namespace ColorChoice

def text : ColorChoice → Text
  | auto => "auto"
  | always => "always"
  | never => "never"

/-- The choice of a name in any case. -/
def parse (name : Text) : Except Error ColorChoice :=
  match [auto, always, never].find? (·.text == name.lower) with
  | some c => .ok c
  | none => .error (Fault.unknownColor name)

end ColorChoice

/-- How the prover is called. -/
structure ProverConfiguration where
  command : Text
  /-- Its arguments, without the time limit. -/
  arguments : List Text
  /-- The time limit in seconds. -/
  timeLimit : Int64
deriving DecidableEq, Repr, Inhabited

/-- Where and how long proofs are remembered. -/
structure CacheConfiguration where
  /-- The directory, empty for none. -/
  directory : Text
  /-- The greatest age in nanoseconds, zero for any. -/
  maxAge : Int
deriving DecidableEq, Repr, Inhabited

/-- All that can be configured. Names are kept as they are written. -/
structure Configuration where
  prover : ProverConfiguration
  cache : CacheConfiguration
  simplify : Bool
  color : Text
  direction : Text
deriving DecidableEq, Repr, Inhabited

namespace Configuration

/-- The file that is read if no other is named. -/
def standardPath : Text := ".anthem.yaml"

/-- What holds unless something else is configured. -/
def standard : Configuration :=
  { prover :=
      { command := ProverOptions.standard.command
        arguments := ProverOptions.standard.arguments
        timeLimit := 300 }
    cache := { directory := [], maxAge := 0 }
    simplify := true
    color := ColorChoice.auto.text
    direction := Direction.both.text }

/-- The configuration with the name of its colour choice in lower case, if all
its fields can be used. -/
def validate (c : Configuration) : Except Error Configuration := do
  if c.prover.command.isEmpty then
    throw (Fault.badConfiguration "prover.command must not be empty" : Error)
  if c.prover.timeLimit ≤ 0 then
    throw (Fault.badConfiguration
      ("prover.time_limit must be positive, got " ++ Text.ofInt c.prover.timeLimit.toInt) : Error)
  if c.cache.maxAge < 0 then
    throw (Fault.badConfiguration "cache.max_age must not be negative" : Error)
  let color ← ColorChoice.parse c.color
  let _ ← Direction.parse c.direction
  return { c with color := color.text }

/-- The direction of proofs; both if it is not known. -/
def proofDirection (c : Configuration) : Direction := (Direction.ofText? c.direction).getD .both

/-- The call of the prover. -/
def proverOptions (c : Configuration) : ProverOptions :=
  { command := c.prover.command
    arguments := c.prover.arguments
    timeLimit := ProverOptions.nanoseconds c.prover.timeLimit }

/-- How a node changes the value of a field; nothing if it does not fit. A node
for nothing leaves most fields as they are. -/
abbrev Field (α : Type) := Yaml.Node → α → Option α

/-- A text is taken as it is written. -/
def textField : Field Text
  | .scalar s, old =>
    match s.value with
    | .null => some old
    | _ => some s.text
  | _, _ => none

/-- A whole number. A decimal is cut off at the point, and one below the range
gives the least number. -/
def integerField : Field Int64
  | .scalar s, old =>
    match s.value with
    | .null => some old
    | .integer i => some i
    | .decimal true none => some Int64.minValue
    | .decimal true (some x) =>
      some (if x.floor < Nat.pow 2 63 then -Int64.ofNat x.floor else .minValue)
    | .decimal false (some x) => if x.floor ≤ Nat.pow 2 63 then some (Int64.ofNat x.floor) else none
    | _ => none
  | _, _ => none

/-- More words for truth. -/
def yesWords : List Text := ["y", "Y", "yes", "Yes", "YES", "on", "On", "ON"].map Text.ofString

/-- More words for falsehood. -/
def noWords : List Text := ["n", "N", "no", "No", "NO", "off", "Off", "OFF"].map Text.ofString

def booleanField : Field Bool
  | .scalar s, old =>
    match s.value with
    | .null => some old
    | .boolean b => some b
    | .text t => if yesWords.contains t then some true else if noWords.contains t then some false else none
    | _ => none
  | _, _ => none

/-- A duration, which is not a bare number. -/
def durationField : Field Int
  | .scalar s, old =>
    match s.value with
    | .null => some old
    | .text t => Duration.parse? t
    | _ => none
  | _, _ => none

/-- The texts of a sequence, without those that stand for nothing. -/
def itemTexts : List Yaml.Node → Option (List Text)
  | [] => some []
  | .scalar s :: rest =>
    match s.value with
    | .null => itemTexts rest
    | _ => (itemTexts rest).map (s.text :: ·)
  | _ :: _ => none

/-- A list of texts; nothing is an empty list. -/
def textsField : Field (List Text)
  | .scalar s, _ => if s.value = .null then some [] else none
  | .sequence items, _ => itemTexts items
  | _, _ => none

/-- A part with fields of its own. Every key is known and occurs once; a key for
nothing is passed over. -/
def recordField {α : Type} (fields : List (Text × Field α)) : Field α
  | .scalar s, old => if s.value = .null then some old else none
  | node, old => do
    (← node.pairs? []).foldlM (fun a (key, node) =>
      if key.value = .null then some a
      else match fields.find? (·.1 == key.text) with
        | some (_, field) => field node a
        | none => none) old

/-- A field of a record from a field of the part that it holds. -/
def within {α β : Type} (part : α → β) (update : α → β → α) (field : Field β) : Field α :=
  fun node a => (field node (part a)).map (update a)

def proverFields : List (Text × Field ProverConfiguration) :=
  [("command", within (·.command) ({ · with command := · }) textField),
    ("arguments", within (·.arguments) ({ · with arguments := · }) textsField),
    ("time_limit", within (·.timeLimit) ({ · with timeLimit := · }) integerField)]

def cacheFields : List (Text × Field CacheConfiguration) :=
  [("directory", within (·.directory) ({ · with directory := · }) textField),
    ("max_age", within (·.maxAge) ({ · with maxAge := · }) durationField)]

def fields : List (Text × Field Configuration) :=
  [("prover", within (·.prover) ({ · with prover := · }) (recordField proverFields)),
    ("cache", within (·.cache) ({ · with cache := · }) (recordField cacheFields)),
    ("simplify", within (·.simplify) ({ · with simplify := · }) booleanField),
    ("color", within (·.color) ({ · with color := · }) textField),
    ("direction", within (·.direction) ({ · with direction := · }) textField)]

/-- The configuration in the text of a file at a path. -/
def parse (path content : Text) : Except Error Configuration := do
  match Yaml.parse? content with
  | none => throw (Fault.malformedConfiguration path "not a document of the known form" : Error)
  | some none => return standard
  | some (some node) =>
    match recordField fields node standard with
    | none => throw (Fault.malformedConfiguration path "unexpected field or value" : Error)
    | some c => validate c

/-- The text of a file with the standard configuration. -/
def standardText : Text :=
  Yaml.fieldText.fieldsText 0
    [("prover", .fields
        [("command", .text standard.prover.command),
          ("arguments", .texts standard.prover.arguments),
          ("time_limit", .word (Text.ofInt standard.prover.timeLimit.toInt))]),
      ("cache", .fields
        [("directory", .text standard.cache.directory),
          ("max_age", .text "0s")]),
      ("simplify", .word "true"),
      ("color", .text standard.color),
      ("direction", .text standard.direction)]

end Configuration

end LogicProgram
