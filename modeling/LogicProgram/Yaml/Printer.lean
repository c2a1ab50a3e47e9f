import LogicProgram.Text.Quoted
import LogicProgram.Yaml.Node

/-!
# Writing YAML

Mappings and sequences are written as blocks, indented by four spaces. A text
that would be read back as something else is put in quotes.
-/

namespace LogicProgram.Yaml

/-- A text as a scalar, in quotes if a plain one would not be read as text. -/
def scalarText (t : Text) : Text :=
  match (Scalar.mk false t).value with
  | .text _ => t
  | _ => Text.quote t

/-- The indentation of a depth. -/
def indentation (depth : Nat) : Text := List.replicate (4 * depth) ' '.toUInt8

/-- An entry of a sequence. -/
def entryLine (depth : Nat) (t : Text) : Text := indentation depth ++ "- " ++ scalarText t ++ "\n"

/-- A value as it is written after its key. -/
inductive Written where
  | text (value : Text)
  /-- Something that is written as it is. -/
  | word (value : Text)
  | texts (values : List Text)
  /-- Fields of its own. -/
  | fields (pairs : List (Text × Written))

/-- The lines of a field at a depth. -/
def fieldText (depth : Nat) (key : Text) : Written → Text
  | .text t => indentation depth ++ key ++ ": " ++ scalarText t ++ "\n"
  | .word t => indentation depth ++ key ++ ": " ++ t ++ "\n"
  | .texts ts =>
    indentation depth ++ key ++ ":" ++ (if ts.isEmpty then (" []\n" : Text)
      else "\n" ++ (ts.map (entryLine (depth + 1))).flatten)
  | .fields pairs => indentation depth ++ key ++ ":\n" ++ fieldsText (depth + 1) pairs
where
  /-- The lines of several fields at a depth. -/
  fieldsText (depth : Nat) : List (Text × Written) → Text
    | [] => []
    | (key, value) :: rest => fieldText depth key value ++ fieldsText depth rest

end LogicProgram.Yaml
