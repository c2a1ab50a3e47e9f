import LogicProgram.Yaml.Node
import LogicProgram.Yaml.Token

/-!
# Reading YAML

The first document of a text is read from its tokens. It consists of block
mappings and sequences, plain and quoted scalars, and mappings and sequences in
brackets. Tags, anchors, block scalars and directives are refused. What follows
the document is looked at only as far as its tokens have to be known.
-/

namespace LogicProgram.Yaml

open Lexing (peek take)

/-- How a node is read: whether it may be a block, and whether a sequence may
start at the column of its key. -/
abbrev NodeReader := (block sameColumn : Bool) → Lexing Node

/-- A node, or nothing before one of some tokens. -/
def nodeUnless (stops : List Token) (node : Lexing Node) : Lexing Node := do
  if stops.contains (← peek) then return .null else node

/-- The entries of a block sequence, at most `n`. -/
def blockEntries (node : NodeReader) : (n : Nat) → Lexing (List Node)
  | 0 => failure
  | n + 1 => do
    match ← peek with
    | .blockEntry =>
      take
      let item ← nodeUnless [.blockEntry, .blockEnd] (node true false)
      return item :: (← blockEntries node n)
    | .blockEnd =>
      take
      return []
    | _ => failure

/-- The entries, at most `n`, of a sequence at the column of its key. -/
def sameColumnEntries (node : NodeReader) : (n : Nat) → Lexing (List Node)
  | 0 => failure
  | n + 1 => do
    match ← peek with
    | .blockEntry =>
      take
      let item ← nodeUnless [.blockEntry, .key, .value, .blockEnd] (node true false)
      return item :: (← sameColumnEntries node n)
    | _ => return []

/-- The pairs of a block mapping, at most `n`. -/
def blockPairs (node : NodeReader) : (n : Nat) → Lexing (List (Node × Node))
  | 0 => failure
  | n + 1 => do
    match ← peek with
    | .key =>
      take
      let stops : List Token := [.key, .value, .blockEnd]
      let key ← nodeUnless stops (node true true)
      let value ← do
        if (← peek) = .value then
          take
          nodeUnless stops (node true true)
        else pure Node.null
      return (key, value) :: (← blockPairs node n)
    | .blockEnd =>
      take
      return []
    | _ => failure

/-- A value between brackets, if a colon comes before it. -/
def flowValue (node : NodeReader) (closing : Token) : Lexing Node := do
  if (← peek) = .value then
    take
    nodeUnless [.flowEntry, closing] (node false false)
  else return .null

/-- The only pair of a mapping that stands without brackets in a sequence, after
the mark of its key. Without a key one token is passed. -/
def singlePair (node : NodeReader) : Lexing (Node × Node) := do
  let key ← do
    if [.value, .flowEntry, .flowSequenceEnd].contains (← peek) then
      take
      pure Node.null
    else node false false
  return (key, ← flowValue node .flowSequenceEnd)

/-- The nodes of a sequence in brackets, at most `n`. Before all but the first
stands a comma, and one may stand after the last. -/
def flowItems (node : NodeReader) : (n : Nat) → (isFirst : Bool) → Lexing (List Node)
  | 0, _ => failure
  | n + 1, isFirst => do
    if (← peek) != .flowSequenceEnd && !isFirst then
      Lexing.require ((← peek) = .flowEntry)
      take
    match ← peek with
    | .flowSequenceEnd =>
      take
      return []
    | .key =>
      take
      let pair ← singlePair node
      return .mapping [pair] :: (← flowItems node n false)
    | _ =>
      let item ← node false false
      return item :: (← flowItems node n false)

/-- The pairs of a mapping in brackets, at most `n`. Before all but the first
stands a comma, and one may stand after the last. -/
def flowPairs (node : NodeReader) : (n : Nat) → (isFirst : Bool) → Lexing (List (Node × Node))
  | 0, _ => failure
  | n + 1, isFirst => do
    if (← peek) != .flowMappingEnd && !isFirst then
      Lexing.require ((← peek) = .flowEntry)
      take
    match ← peek with
    | .flowMappingEnd =>
      take
      return []
    | .key =>
      take
      let key ← nodeUnless [.value, .flowEntry, .flowMappingEnd] (node false false)
      let value ← flowValue node .flowMappingEnd
      return (key, value) :: (← flowPairs node n false)
    | _ =>
      let key ← node false false
      return (key, .null) :: (← flowPairs node n false)

/-- A node, nested at most `n` deep. -/
def node (bound : Nat) : (n : Nat) → NodeReader
  | 0, _, _ => failure
  | n + 1, block, sameColumn => do
    match ← peek with
    | .scalar s =>
      take
      return .scalar s
    | .flowSequenceStart =>
      take
      return .sequence (← flowItems (node bound n) bound true)
    | .flowMappingStart =>
      take
      return .mapping (← flowPairs (node bound n) bound true)
    | .blockEntry =>
      Lexing.require sameColumn
      return .sequence (← sameColumnEntries (node bound n) bound)
    | .blockSequenceStart =>
      Lexing.require block
      take
      return .sequence (← blockEntries (node bound n) bound)
    | .blockMappingStart =>
      Lexing.require block
      take
      return .mapping (← blockPairs (node bound n) bound)
    | _ => failure

/-- The first document; none if there is nothing in the text. The token after it
is looked at. -/
def document : Lexing (Option Node) := do
  let bound := 4 * (← get).source.size + 8
  match ← peek with
  | .streamEnd => return none
  | .documentStart =>
    take
    let content ← nodeUnless [.documentStart, .documentEnd, .streamEnd] (node bound bound true false)
    let _ ← peek
    return some content
  | _ =>
    let content ← node bound bound true false
    let _ ← peek
    return some content

/-- The first document of a text, `none` inside if there is nothing in it; no
result if the text is refused. -/
def parse? (t : Text) : Option (Option Node) := (document.run (.ofText t)).map (·.1)

end LogicProgram.Yaml
