import LogicProgram.Yaml.Scalar

/-!
# Nodes of a YAML document

A document is a tree of scalars, sequences and mappings. A mapping may ask with
the key `<<` that the pairs of another mapping, or of several, are added to its
own; where keys are the same, its own pair counts and then the one that was
added first.
-/

namespace LogicProgram.Yaml

/-- A node of a document. -/
inductive Node where
  | scalar (value : Scalar)
  | sequence (items : List Node)
  | mapping (pairs : List (Node × Node))
deriving Repr, Inhabited

namespace Node

/-- The node of a key without a value. -/
def null : Node := .scalar ⟨false, []⟩

/-- The scalar that a node is. -/
def scalar? : Node → Option Scalar
  | .scalar s => some s
  | _ => none

/-- The key that asks for pairs to be added. -/
def mergeKey : Text := "<<"

/-- Whether a scalar asks for pairs to be added. -/
def isMerge (key : Scalar) : Bool := !key.quoted && key.text == mergeKey

/-- Pairs with keys that are scalars, of which no two are the same. -/
def entries? (pairs : List (Node × Node)) : Option (List (Scalar × Node)) := do
  let entries ← pairs.mapM fun (key, value) => key.scalar?.map (·, value)
  if (entries.map (·.1.text)).Nodup then return entries else none

/-- The keys of pairs, without those that stand for nothing. -/
def keys (entries : List (Scalar × Node)) : List Text :=
  (entries.filter (·.1.value != .null)).map (·.1.text)

/-- The pairs that say something new if some keys are known. -/
def unknown (known : List Text) (entries : List (Scalar × Node)) : List (Scalar × Node) :=
  entries.filter fun (key, _) => !isMerge key && !known.contains key.text

mutual

/-- The pairs of a mapping and those that are added to it, if some keys are known
already. The key that asks for more is known to those. -/
def pairs? (known : List Text) : Node → Option (List (Scalar × Node))
  | .mapping pairs => do
    let own := unknown known (← entries? pairs)
    return own ++ (← addedPairs? (mergeKey :: known ++ keys own) pairs)
  | _ => none

/-- The pairs that are added for the first of some pairs that asks for it. -/
def addedPairs? (known : List Text) : List (Node × Node) → Option (List (Scalar × Node))
  | [] => some []
  | (key, .sequence items) :: rest =>
    if key.scalar?.any isMerge then pairsOfAll? known items else addedPairs? known rest
  | (key, value) :: rest =>
    if key.scalar?.any isMerge then pairs? known value else addedPairs? known rest

/-- The pairs of several mappings. -/
def pairsOfAll? (known : List Text) : List Node → Option (List (Scalar × Node))
  | [] => some []
  | item :: rest => do
    let first ← pairs? known item
    return first ++ (← pairsOfAll? (known ++ keys first) rest)

end

end Node

end LogicProgram.Yaml
