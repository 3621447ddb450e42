import ScanMatch.Yaml.Token

/-!
# YAML nodes

What a document holds, and how tokens make nodes.
-/
namespace ScanMatch.Yaml

inductive Node where
  | empty
  | plain (text : String)
  | quoted (text : String)
  | sequence (items : List Node)
  | mapping (entries : List (Node × Node))
  deriving Repr

namespace Node

def text? : Node → Option String
  | .empty => some ""
  | .plain text => some text
  | .quoted text => some text
  | _ => none

/-- The entries of a mapping whose keys are scalars. Nothing counts as no entries. -/
def entries? : Node → Option (List (String × Node))
  | .empty => some []
  | .mapping entries => entries.mapM fun (key, value) => key.text?.map (·, value)
  | _ => none

end Node

/-- Whether the tokens go on with one of a list. -/
def goesOn (ts : List Token) (ends : List Token) : Bool := ts.head?.any ends.contains

mutual

/-- A node, in block style or not, and the tokens after it. A sequence in block style may go
without a column of its own, if so asked. -/
def node : Nat → Bool → Bool → List Token → Option (Node × List Token)
  | 0, _, _, _ => none
  | _ + 1, _, _, [] => none
  | fuel + 1, block, flat, t :: ts =>
    match t with
    | .plain text => some (.plain text, ts)
    | .quoted text => some (.quoted text, ts)
    | .flowSequence => (flowItems fuel true ts).map fun (items, ts) => (.sequence items, ts)
    | .flowMapping => (flowEntries fuel true ts).map fun (entries, ts) => (.mapping entries, ts)
    | .blockSequence =>
      if block then (blockItems fuel ts).map fun (items, ts) => (.sequence items, ts) else none
    | .blockMapping =>
      if block then (blockEntries fuel ts).map fun (entries, ts) => (.mapping entries, ts)
      else none
    | .item =>
      if flat then (flatItems fuel (t :: ts)).map fun (items, ts) => (.sequence items, ts)
      else none
    | _ => none

/-- A node, or nothing if one of the tokens given comes next, and the tokens after it. -/
def nodeUnless : Nat → List Token → Bool → Bool → List Token → Option (Node × List Token)
  | 0, _, _, _, _ => none
  | fuel + 1, ends, block, flat, ts =>
    if goesOn ts ends then some (.empty, ts) else node fuel block flat ts

/-- The items of a sequence in block style, and the tokens after its end. -/
def blockItems : Nat → List Token → Option (List Node × List Token)
  | 0, _ => none
  | fuel + 1, ts =>
    match ts with
    | .item :: ts => do
      let (item, ts) ← nodeUnless fuel [.item, .blockEnd] true false ts
      let (items, ts) ← blockItems fuel ts
      return (item :: items, ts)
    | .blockEnd :: ts => some ([], ts)
    | _ => none

/-- The items of a sequence without a column of its own, and the tokens after them. -/
def flatItems : Nat → List Token → Option (List Node × List Token)
  | 0, _ => none
  | fuel + 1, ts =>
    match ts with
    | .item :: ts => do
      let (item, ts) ← nodeUnless fuel [.item, .key, .value, .blockEnd] true false ts
      let (items, ts) ← flatItems fuel ts
      return (item :: items, ts)
    | _ => some ([], ts)

/-- The value of an entry, if a value is marked, and the tokens after it. -/
def entryValue : Nat → List Token → Bool → List Token → Option (Node × List Token)
  | 0, _, _, _ => none
  | fuel + 1, ends, block, ts =>
    match ts with
    | .value :: ts => nodeUnless fuel ends block block ts
    | _ => some (.empty, ts)

/-- The entries of a mapping in block style, and the tokens after its end. -/
def blockEntries : Nat → List Token → Option (List (Node × Node) × List Token)
  | 0, _ => none
  | fuel + 1, ts =>
    match ts with
    | .key :: ts => do
      let (key, ts) ← nodeUnless fuel [.key, .value, .blockEnd] true true ts
      let (value, ts) ← entryValue fuel [.key, .value, .blockEnd] true ts
      let (entries, ts) ← blockEntries fuel ts
      return ((key, value) :: entries, ts)
    | .blockEnd :: ts => some ([], ts)
    | _ => none

/-- The items of a sequence in flow style, and the tokens after its end. Each but the first comes
after a comma; an entry is a mapping of its own. -/
def flowItems : Nat → Bool → List Token → Option (List Node × List Token)
  | 0, _, _ => none
  | fuel + 1, first, ts =>
    match ts with
    | .flowSequenceEnd :: ts => some ([], ts)
    | _ => do
      let ts ←
        match first, ts with
        | true, ts => some ts
        | false, .comma :: ts => some ts
        | false, _ => none
      match ts with
      | .flowSequenceEnd :: ts => return ([], ts)
      | .key :: ts =>
        let (key, ts) ←
          if goesOn ts [.value, .comma, .flowSequenceEnd] then some (.empty, ts.drop 1)
          else node fuel false false ts
        let (value, ts) ← entryValue fuel [.comma, .flowSequenceEnd] false ts
        let (items, ts) ← flowItems fuel false ts
        return (.mapping [(key, value)] :: items, ts)
      | _ =>
        let (item, ts) ← node fuel false false ts
        let (items, ts) ← flowItems fuel false ts
        return (item :: items, ts)

/-- The entries of a mapping in flow style, and the tokens after its end. Each but the first comes
after a comma; a node that is not marked as a key is a key without a value. -/
def flowEntries : Nat → Bool → List Token → Option (List (Node × Node) × List Token)
  | 0, _, _ => none
  | fuel + 1, first, ts =>
    match ts with
    | .flowMappingEnd :: ts => some ([], ts)
    | _ => do
      let ts ←
        match first, ts with
        | true, ts => some ts
        | false, .comma :: ts => some ts
        | false, _ => none
      match ts with
      | .flowMappingEnd :: ts => return ([], ts)
      | .key :: ts =>
        let (key, ts) ← nodeUnless fuel [.value, .comma, .flowMappingEnd] false false ts
        let (value, ts) ← entryValue fuel [.comma, .flowMappingEnd] false ts
        let (entries, ts) ← flowEntries fuel false ts
        return ((key, value) :: entries, ts)
      | _ =>
        let (key, ts) ← node fuel false false ts
        let (entries, ts) ← flowEntries fuel false ts
        return ((key, .empty) :: entries, ts)

end

end ScanMatch.Yaml
