import ScanMatch.Scalar

/-!
# Codecs

A document is a mapping from names to sections, and a section is a mapping from keys to scalars. How
a document stands in a text is left to a codec. What is read of a section goes key by key: one that
is missing gives its default, so neither the order of keys nor unknown keys matter.
-/
namespace ScanMatch

/-- What a section holds under a key. -/
inductive Datum (R : Type) where
  | count (n : Nat)
  | number (x : R)
  | flag (b : Bool)
  deriving DecidableEq, Repr

/-- The widths of counts. -/
inductive Width where
  | bits32
  | bits64
  deriving DecidableEq, Repr

def Width.greatest : Width → Nat
  | .bits32 => 4294967295
  | .bits64 => 18446744073709551615

/-- Reads nodes from texts and scalars from nodes, and writes sections of scalars. -/
structure Codec (R : Type) where
  Node : Type
  ofText? : String → Option Node
  /-- The entries of a mapping, in order. -/
  entries? : Node → Option (List (String × Node))
  count? : Width → Node → Option Nat
  number? : Node → Option R
  flag? : Node → Option Bool
  /-- The node that a scalar is written as. -/
  scalar : Datum R → Node
  toText? : List (String × List (String × Datum R)) → Option String

/-! ### Reading by key -/

section

variable {N α : Type}

/-- The value under a key, if it is there. A key that is there twice is refused. -/
def valueOf? (key : String) (entries : List (String × N)) : Option (Option N) :=
  match entries.filter (·.1 = key) with
  | [] => some none
  | [(_, value)] => some (some value)
  | _ => none

theorem filter_key_eq_nil {key : String} {entries : List (String × N)}
    (h : key ∉ entries.map Prod.fst) : entries.filter (·.1 = key) = [] := by
  rw [List.filter_eq_nil_iff]
  intro e he hkey
  exact h (List.mem_map.2 ⟨e, he, of_decide_eq_true hkey⟩)

/-- What is read under a key, or the default if the key is missing. -/
def valueOr (key : String) (read : N → Option α) (default : α) (entries : List (String × N)) :
    Option α := do
  match ← valueOf? key entries with
  | none => return default
  | some value => read value

end

namespace Codec

variable {R : Type} (codec : Codec R)

/-- What is read of the entries of a mapping. -/
def fromEntries? {α : Type} (read : List (String × codec.Node) → Option α) (node : codec.Node) :
    Option α :=
  (codec.entries? node).bind read

/-- The entries of a section as they are written. -/
def nodes (entries : List (String × Datum R)) : List (String × codec.Node) :=
  entries.map fun (key, value) => (key, codec.scalar value)

/-! ### Laws -/

/-- Each single scalar is read back as it was written, except for what is not a number. -/
structure ScalarsReadBack [Arith R] : Prop where
  count : ∀ (width : Width) (n : Nat), n ≤ width.greatest →
    codec.count? width (codec.scalar (.count n)) = some n
  number : ∀ x : R, Arith.isNaN x = false → codec.number? (codec.scalar (.number x)) = some x
  flag : ∀ b : Bool, codec.flag? (codec.scalar (.flag b)) = some b

/-- A letter, and letters and underscores after it, no longer than a key that needs no mark. -/
def isName (key : String) : Bool :=
  key.toList.head?.any Char.isAlpha && key.toList.all (fun c => c.isAlpha || c = '_') &&
    decide (key.toList.length ≤ 1024)

/-- Mappings with names for keys, none of them empty, are read back with the same keys and
values. -/
def MappingsReadBack : Prop :=
  ∀ sections : List (String × List (String × Datum R)), sections ≠ [] →
    (∀ s ∈ sections, isName s.1 ∧ s.2 ≠ [] ∧ ∀ e ∈ s.2, isName e.1) →
    ∃ text node entries, codec.toText? sections = some text ∧ codec.ofText? text = some node ∧
      codec.entries? node = some entries ∧
      entries.map (fun e => (e.1, codec.entries? e.2)) =
        sections.map fun s => (s.1, some (codec.nodes s.2))

end Codec

end ScanMatch
