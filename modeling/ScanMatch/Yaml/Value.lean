import ScanMatch.Decimal.Numeral
import ScanMatch.Yaml.Node

/-!
# Values of YAML nodes

Counts, numbers and flags are plain scalars; in quotes they are text.
-/
namespace ScanMatch.Yaml

def digit? (base : Nat) (c : Char) : Option Nat := (hexDigit? c).filter (decide <| · < base)

/-- The number that digits of a base spell. There must be digits. -/
def natural? (base : Nat) (cs : List Char) : Option Nat :=
  if cs.isEmpty then none
  else (cs.mapM (digit? base)).map fun ds => ds.foldl (fun n d => n * base + d) 0

/-- Whether digits start with a zero that they do not need. -/
def hasLeadingZero (cs : List Char) : Bool :=
  decide (1 < cs.length) && cs.head? = some '0' && cs.all Char.isDigit

/-- The count that a text spells: decimal digits without leading zeros, or hexadecimal, octal or
binary digits after `0x`, `0o` or `0b`. One plus sign may come first. -/
def count? (cs : List Char) : Option Nat :=
  let unsigned :=
    match cs with
    | '+' :: rest => rest
    | cs => cs
  match unsigned with
  | '0' :: 'x' :: digits => natural? 16 digits
  | '0' :: 'o' :: digits => natural? 8 digits
  | '0' :: 'b' :: digits => natural? 2 digits
  | digits => if hasLeadingZero digits then none else natural? 10 digits

def flag? (text : String) : Option Bool :=
  if text ∈ ["true", "True", "TRUE"] then some true
  else if text ∈ ["false", "False", "FALSE"] then some false
  else none

namespace Node

def plain? : Node → Option String
  | .plain text => some text
  | _ => none

def count? (limit : Nat) (n : Node) : Option Nat :=
  (n.plain?.bind fun text => Yaml.count? text.toList).filter (decide <| · ≤ limit)

def number? {R : Type} [Numeral R] (n : Node) : Option R :=
  n.plain?.bind fun text => Numeral.ofScalar? text.toList

def flag? (n : Node) : Option Bool := n.plain?.bind Yaml.flag?

end Node

end ScanMatch.Yaml
