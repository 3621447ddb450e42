/-!
# YAML texts

The characters of a text, its line breaks, and places in it. A byte order mark is a character like
others; where it starts a line it is passed over, but it keeps its column.
-/
namespace ScanMatch.Yaml

def isBlank (c : Char) : Bool := c = ' ' || c = '\t'

def isBreak (c : Char) : Bool :=
  c = '\n' || c = '\r' || c = '\x85' || c = '\u2028' || c = '\u2029'

/-- Whether a character may stand in a text. -/
def isPrintable (c : Char) : Bool :=
  let n := c.toNat
  n = 0x09 || n = 0x0A || n = 0x0D || (0x20 ≤ n && n ≤ 0x7E) || n = 0x85 ||
    (0xA0 ≤ n && n ≤ 0xD7FF) || (0xE000 ≤ n && n ≤ 0xFFFD) || 0x10000 ≤ n

/-- All line breaks as line feeds; a carriage return and a line feed are one break. -/
def unifyBreaks : List Char → List Char
  | [] => []
  | '\r' :: '\n' :: cs => '\n' :: unifyBreaks cs
  | c :: cs => (if isBreak c then '\n' else c) :: unifyBreaks cs

/-- The characters of a text, if all of them may stand in it. -/
def characters? (text : String) : Option (List Char) :=
  if text.toList.all isPrintable then some (unifyBreaks text.toList) else none

/-- Whether a blank, a line break or the end comes next. -/
def endsToken : List Char → Bool
  | [] => true
  | c :: _ => isBlank c || c = '\n'

/-- Whether three equal characters and the end of a token come next. -/
def isTriple (c : Char) (cs : List Char) : Bool := [c, c, c].isPrefixOf cs && endsToken (cs.drop 3)

/-- Whether the start or the end of a document is marked here. -/
def isMarker (column : Nat) (cs : List Char) : Bool :=
  decide (column = 0) && (isTriple '-' cs || isTriple '.' cs)

/-- A place in a text, with the text from there on. -/
structure Cursor where
  line : Nat
  column : Nat
  rest : List Char
  deriving DecidableEq, Repr

end ScanMatch.Yaml
