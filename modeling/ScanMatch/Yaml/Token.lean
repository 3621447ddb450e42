import ScanMatch.Yaml.Scalar

/-!
# YAML tokens

The marks and scalars of a text. In block style columns tell where collections start and end. That
a scalar or a collection in flow style was a key is known only at the colon after it, so the key
and perhaps the mapping that it opens are put in front of it then. Such a key takes one line and
at most 1024 characters.

Covered are mappings, sequences, plain and quoted scalars, comments and document marks; anchors,
tags, block scalars and directives are refused.
-/
namespace ScanMatch.Yaml

inductive Token where
  | documentStart
  | documentEnd
  | blockSequence
  | blockMapping
  | blockEnd
  | flowSequence
  | flowSequenceEnd
  | flowMapping
  | flowMappingEnd
  | comma
  | item
  | key
  | value
  | plain (text : String)
  | quoted (text : String)
  deriving DecidableEq, Repr

/-- A place where a key without a question mark may have started. -/
structure KeyStart where
  line : Nat
  column : Nat
  /-- Whether there must be a key, as nothing else may stand in the column. -/
  required : Bool
  before : Nat
  deriving DecidableEq, Repr

/-- Whether it is too late for the colon after the key. -/
def KeyStart.isPast (k : KeyStart) (at' : Cursor) : Bool :=
  decide (k.line < at'.line) || decide (k.column + 1024 < at'.column)

/-- The tokens found so far, and what is needed to find more. -/
structure Scanner where
  cursor : Cursor
  /-- The tokens, the last first. -/
  tokens : List Token
  count : Nat
  /-- The columns of the open collections in block style, the innermost first. -/
  columns : List Nat
  /-- Where a key of the innermost collection may have started. -/
  keyStart : Option KeyStart
  /-- The same for each collection around an open one in flow style, the innermost first. -/
  outer : List (Option KeyStart)
  keyAllowed : Bool
  deriving DecidableEq, Repr

namespace Scanner

def ofText (cs : List Char) : Scanner := ⟨⟨0, 0, cs⟩, [], 0, [], none, [], true⟩

def inFlow (s : Scanner) : Bool := !s.outer.isEmpty

def emit (s : Scanner) (t : Token) : Scanner :=
  { s with tokens := t :: s.tokens, count := s.count + 1 }

/-- One more token, with so many before it. -/
def emitAt (s : Scanner) (before : Nat) (t : Token) : Scanner :=
  { s with tokens := s.tokens.insertIdx (s.count - before) t, count := s.count + 1 }

/-- The state after so many characters of the line. -/
def skip (s : Scanner) (n : Nat) : Scanner :=
  { s with cursor := ⟨s.cursor.line, s.cursor.column + n, s.cursor.rest.drop n⟩ }

/-- The next character that is in no blank, comment or line break. Tabs may stand where no key
may start and in flow style, and a line in block style may start with a key. -/
def gap (flow comment keyAllowed : Bool) (line column : Nat) : List Char → Bool × Cursor
  | [] => (keyAllowed, ⟨line, column, []⟩)
  | c :: cs =>
    if c = '\n' then gap flow false (keyAllowed || !flow) (line + 1) 0 cs
    else if comment || c = '#' then gap flow true keyAllowed line (column + 1) cs
    else if c = ' ' || (c = '\t' && (flow || !keyAllowed)) ||
        (c = '\uFEFF' && decide (column = 0)) then
      gap flow false keyAllowed line (column + 1) cs
    else (keyAllowed, ⟨line, column, c :: cs⟩)

def approach (s : Scanner) : Scanner :=
  let (keyAllowed, cursor) :=
    gap s.inFlow false s.keyAllowed s.cursor.line s.cursor.column s.cursor.rest
  { s with keyAllowed, cursor }

/-- A place where a key may have started, unless it is too late. A key that must be there and is
not is refused. -/
def live? (at' : Cursor) : Option KeyStart → Option (Option KeyStart)
  | none => some none
  | some k => if !k.isPast at' then some (some k) else if k.required then none else some none

/-- The state without the places of keys that are past. -/
def dropPast (s : Scanner) : Option Scanner := do
  let keyStart ← live? s.cursor s.keyStart
  let outer ← s.outer.mapM (live? s.cursor)
  return { s with keyStart, outer }

/-- The state without a place of a key in the innermost collection. -/
def dropKey (s : Scanner) : Option Scanner :=
  if s.keyStart.any KeyStart.required then none else some { s with keyStart := none }

/-- The state with this place for a key, if one may start here. -/
def saveKey (s : Scanner) : Option Scanner :=
  if s.keyAllowed then do
    let s ← s.dropKey
    let required := !s.inFlow && decide (s.columns.head? = some s.cursor.column)
    return { s with keyStart := some ⟨s.cursor.line, s.cursor.column, required, s.count⟩ }
  else some s

/-- Ends the collections in block style whose column is given up. -/
def close (s : Scanner) (ends : Nat → Bool) : Scanner :=
  if s.inFlow then s
  else (s.columns.takeWhile ends).foldl (fun s _ => s.emit .blockEnd)
    { s with columns := s.columns.dropWhile ends }

/-- Starts a collection in block style in a column, unless one is open there. So many tokens come
before it. -/
def enter (s : Scanner) (column before : Nat) (t : Token) : Scanner :=
  if s.inFlow || s.columns.head?.any (decide <| column ≤ ·) then s
  else { s.emitAt before t with columns := column :: s.columns }

def documentMark (s : Scanner) (t : Token) : Option Scanner := do
  let s ← (s.close fun _ => true).dropKey
  return { (s.emit t).skip 3 with keyAllowed := false }

/-- The start of a collection in flow style. It may itself be a key. -/
def flowStart (s : Scanner) (t : Token) : Option Scanner := do
  let s ← s.saveKey
  return { (s.emit t).skip 1 with
    keyStart := none, outer := s.keyStart :: s.outer, keyAllowed := true }

/-- The end of a collection in flow style. -/
def flowEnd (s : Scanner) (t : Token) : Option Scanner := do
  let s ← s.dropKey
  return { (s.emit t).skip 1 with
    keyStart := s.outer.head?.join, outer := s.outer.tail, keyAllowed := false }

def comma (s : Scanner) : Option Scanner := do
  let s ← s.dropKey
  return { (s.emit .comma).skip 1 with keyAllowed := true }

/-- A dash before an item, or a question mark before a key. In block style it may open a
collection, where a key may start. -/
def indicator (s : Scanner) (collection t : Token) (keyAllowed : Bool) : Option Scanner := do
  if !s.inFlow && !s.keyAllowed then none
  let s ← (s.enter s.cursor.column s.count collection).dropKey
  return { (s.emit t).skip 1 with keyAllowed }

/-- The colon before a value. The key before it, if it had no mark, gets one. -/
def colon (s : Scanner) : Option Scanner :=
  match s.keyStart with
  | some k =>
    let s := (s.emitAt k.before .key).enter k.column k.before .blockMapping
    some { (s.emit .value).skip 1 with keyStart := none, keyAllowed := false }
  | none =>
    if !s.inFlow && !s.keyAllowed then none
    else
      let s := s.enter s.cursor.column s.count .blockMapping
      some { (s.emit .value).skip 1 with keyAllowed := !s.inFlow }

def quotedScalar (s : Scanner) (double : Bool) : Option Scanner := do
  let s ← s.saveKey
  let (text, cursor) ← quoted double s.cursor
  return { s.emit (.quoted text) with cursor, keyAllowed := false }

/-- A plain scalar. A key may start on a line after it. -/
def plainScalar (s : Scanner) : Option Scanner := do
  let s ← s.saveKey
  let least := (s.columns.head?.map (· + 1)).getD 0
  let (text, broken, cursor) ← Yaml.plain s.inFlow least s.cursor
  return { s.emit (.plain text) with cursor, keyAllowed := broken }

/-- The state after the token that starts with a character. -/
def token (s : Scanner) (c : Char) (cs : List Char) : Option Scanner :=
  if isMarker s.cursor.column (c :: cs) then
    s.documentMark (if c = '-' then .documentStart else .documentEnd)
  else if c = '[' then s.flowStart .flowSequence
  else if c = '{' then s.flowStart .flowMapping
  else if c = ']' then s.flowEnd .flowSequenceEnd
  else if c = '}' then s.flowEnd .flowMappingEnd
  else if c = ',' then s.comma
  else if c = '-' && endsToken cs then s.indicator .blockSequence .item true
  else if c = '?' && (s.inFlow || endsToken cs) then s.indicator .blockMapping .key (!s.inFlow)
  else if c = ':' && (s.inFlow || endsToken cs) then s.colon
  else if c = '\x27' then s.quotedScalar false
  else if c = '"' then s.quotedScalar true
  else if isBlank c || isIndicator c then none
  else s.plainScalar

/-- The state after all tokens of the rest of the text. -/
def finish (s : Scanner) : Option Scanner := (s.close fun _ => true).dropKey

/-- All tokens, in at most so many steps. -/
def run : Nat → Scanner → Option (List Token)
  | 0, _ => none
  | fuel + 1, s => do
    let s ← s.approach.dropPast
    let s := s.close (decide <| s.cursor.column < ·)
    match s.cursor.rest with
    | [] => return (← s.finish).tokens.reverse
    | c :: cs => run fuel (← s.token c cs)

end Scanner

/-- The tokens of a text. There are no more steps than characters, and one for the end. -/
def tokens? (cs : List Char) : Option (List Token) := (Scanner.ofText cs).run (cs.length + 1)

end ScanMatch.Yaml
