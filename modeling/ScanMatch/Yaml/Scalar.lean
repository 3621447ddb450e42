import ScanMatch.Yaml.Text

/-!
# YAML scalars

Plain scalars end where the style around them says so. Quoted scalars end at their quote; the
double one has escapes. In all of them line breaks are folded.
-/
namespace ScanMatch.Yaml

/-- What a scalar has passed since its last character. -/
inductive Gap where
  /-- Blanks on one line, the last first. -/
  | blanks (cs : List Char)
  /-- A line break and so many more. -/
  | folded (more : Nat)
  /-- A line break after a backslash and so many more. -/
  | hidden (more : Nat)
  deriving DecidableEq, Repr

namespace Gap

def empty : Gap := .blanks []

/-- The gap with one more blank. After a line break blanks do not count. -/
def blank (c : Char) : Gap → Gap
  | .blanks cs => .blanks (c :: cs)
  | gap => gap

/-- The gap with one more line break. Blanks before it do not count. -/
def lineBreak : Gap → Gap
  | .blanks _ => .folded 0
  | .folded more => .folded (more + 1)
  | .hidden more => .hidden (more + 1)

def isBroken : Gap → Bool
  | .blanks _ => false
  | _ => true

/-- What a gap reads as, the last character first: one line break is a space, of more the first
is dropped. -/
def text : Gap → List Char
  | .blanks cs => cs
  | .folded 0 => [' ']
  | .folded more => List.replicate more '\n'
  | .hidden more => List.replicate more '\n'

end Gap

/-- Characters that end a plain scalar in flow style. -/
def isFlowIndicator (c : Char) : Bool := [',', '[', ']', '{', '}'].contains c

/-- Characters that start no plain scalar. -/
def isIndicator (c : Char) : Bool :=
  isFlowIndicator c || ['#', '&', '*', '!', '|', '>', '\x27', '"', '%', '@', '\x60'].contains c

/-- Whether a plain scalar ends at a character after a gap. In block style its lines are indented
to the least column given. -/
def endsPlain (flow : Bool) (least : Nat) (gap : Gap) (column : Nat) (c : Char) (cs : List Char) :
    Bool :=
  (gap != .empty &&
    (c = '#' || isMarker column (c :: cs) || (!flow && decide (column < least)))) ||
  (c = ':' && endsToken cs) || (flow && isFlowIndicator c)

/-- Whether a colon in flow style stands where it neither ends a key nor belongs to a scalar. -/
def isStrayColon (c : Char) (cs : List Char) : Bool :=
  c = ':' && cs.head?.any fun d => isFlowIndicator d || d = '?'

/-- The rest of a plain scalar, and the place of what follows it. What was taken is in reverse.
The flag says whether there are line breaks at the end. -/
def plainFrom (flow : Bool) (least : Nat) (taken : List Char) (gap : Gap) (line column : Nat) :
    List Char → Option (String × Bool × Cursor)
  | [] => some (String.ofList taken.reverse, gap.isBroken, ⟨line, column, []⟩)
  | c :: cs =>
    if c = '\n' then plainFrom flow least taken gap.lineBreak (line + 1) 0 cs
    else if isBlank c then
      if c = '\t' && gap.isBroken && decide (column < least) then none
      else plainFrom flow least taken (gap.blank c) line (column + 1) cs
    else if endsPlain flow least gap column c cs then
      some (String.ofList taken.reverse, gap.isBroken, ⟨line, column, c :: cs⟩)
    else if flow && isStrayColon c cs then none
    else plainFrom flow least (c :: (gap.text ++ taken)) .empty line (column + 1) cs

/-- A plain scalar, whether line breaks come after it, and the place of what follows. -/
def plain (flow : Bool) (least : Nat) (start : Cursor) : Option (String × Bool × Cursor) :=
  plainFrom flow least [] .empty start.line start.column start.rest

def hexDigit? (c : Char) : Option Nat :=
  if c.isDigit then some (c.toNat - '0'.toNat)
  else if 'a' ≤ c ∧ c ≤ 'f' then some (c.toNat - 'a'.toNat + 10)
  else if 'A' ≤ c ∧ c ≤ 'F' then some (c.toNat - 'A'.toNat + 10)
  else none

/-- The character that so many hexadecimal digits number. -/
def numbered? (digits : Nat) (cs : List Char) : Option Char := do
  if cs.length < digits then none
  let values ← (cs.take digits).mapM hexDigit?
  let n := values.foldl (fun n d => n * 16 + d) 0
  if n.isValidChar then some (Char.ofNat n) else none

/-- The character that comes after a backslash, and how many characters spell it. -/
def escape? : List Char → Option (Char × Nat)
  | [] => none
  | c :: cs =>
    match c with
    | '0' => some ('\x00', 1)
    | 'a' => some ('\x07', 1)
    | 'b' => some ('\x08', 1)
    | 't' => some ('\t', 1)
    | '\t' => some ('\t', 1)
    | 'n' => some ('\n', 1)
    | 'v' => some ('\x0b', 1)
    | 'f' => some ('\x0c', 1)
    | 'r' => some ('\r', 1)
    | 'e' => some ('\x1b', 1)
    | ' ' => some (' ', 1)
    | '"' => some ('"', 1)
    | '/' => some ('/', 1)
    | '\\' => some ('\\', 1)
    | 'N' => some ('\x85', 1)
    | '_' => some ('\xa0', 1)
    | 'L' => some ('\u2028', 1)
    | 'P' => some ('\u2029', 1)
    | 'x' => (numbered? 2 (cs.take 2)).map (·, 3)
    | 'u' => (numbered? 4 (cs.take 4)).map (·, 5)
    | 'U' => (numbered? 8 (cs.take 8)).map (·, 9)
    | _ => none

/-- The rest of a quoted scalar, and the place after it. What was taken is in reverse. No document
may start or end inside. -/
def quotedFrom (double : Bool) : Nat → List Char → Gap → Nat → Nat → List Char →
    Option (String × Cursor)
  | 0, _, _, _, _, _ => none
  | _ + 1, _, _, _, _, [] => none
  | fuel + 1, taken, gap, line, column, c :: cs =>
    let taken' := gap.text ++ taken
    if c = '\n' then quotedFrom double fuel taken gap.lineBreak (line + 1) 0 cs
    else if isBlank c then quotedFrom double fuel taken (gap.blank c) line (column + 1) cs
    else if isMarker column (c :: cs) then none
    else if c = (if double then '"' else '\x27') then
      if !double && cs.head? = some '\x27' then
        quotedFrom double fuel (c :: taken') .empty line (column + 2) (cs.drop 1)
      else some (String.ofList taken'.reverse, ⟨line, column + 1, cs⟩)
    else if double && c = '\\' then
      if cs.head? = some '\n' then
        quotedFrom double fuel taken' (.hidden 0) (line + 1) 0 (cs.drop 1)
      else
        match escape? cs with
        | none => none
        | some (e, width) =>
          quotedFrom double fuel (e :: taken') .empty line (column + 1 + width) (cs.drop width)
    else quotedFrom double fuel (c :: taken') .empty line (column + 1) cs

/-- A quoted scalar from its opening quote on, and the place after it. -/
def quoted (double : Bool) (start : Cursor) : Option (String × Cursor) :=
  quotedFrom double start.rest.length [] .empty start.line (start.column + 1) (start.rest.drop 1)

end ScanMatch.Yaml
