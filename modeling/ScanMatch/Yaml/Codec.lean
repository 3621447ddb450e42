import ScanMatch.Config.Codec
import ScanMatch.Yaml.Document
import ScanMatch.Yaml.Value

/-!
# YAML as a codec

Sections are written in block style, with keys indented by two blanks.
-/
namespace ScanMatch.Yaml

variable {R : Type} [Numeral R]

def scalarText : Datum R → String
  | .count n => toString n
  | .number x => Numeral.document x
  | .flag b => if b then "true" else "false"

def render (sections : List (String × List (String × String))) : String :=
  String.join <| sections.map fun (name, entries) =>
    name ++ ":\n" ++ String.join (entries.map fun (key, value) =>
      "  " ++ key ++ ": " ++ value ++ "\n")

/-- The text of every scalar in place of the scalar. -/
def scalarTexts (sections : List (String × List (String × Datum R))) :
    List (String × List (String × String)) :=
  sections.map fun (name, entries) => (name, entries.map fun (key, d) => (key, scalarText d))

@[reducible]
def codec : Codec R where
  Node := Node
  ofText? := ofText?
  entries? := Node.entries?
  count? width node := node.count? width.greatest
  number? := Node.number?
  flag? := Node.flag?
  scalar d := .plain (scalarText d)
  toText? sections := some (render (scalarTexts sections))

end ScanMatch.Yaml
