import ScanMatch.Yaml.Node

/-!
# YAML documents

A text holds one document. It may start at three dashes and end at three dots; a second document
is refused.
-/
namespace ScanMatch.Yaml

/-- The node of the tokens of one document. A document that is not started by a mark must hold
something. No chain of calls takes more than two for a token, the first apart. -/
def document? (ts : List Token) : Option Node :=
  let fuel := 2 * ts.length + 2
  let content? : Option (Node × List Token) :=
    match ts with
    | [] => some (.empty, [])
    | .documentStart :: ts =>
      if ts.isEmpty then some (.empty, ts)
      else nodeUnless fuel [.documentStart, .documentEnd] true false ts
    | ts => node fuel true false ts
  match content? with
  | some (node, rest) => if rest.all (· = .documentEnd) then some node else none
  | none => none

def ofText? (text : String) : Option Node := do document? (← tokens? (← characters? text))

theorem ofText?_eq (text : String) :
    ofText? text = ((characters? text).bind tokens?).bind document? := by
  cases h : characters? text <;> simp [ofText?, h]

end ScanMatch.Yaml
