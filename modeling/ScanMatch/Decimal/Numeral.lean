import ScanMatch.Decimal.Shortest

/-!
# Numerals

Numbers as text: in messages, in written documents, and as read from documents.
-/
namespace ScanMatch

structure Layout where
  tie : Tie
  /-- Numbers whose point stands within these bounds, counted from the first digit, are written
  without an exponent. Without bounds all are. -/
  positional : Option (Int × Int)
  wholeEnd : String
  infinite : String
  notANumber : String
  deriving DecidableEq, Repr

namespace Layout

/-- Numbers in messages have no exponent and no point without need. -/
def message : Layout := ⟨.up, none, "", "inf", "NaN"⟩

/-- Numbers in documents keep a point, and have an exponent below `0.00001` and from `10 ^ 16`
on. -/
def document : Layout := ⟨.even, some (-4, 16), ".0", ".inf", ".nan"⟩

def zeros (n : Nat) : String := String.ofList (List.replicate n '0')

/-- Digits without an exponent, the point after so many of them. -/
def fixed (layout : Layout) (digits : List Char) (point : Int) : String :=
  if point ≤ 0 then "0." ++ zeros (-point).toNat ++ String.ofList digits
  else if digits.length ≤ point.toNat then
    String.ofList digits ++ zeros (point.toNat - digits.length) ++ layout.wholeEnd
  else String.ofList (digits.take point.toNat) ++ "." ++ String.ofList (digits.drop point.toNat)

/-- Digits with an exponent, the point after the first of them. -/
def scientific (digits : List Char) (point : Int) : String :=
  let rest := digits.drop 1
  let fraction := if rest.isEmpty then "" else "." ++ String.ofList rest
  String.ofList (digits.take 1) ++ fraction ++ "e" ++ toString (point - 1)

def positive (layout : Layout) (d : Decimal) : String :=
  let digits := Nat.toDigits 10 d.digits
  let point := (digits.length : Int) + d.exponent
  match layout.positional with
  | none => layout.fixed digits point
  | some (least, greatest) =>
    if least ≤ point ∧ point ≤ greatest then layout.fixed digits point
    else scientific digits point

def write (layout : Layout) (x : Float) : String :=
  if x.isNaN then layout.notANumber
  else
    let sign := if Binary64.isNegative x then "-" else ""
    if x.isInf then sign ++ layout.infinite
    else
      let m := Binary64.magnitude x
      if m.significand = 0 then sign ++ "0" ++ layout.wholeEnd
      else sign ++ layout.positive (m.shortest layout.tie)

end Layout

namespace Decimal

/-- The value nearest to a decimal, infinite if it is too great. Far out of range the digits do
not matter, so they are not multiplied out. -/
def toFloat (d : Decimal) : Float :=
  let point := ((Nat.toDigits 10 d.digits).length : Int) + d.exponent
  if d.digits = 0 then 0
  else if 400 < point then 1.0 / 0.0
  else if point < -400 then 0
  else Float.ofScientific d.digits (decide (d.exponent < 0)) d.exponent.natAbs

def ofDigits (cs : List Char) : Nat := cs.foldl (fun n c => n * 10 + (c.toNat - '0'.toNat)) 0

/-- The exponent after a letter `e`, with an optional sign and at least one digit. -/
def exponent? : List Char → Option Int
  | '+' :: cs => unsigned? cs
  | '-' :: cs => (unsigned? cs).map (-·)
  | cs => unsigned? cs
where
  unsigned? (cs : List Char) : Option Int :=
    if cs ≠ [] ∧ cs.all Char.isDigit then some (ofDigits cs) else none

/-- An unsigned decimal: digits with a point among, before or after them, and an optional
exponent. -/
def ofText? (cs : List Char) : Option Decimal :=
  let whole := cs.takeWhile Char.isDigit
  let cs := cs.dropWhile Char.isDigit
  let (fraction, cs) :=
    match cs with
    | '.' :: cs => (cs.takeWhile Char.isDigit, cs.dropWhile Char.isDigit)
    | cs => ([], cs)
  if whole.isEmpty && fraction.isEmpty then none
  else
    let exponent? :=
      match cs with
      | [] => some 0
      | c :: cs => if c = 'e' ∨ c = 'E' then exponent? cs else none
    exponent?.map fun e => ⟨ofDigits (whole ++ fraction), e - (fraction.length : Int)⟩

end Decimal

/-- Numbers that can be written in messages and documents and read from documents. -/
class Numeral (R : Type) where
  message : R → String
  document : R → String
  ofScalar? : List Char → Option R

namespace Numeral

/-- A finite number with or without a minus sign. -/
def finite? (cs : List Char) : Option Float :=
  let value? (cs : List Char) : Option Float := (Decimal.ofText? cs).map Decimal.toFloat
  let x? :=
    match cs with
    | '-' :: cs => (value? cs).map (-·)
    | cs => value? cs
  x?.filter Float.isFinite

/-- The number that a plain scalar spells. One leading plus sign is dropped; infinity and what is
not a number are spelled with a point in front, and no other number may exceed the finite ones. -/
def float? (cs : List Char) : Option Float :=
  match cs with
  | '+' :: '+' :: _ | '+' :: '-' :: _ => none
  | _ =>
    let unsigned :=
      match cs with
      | '+' :: rest => rest
      | cs => cs
    if String.ofList unsigned ∈ [".inf", ".Inf", ".INF"] then some (1.0 / 0.0)
    else if String.ofList cs ∈ ["-.inf", "-.Inf", "-.INF"] then some (-1.0 / 0.0)
    else if String.ofList cs ∈ [".nan", ".NaN", ".NAN"] then some (0.0 / 0.0)
    else finite? unsigned

end Numeral

instance : Numeral Float where
  message := Layout.message.write
  document := Layout.document.write
  ofScalar? := Numeral.float?

end ScanMatch
