import ScanMatch.Scalar.Binary

/-!
# Shortest decimals

The decimal of fewest digits that reads back as a given binary value. On each decimal grid only
the two neighbours of the value can be the nearest, so it is enough to go from coarse grids to
fine ones and to take the first grid with a neighbour among the reals that round to the value.
-/
namespace ScanMatch

inductive Tie where
  | up
  | even
  deriving DecidableEq, Repr

/-- The number `digits * 10 ^ exponent`. -/
structure Decimal where
  digits : Nat
  exponent : Int
  deriving DecidableEq, Repr

namespace Magnitude

/-- How far below the value a real may lie and still round to it, in quarters of the last binary
place: half a place, but only a quarter below a power of two, where the spacing halves. -/
def gapBelow (m : Magnitude) : Nat :=
  if m.significand = 1 <<< 52 ∧ -1074 < m.exponent then 1 else 2

/-- Whether `c * 10 ^ k` rounds to the value. Everything is counted in quarters of the last
binary place: `unit` of them make `10 ^ k` after both sides are multiplied by `scale`. -/
def roundsFrom (m : Magnitude) (scale unit c : Nat) : Bool :=
  let low := (4 * m.significand - m.gapBelow) * scale
  let high := (4 * m.significand + 2) * scale
  if m.significand % 2 = 0 then decide (low ≤ c * unit) && decide (c * unit ≤ high)
  else decide (low < c * unit) && decide (c * unit < high)

/-- The nearest point of the grid of multiples of `10 ^ k` that reads back, if one does. -/
def onGrid? (tie : Tie) (m : Magnitude) (k : Int) : Option Nat :=
  let e := m.exponent - 2
  let scale := Nat.pow 10 (-k).toNat <<< e.toNat
  let unit := Nat.pow 10 k.toNat <<< (-e).toNat
  let value := 4 * m.significand * scale
  let below := value / unit
  let above := below + 1
  match roundsFrom m scale unit below, roundsFrom m scale unit above with
  | false, false => none
  | true, false => some below
  | false, true => some above
  | true, true =>
    match compare (value - below * unit) (above * unit - value) with
    | .lt => some below
    | .gt => some above
    | .eq =>
      match tie with
      | .up => some above
      | .even => some (if below % 2 = 0 then below else above)

/-- The search through grids from `10 ^ k` on to finer ones. -/
def shortestFrom (tie : Tie) (m : Magnitude) (k : Int) : Nat → Decimal
  | 0 => ⟨(onGrid? tie m k).getD 0, k⟩
  | fuel + 1 =>
    match onGrid? tie m k with
    | some c => ⟨c, k⟩
    | none => shortestFrom tie m (k - 1) fuel

/-- The shortest decimal of a positive value. The first grid is coarser than the value, as
`30103 / 100000` exceeds the logarithm of two; seventeen digits always suffice. -/
def shortest (tie : Tie) (m : Magnitude) : Decimal :=
  let places := (m.significand.log2 : Int) + m.exponent + 1
  shortestFrom tie m (places * 30103 / 100000 + 1) 24

end Magnitude

end ScanMatch
