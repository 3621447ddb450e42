/-!
# Scalars

The number types that the matcher computes with. `Arith` is ordered arithmetic with square roots,
`Scalar` adds angles, rounding and the total order of scores, and `Precision` relates the type in
which points and resolutions are stored to the type in which results are computed. Everything
else in the library is generic in these classes, so the same definitions run on binary floating
point and can be read as exact real arithmetic.
-/
namespace ScanMatch

/-- Ordered arithmetic with literals and square roots. -/
class Arith (R : Type) extends Add R, Sub R, Mul R, Div R, Neg R, LT R, LE R where
  decidableLT : DecidableLT R
  decidableLE : DecidableLE R
  ofInt : Int → R
  /-- The scalar nearest to `mantissa * 10 ^ exponent`, with the exponent negated on request. -/
  ofDecimal : Nat → Bool → Nat → R
  sqrt : R → R

attribute [reducible, instance] Arith.decidableLT Arith.decidableLE

namespace Arith

variable {R : Type} [Arith R]

instance (priority := 10) instOfNat (n : Nat) : OfNat R n where
  ofNat := ofInt n

instance (priority := 10) instOfScientific : OfScientific R where
  ofScientific := ofDecimal

/-- Whether the value is not a number: it is the only one that is not at most itself. -/
@[inline] def isNaN (x : R) : Bool := !decide (x ≤ x)

/-- The smaller operand. An operand that is not a number is ignored. -/
@[inline] protected def min (x y : R) : R :=
  if isNaN x then y else if y < x then y else x

/-- The larger operand. An operand that is not a number is ignored. -/
@[inline] protected def max (x y : R) : R :=
  if isNaN x then y else if x < y then y else x

/-- The point of `[lo, hi]` nearest to `x`. What is not a number stays so. -/
@[inline] def clamp (lo hi x : R) : R :=
  let x := if x < lo then lo else x
  if hi < x then hi else x

@[inline] def abs (x : R) : R := if x < 0 then -x else x

@[inline] def sq (x : R) : R := x * x

/-- Whether a value equals zero, of either sign. -/
@[inline] def isZero (x : R) : Bool := decide (x ≤ 0) && decide (0 ≤ x)

end Arith

/-- Arithmetic with angles, rounding to whole numbers and the total order of scores. -/
class Scalar (R : Type) extends Arith R where
  floor : R → R
  ceil : R → R
  /-- The nearest whole number, halves away from zero. -/
  round : R → R
  sin : R → R
  cos : R → R
  /-- The angle of the vector with second and first coordinate as given. -/
  atan2 : R → R → R
  log2 : R → R
  pi : R
  /-- What is left of the first operand after taking away the second as often as it fits,
  with the sign of the first. -/
  rem : R → R → R
  /-- The integer part, kept inside the range from the first to the second bound. What is not a
  number gives zero. -/
  truncate : Int → Int → R → Int
  isFinite : R → Bool
  /-- A total order that refines comparison. -/
  totalOrder : R → R → Ordering
  /-- The value above all finite ones, if the type has one. -/
  infinity? : Option R

namespace Scalar

variable {R : Type} [Scalar R]

@[inline] def tau : R := 2 * pi

/-- The infinite value, or zero in a type that has none. -/
@[inline] def infinity : R := infinity?.getD 0

/-- Whether a value lies below infinity, as every number but infinity itself does. -/
@[inline] def belowInfinity (x : R) : Bool :=
  match infinity? (R := R) with
  | some top => decide (x < top)
  | none => !Arith.isNaN x

@[inline] def toInt32 (x : R) : Int := truncate (-2147483648) 2147483647 x

@[inline] def toInt64 (x : R) : Int := truncate (-9223372036854775808) 9223372036854775807 x

@[inline] def toNat64 (x : R) : Nat := (truncate 0 18446744073709551615 x).toNat

@[inline] def ofDegrees (x : R) : R := x * (pi / 180)

end Scalar

/-- Stored values of type `S` are computed with as values of type `R`. -/
class Precision (S R : Type) where
  widen : S → R
  narrow : R → S

export Precision (widen narrow)

end ScanMatch
