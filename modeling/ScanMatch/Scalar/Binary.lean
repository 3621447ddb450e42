import ScanMatch.Scalar

/-!
# Binary floating point

The 64-bit and 32-bit binary formats as scalars. Remainder and integer part are computed exactly
on the integer significand, so they carry no rounding.
-/
namespace ScanMatch

/-- A finite magnitude as `significand * 2 ^ exponent`. -/
structure Magnitude where
  /-- The integer significand, below `2 ^ 53`. -/
  significand : Nat
  exponent : Int
  deriving DecidableEq, Repr

namespace Binary64

@[inline] def isNegative (x : Float) : Bool := x.toBits >>> 63 != 0

def magnitude (x : Float) : Magnitude :=
  let bits : Nat := x.toBits.toNat % 1 <<< 63
  let field : Nat := bits / 1 <<< 52
  let fraction : Nat := bits % 1 <<< 52
  if field = 0 then ⟨fraction, -1074⟩ else ⟨fraction + 1 <<< 52, (field : Int) - 1075⟩

/-- The value of a magnitude that the format holds exactly. -/
def ofMagnitude (m : Magnitude) : Float :=
  if m.significand = 0 then 0 else
    let up := 52 - m.significand.log2
    let e := m.exponent - up + 1074
    let bits :=
      if 0 ≤ e then e.toNat <<< 52 + m.significand <<< up
      else m.significand <<< (m.exponent + 1074).toNat
    Float.ofBits (UInt64.ofNat bits)

/-- The value nearest to a natural number. -/
@[inline] def ofNat (n : Nat) : Float :=
  if n < 18446744073709551616 then n.toUInt64.toFloat else Float.ofNat n

@[inline] def ofInt (n : Int) : Float :=
  if n < 0 then -ofNat n.natAbs else ofNat n.natAbs

/-- The exact remainder of magnitudes `x` and `y ≠ 0`. -/
def Magnitude.rem (x y : Magnitude) : Magnitude :=
  let e := min x.exponent y.exponent
  let align (m : Magnitude) : Nat := m.significand <<< (m.exponent - e).toNat
  ⟨align x % align y, e⟩

/-- The exact remainder, with the sign of `x`; undefined cases are not a number. -/
def rem (x y : Float) : Float :=
  if !x.isFinite || y.isNaN || y == 0 then 0.0 / 0.0
  else if x.abs < y.abs then x
  else
    let r := ofMagnitude (Magnitude.rem (magnitude x) (magnitude y))
    if isNegative x then -r else r

def integerPart (x : Float) : Int :=
  let m := magnitude x
  let n : Nat :=
    if 0 ≤ m.exponent then m.significand <<< m.exponent.toNat
    else m.significand >>> (-m.exponent).toNat
  if isNegative x then -n else n

/-- The integer part of a value below `2 ^ 63`. -/
@[inline] def smallPart (x : Float) : Int :=
  if x < 0 then -((-x).toUInt64.toNat : Int) else x.toUInt64.toNat

def truncate (lo hi : Int) (x : Float) : Int :=
  if x.isNaN then 0
  else if x.isInf then (if x < 0 then lo else hi)
  else
    let n := if x.abs < ofNat 4611686018427387904 then smallPart x else integerPart x
    if n < lo then lo else if hi < n then hi else n

/-- The greatest whole value up to `x`. From `2 ^ 53` on every value is whole. -/
def floor (x : Float) : Float :=
  if x.abs < ofNat 9007199254740992 then
    let n := ofInt (smallPart x)
    if x < n then n - ofNat 1 else if n < x then n else x
  else x

/-- The least whole value from `x` on. -/
@[inline] def ceil (x : Float) : Float := -floor (-x)

/-- An integer key whose order is the total order of the format: sign first, then magnitude. -/
def orderKey (x : Float) : Int :=
  let bits := x.toBits.toNat
  if bits < 1 <<< 63 then bits else (1 <<< 63 : Nat) - 1 - bits

/-- The total order of the format: negative zero comes before zero, and what is not a number
comes last. -/
@[inline] def totalOrder (x y : Float) : Ordering :=
  if x < y then .lt else if y < x then .gt else compare (orderKey x) (orderKey y)

end Binary64

instance : Scalar Float where
  decidableLT := inferInstance
  decidableLE := inferInstance
  ofInt := Binary64.ofInt
  ofDecimal := Float.ofScientific
  sqrt := Float.sqrt
  floor := Binary64.floor
  ceil := Binary64.ceil
  round := Float.round
  sin := Float.sin
  cos := Float.cos
  atan2 := Float.atan2
  log2 := Float.log2
  pi := 3.14159265358979323846
  rem := Binary64.rem
  truncate := Binary64.truncate
  isFinite := Float.isFinite
  totalOrder := Binary64.totalOrder
  infinity? := some (1.0 / 0.0)

instance : Arith Float32 where
  decidableLT := inferInstance
  decidableLE := inferInstance
  ofInt n :=
    if -9007199254740992 ≤ n ∧ n ≤ 9007199254740992 then (Int64.ofInt n).toFloat.toFloat32
    else Float32.ofInt n
  ofDecimal := Float32.ofScientific
  sqrt := Float32.sqrt

instance : Precision Float32 Float where
  widen := Float32.toFloat
  narrow := Float.toFloat32

end ScanMatch
