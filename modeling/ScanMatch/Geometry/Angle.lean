import ScanMatch.Scalar

/-!
# Angles

Angles are in radians, counter-clockwise positive.
-/
namespace ScanMatch.Angle

variable {R : Type} [Scalar R]

/-- The angle wrapped to the half-open turn from `-π` to `π`. -/
def normalize (angle : R) : R :=
  let a := Scalar.rem angle Scalar.tau
  if Scalar.pi ≤ a then a - Scalar.tau
  else if a < -Scalar.pi then a + Scalar.tau
  else a

def diff (start stop : R) : R := normalize (stop - start)

end ScanMatch.Angle
