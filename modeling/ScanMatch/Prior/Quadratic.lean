import ScanMatch.Fault
import ScanMatch.Scalar

/-!
# Quadratics over rectangles

The least value of a positive semidefinite quadratic in the plane over an axis-aligned rectangle.
It is zero if the rectangle holds the center. Otherwise the minimum lies on the boundary: each
side fixes one coordinate, and the other goes to its stationary point, kept to the side. If the
diagonal entry that defines the stationary point vanishes, the quadratic is linear or constant
along the side and its two ends are compared.
-/
namespace ScanMatch

/-- The rectangle from `x0` to `x1` and from `y0` to `y1`, boundary included. -/
structure Rect (R : Type) where
  x0 : R
  x1 : R
  y0 : R
  y1 : R
  deriving DecidableEq, Repr

structure Vec2 (R : Type) where
  x : R
  y : R
  deriving DecidableEq, Repr

/-- A symmetric matrix of two rows, with the entry off the diagonal held once. -/
structure SymMat (R : Type) where
  xx : R
  xy : R
  yy : R
  deriving DecidableEq, Repr

namespace Rect

variable {R : Type} [Scalar R]

/-- The rectangle with the given extents, which must not end before they start. -/
def ofExtents (x0 x1 y0 y1 : R) : Checked (Rect R) := do
  Checked.require (x0 ≤ x1 ∧ y0 ≤ y1) .invertedRect
  return ⟨x0, x1, y0, y1⟩

def contains (rect : Rect R) (x y : R) : Bool :=
  decide (rect.x0 ≤ x) && decide (x ≤ rect.x1) && decide (rect.y0 ≤ y) && decide (y ≤ rect.y1)

end Rect

namespace SymMat

variable {R : Type} [Scalar R]

def quadratic (m : SymMat R) (ex ey : R) : R :=
  m.xx * ex * ex + 2 * m.xy * ex * ey + m.yy * ey * ey

/-- Diagonal entries up to this size count as zero. -/
def degenerateDiagonal : R := 1e-12

/-- The values to compare along the two sides of constant `x`. -/
def verticalCandidates (m : SymMat R) (mean : Vec2 R) (rect : Rect R) (x : R) : List R :=
  let ex := x - mean.x
  if degenerateDiagonal < Arith.abs m.yy then
    let y := Arith.clamp rect.y0 rect.y1 (mean.y - m.xy * ex / m.yy)
    [m.quadratic ex (y - mean.y)]
  else [m.quadratic ex (rect.y0 - mean.y), m.quadratic ex (rect.y1 - mean.y)]

/-- The values to compare along the two sides of constant `y`. -/
def horizontalCandidates (m : SymMat R) (mean : Vec2 R) (rect : Rect R) (y : R) : List R :=
  let ey := y - mean.y
  if degenerateDiagonal < Arith.abs m.xx then
    let x := Arith.clamp rect.x0 rect.x1 (mean.x - m.xy * ey / m.xx)
    [m.quadratic (x - mean.x) ey]
  else [m.quadratic (rect.x0 - mean.x) ey, m.quadratic (rect.x1 - mean.x) ey]

end SymMat

section

variable {R : Type} [Scalar R]

/-- The least of some values, those that are not numbers left out. -/
def least? (values : List R) : Option R :=
  values.foldl (fun best v =>
    match best with
    | none => if Arith.isNaN v then none else some v
    | some b => some (Arith.min b v)) none

/-- The least value over a rectangle of the quadratic with the given center and matrix. -/
def minQuadratic (mean : Vec2 R) (information : SymMat R) (rect : Rect R) : R :=
  if rect.contains mean.x mean.y then 0
  else
    (least? (information.verticalCandidates mean rect rect.x0 ++
      information.verticalCandidates mean rect rect.x1 ++
      information.horizontalCandidates mean rect rect.y0 ++
      information.horizontalCandidates mean rect rect.y1)).getD Scalar.infinity

end

end ScanMatch
