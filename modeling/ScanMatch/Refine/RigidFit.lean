import ScanMatch.Geometry.Pose

/-!
# Rigid fits

The rigid motion that takes source points closest to their target points, by the least sum of
squared distances, in closed form from first and second moments.
-/
namespace ScanMatch

/-- Sums over pairs of a source point `s` and a target point `t`. -/
structure RigidFit (R : Type) where
  sx : R
  sy : R
  tx : R
  ty : R
  sxty : R
  sytx : R
  sxtx : R
  syty : R
  weight : R
  deriving DecidableEq, Repr

namespace RigidFit

variable {R : Type} [Scalar R]

def empty : RigidFit R := ⟨0, 0, 0, 0, 0, 0, 0, 0, 0⟩

def add (f : RigidFit R) (s t : Point R) : RigidFit R :=
  { sx := f.sx + s.x, sy := f.sy + s.y, tx := f.tx + t.x, ty := f.ty + t.y
    sxty := f.sxty + s.x * t.y, sytx := f.sytx + s.y * t.x
    sxtx := f.sxtx + s.x * t.x, syty := f.syty + s.y * t.y
    weight := f.weight + 1 }

def ofPairs (pairs : List (Point R × Point R)) : RigidFit R :=
  pairs.foldl (fun f p => f.add p.1 p.2) empty

/-- The best motion, if there are pairs. The angle comes from the cross and dot sums about the
centers, the translation from taking center to center. -/
def solve (f : RigidFit R) : Option (Pose R) :=
  if f.weight ≤ 0 then none
  else
    let w := f.weight
    let sxc := f.sx / w
    let syc := f.sy / w
    let txc := f.tx / w
    let tyc := f.ty / w
    let cross := (f.sxty - f.sx * tyc - f.ty * sxc + sxc * tyc * w) -
      (f.sytx - f.sy * txc - f.tx * syc + syc * txc * w)
    let dot := (f.sxtx - f.sx * txc - f.tx * sxc + sxc * txc * w) +
      (f.syty - f.sy * tyc - f.ty * syc + syc * tyc * w)
    let theta := Scalar.atan2 cross dot
    let sine := Scalar.sin theta
    let cosine := Scalar.cos theta
    some ⟨txc - cosine * sxc + sine * syc, tyc - sine * sxc - cosine * syc, theta⟩

end RigidFit

end ScanMatch
