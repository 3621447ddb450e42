import ScanMatch.Scalar

/-!
# Points

Points of a scan, in meters, kept at stored precision.
-/
namespace ScanMatch

structure Point (S : Type) where
  x : S
  y : S
  deriving DecidableEq, Repr

namespace Point

variable {S : Type} [Arith S]

def distanceSq (p q : Point S) : S :=
  let dx := p.x - q.x
  let dy := p.y - q.y
  dx * dx + dy * dy

def distance (p q : Point S) : S := Arith.sqrt (p.distanceSq q)

end Point

end ScanMatch
