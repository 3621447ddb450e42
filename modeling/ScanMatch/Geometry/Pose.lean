import ScanMatch.Geometry.Angle
import ScanMatch.Geometry.Point

/-!
# Poses

Rigid motions of the plane: a rotation by `theta` followed by a translation.
-/
namespace ScanMatch

/-- A translation in meters and a rotation in radians. -/
structure Pose (R : Type) where
  x : R
  y : R
  theta : R
  deriving DecidableEq, Repr

namespace Pose

variable {R : Type} [Scalar R]

def identity : Pose R := ⟨0, 0, 0⟩

/-- The same motion with its rotation wrapped to the half-open turn from `-π` to `π`. -/
def normalized (p : Pose R) : Pose R := { p with theta := Angle.normalize p.theta }

/-- The motion that applies `q` first and then `p`. -/
def compose (p q : Pose R) : Pose R :=
  let s := Scalar.sin p.theta
  let c := Scalar.cos p.theta
  ⟨p.x + q.x * c - q.y * s, p.y + q.x * s + q.y * c, Angle.normalize (p.theta + q.theta)⟩

def inverse (p : Pose R) : Pose R :=
  let s := Scalar.sin p.theta
  let c := Scalar.cos p.theta
  ⟨-p.x * c - p.y * s, p.x * s - p.y * c, Angle.normalize (-p.theta)⟩

def transform {S : Type} [Precision S R] (pose : Pose R) (p : Point S) : Point S :=
  let s := Scalar.sin pose.theta
  let c := Scalar.cos pose.theta
  let px : R := widen p.x
  let py : R := widen p.y
  ⟨narrow (pose.x + px * c - py * s), narrow (pose.y + px * s + py * c)⟩

end Pose

end ScanMatch
