import ScanMatch.Geometry.Pose
import ScanMatch.Prior.Quadratic

/-!
# Gaussian priors

A prior charges a pose with `eᵀ Λ e`, where `e` is its error against a mean pose with the angle
wrapped. With the translation error `e₁`, the rotation error `e₂` and `Λ = [A B; Bᵀ C]`, the
charge splits into

`(e₁ + A⁺ B e₂)ᵀ A (e₁ + A⁺ B e₂) + e₂ (C - Bᵀ A⁺ B) e₂`.

At a fixed rotation the second part is constant and the first is a quadratic in the plane around
a shifted mean, whose least value over a rectangle bounds the charge of a block of translations.
-/
namespace ScanMatch

/-- A matrix over both translations `x` and `y` and the rotation `t`, row by row. -/
structure Mat3 (R : Type) where
  xx : R
  xy : R
  xt : R
  yx : R
  yy : R
  yt : R
  tx : R
  ty : R
  tt : R
  deriving DecidableEq, Repr

/-- A quadratic charge around a mean pose, in meters and radians. -/
structure Prior (R : Type) where
  mean : Pose R
  /-- The information matrix, the inverse of the covariance. -/
  information : Mat3 R
  deriving DecidableEq, Repr

structure ConditionedPrior (R : Type) where
  mean : Vec2 R
  information : SymMat R
  rotationPenalty : R
  deriving DecidableEq, Repr

variable {R : Type} [Scalar R]

/-- Eigenvalues below this share of the greatest count as zero. -/
def rankTolerance : R := 1e-12

namespace SymMat

def zero : SymMat R := ⟨0, 0, 0⟩

/-- The pseudo-inverse of a positive semidefinite matrix `a`. If its smaller eigenvalue counts as
zero, it is inverted along the eigenvector of the greater one only. -/
def pseudoInverse (a : SymMat R) : SymMat R :=
  let halfTrace := 0.5 * (a.xx + a.yy)
  let radius := Arith.sqrt (0.25 * (a.xx - a.yy) * (a.xx - a.yy) + a.xy * a.xy)
  let greater := halfTrace + radius
  if greater ≤ 0 then zero
  else
    let det := a.xx * a.yy - a.xy * a.xy
    let smaller := det / greater
    if rankTolerance * greater < smaller then
      ⟨a.yy / det, -a.xy / det, a.xx / det⟩
    else
      let u : Vec2 R :=
        if Arith.abs (greater - a.xx) ≤ Arith.abs (greater - a.yy) then ⟨greater - a.yy, a.xy⟩
        else ⟨a.xy, greater - a.xx⟩
      let norm2 := u.x * u.x + u.y * u.y
      if norm2 ≤ 0 then zero
      else
        let k := 1 / (greater * norm2)
        ⟨k * u.x * u.x, k * u.x * u.y, k * u.y * u.y⟩

end SymMat

namespace Prior

/-- The prior with a given mean and information matrix, whose diagonal must not be negative. -/
def ofInformation (mean : Pose R) (information : Mat3 R) : Checked (Prior R) := do
  Checked.require (0 ≤ information.xx ∧ 0 ≤ information.yy ∧ 0 ≤ information.tt)
    .negativeInformation
  return ⟨mean, information⟩

/-- The prior with independent errors of given standard deviations. -/
def ofDeviations (mean : Pose R) (sigmaXY sigmaTheta : R) : Checked (Prior R) :=
  let ixy := 1 / (sigmaXY * sigmaXY)
  let it := 1 / (sigmaTheta * sigmaTheta)
  ofInformation mean ⟨ixy, 0, 0, 0, ixy, 0, 0, 0, it⟩

/-- Whether everything that the charge of a rotation depends on is a number. -/
def isNumeric (prior : Prior R) : Bool :=
  let m := prior.information
  [prior.mean.theta, m.xx, m.xy, m.xt, m.yy, m.yt, m.tt].all (!Arith.isNaN ·)

def penalty (prior : Prior R) (pose : Pose R) : R :=
  let ex := pose.x - prior.mean.x
  let ey := pose.y - prior.mean.y
  let et := Angle.normalize (pose.theta - prior.mean.theta)
  let m := prior.information
  [ex * m.xx * ex, ex * m.xy * ey, ex * m.xt * et,
    ey * m.yx * ex, ey * m.yy * ey, ey * m.yt * et,
    et * m.tx * ex, et * m.ty * ey, et * m.tt * et].foldl (· + ·) 0

/-- The prior at one rotation. A singular translation block is inverted as far as it goes, so a
prior on the heading alone keeps its whole charge. -/
def condition (prior : Prior R) (theta : R) : ConditionedPrior R :=
  let m := prior.information
  let a : SymMat R := ⟨m.xx, m.xy, m.yy⟩
  let inv := a.pseudoInverse
  let shiftX := inv.xx * m.xt + inv.xy * m.yt
  let shiftY := inv.xy * m.xt + inv.yy * m.yt
  let turn := Angle.normalize (theta - prior.mean.theta)
  let rest := m.tt - (m.xt * shiftX + m.yt * shiftY)
  { mean := ⟨prior.mean.x - turn * shiftX, prior.mean.y - turn * shiftY⟩
    information := a
    rotationPenalty := turn * rest * turn }

end Prior

namespace ConditionedPrior

def penalty (prior : ConditionedPrior R) (x y : R) : R :=
  prior.rotationPenalty + prior.information.quadratic (x - prior.mean.x) (y - prior.mean.y)

def minPenalty (prior : ConditionedPrior R) (rect : Rect R) : R :=
  prior.rotationPenalty + minQuadratic prior.mean prior.information rect

end ConditionedPrior

end ScanMatch
