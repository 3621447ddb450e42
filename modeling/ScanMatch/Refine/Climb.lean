import ScanMatch.Prior.Gaussian
import ScanMatch.Raster.Pyramid

/-!
# Hill climbing

Refines a pose against the full-resolution model without gradients. One sweep tries a step down
and a step up along x, y and theta, all from the same reference, and keeps the best of the poses
seen. A sweep that improves nothing shrinks the steps; after so many shrinks the next such sweep
ends the climb.
-/
namespace ScanMatch

structure ClimbParams (R : Type) where
  stepX : R
  stepY : R
  stepTheta : R
  /-- Factor on all steps when a sweep improves nothing. -/
  shrinkFactor : R
  maxShrinks : Nat
  maxIterations : Nat
  deriving DecidableEq, Repr

/-- A pose with its score and the part of it that the prior took off. -/
structure ScoredPose (R : Type) where
  pose : Pose R
  score : R
  penalty : R
  deriving DecidableEq, Repr

structure Summit (R : Type) extends ScoredPose R where
  iterations : Nat
  deriving DecidableEq, Repr

structure PoseScorer (S R : Type) where
  points : Array (Point S)
  grid : Grid
  resolution : R
  scale : R
  prior : Option (Prior R)

structure ClimbState (R : Type) where
  best : ScoredPose R
  steps : Pose R
  shrinks : Nat
  deriving DecidableEq, Repr

variable {S R : Type} [Scalar R]

namespace ClimbParams

/-! What a setting that is not given stands for. -/

/-- Half a pixel of five centimeters. -/
def defaultStep : R := 0.025

def defaultStepTheta : R := Scalar.ofDegrees 0.5

def defaultShrinkFactor : R := 0.5

def defaultMaxShrinks : Nat := 8

def defaultMaxIterations : Nat := 1000

def standard : ClimbParams R :=
  { stepX := defaultStep, stepY := defaultStep, stepTheta := defaultStepTheta
    shrinkFactor := defaultShrinkFactor, maxShrinks := defaultMaxShrinks
    maxIterations := defaultMaxIterations }

/-- The standard parameters with translation steps of half a pixel. -/
def forResolution [Precision S R] (metersPerPixel : S) : ClimbParams R :=
  let half : R := widen metersPerPixel / 2
  { standard with stepX := half, stepY := half }

end ClimbParams

namespace PoseScorer

variable [Precision S R]

/-- The score of the pixel under a point at position `(tx, ty)`, zero outside the grid. Pixel
(0, 0) starts half a pixel before the grid's origin, so that a pose found by the search gets the
score that the search gave it. -/
def lookup (s : PoseScorer S R) (tx ty : R) : Nat :=
  let x0 := Arith.ofInt s.grid.x0 * s.resolution - 0.5 * s.resolution
  let y0 := Arith.ofInt s.grid.y0 * s.resolution - 0.5 * s.resolution
  let ix := Scalar.floor ((tx - x0) / s.resolution)
  let iy := Scalar.floor ((ty - y0) / s.resolution)
  let last : R := Arith.ofInt 2147483647
  if ix < 0 ∨ iy < 0 ∨ last < ix ∨ last < iy then 0
  else
    match s.grid.get? (Scalar.toInt32 ix) (Scalar.toInt32 iy) with
    | some v => v.toNat
    | none => 0

def evaluate (s : PoseScorer S R) (pose : Pose R) : ScoredPose R :=
  let sine := Scalar.sin pose.theta
  let cosine := Scalar.cos pose.theta
  let raw := s.points.foldl (fun sum p =>
    let px : R := widen p.x
    let py : R := widen p.y
    let tx := px * cosine - py * sine + pose.x
    let ty := px * sine + py * cosine + pose.y
    sum + s.lookup tx ty) 0
  let penalty :=
    match s.prior with
    | some prior => prior.penalty pose
    | none => 0
  { pose, score := s.scale * Arith.ofInt (raw : Nat) - penalty, penalty }

end PoseScorer

/-- The six poses one step away from a reference, down before up, along x, y and theta. -/
def Pose.neighbours (p steps : Pose R) : List (Pose R) :=
  let theta := Angle.normalize p.theta
  [⟨p.x + steps.x * -1, p.y, theta⟩, ⟨p.x + steps.x * 1, p.y, theta⟩,
    ⟨p.x, p.y + steps.y * -1, theta⟩, ⟨p.x, p.y + steps.y * 1, theta⟩,
    ⟨p.x, p.y, Angle.normalize (p.theta + steps.theta * -1)⟩,
    ⟨p.x, p.y, Angle.normalize (p.theta + steps.theta * 1)⟩]

/-- The better of two poses, the first unless the second scores more. -/
def ScoredPose.better (a b : ScoredPose R) : ScoredPose R := if a.score < b.score then b else a

namespace ClimbState

variable [Precision S R]

def trials (scorer : PoseScorer S R) (state : ClimbState R) : List (ScoredPose R) :=
  (state.best.pose.neighbours state.steps).map scorer.evaluate

def shrink (factor : R) (state : ClimbState R) : ClimbState R :=
  { state with
    steps := ⟨state.steps.x * factor, state.steps.y * factor, state.steps.theta * factor⟩
    shrinks := state.shrinks + 1 }

/-- Up to so many sweeps, after those already made. -/
def climb (scorer : PoseScorer S R) (params : ClimbParams R) (made : Nat) :
    Nat → ClimbState R → Summit R
  | 0, state => { state.best with iterations := made }
  | budget + 1, state =>
    let trials := state.trials scorer
    if trials.any fun trial => decide (state.best.score < trial.score) then
      climb scorer params (made + 1) budget
        { state with best := trials.foldl ScoredPose.better state.best }
    else if state.shrinks = params.maxShrinks then { state.best with iterations := made + 1 }
    else climb scorer params (made + 1) budget (state.shrink params.shrinkFactor)

end ClimbState

namespace PoseScorer

variable [Precision S R]

def ofPyramid (points : Array (Point S)) (pyramid : Pyramid S) (scale : R)
    (prior : Option (Prior R)) : Checked (PoseScorer S R) := do
  let grid ← pyramid.level 0
  return { points, grid, resolution := widen pyramid.metersPerPixel, scale, prior }

def climb (scorer : PoseScorer S R) (seed : Pose R) (params : ClimbParams R) : Summit R :=
  ClimbState.climb scorer params 0 params.maxIterations
    { best := scorer.evaluate seed.normalized
      steps := ⟨params.stepX, params.stepY, params.stepTheta⟩
      shrinks := 0 }

end PoseScorer

/-- Refines a seed pose of a scan against the finest level of a pyramid. -/
def hillClimb [Precision S R] (points : Array (Point S)) (pyramid : Pyramid S) (seed : Pose R)
    (params : ClimbParams R) (scale : R) (prior : Option (Prior R)) : Checked (Summit R) := do
  let scorer ← PoseScorer.ofPyramid points pyramid scale prior
  return scorer.climb seed params

end ScanMatch
