import ScanMatch.Raster.Pyramid
import ScanMatch.Scan.Cache
import ScanMatch.Search.Block
import ScanMatch.Search.Request

/-!
# Registrations

A request together with the pyramid that it is scored against and everything computed once: its
rotation samples, and its prior at each of them. Here are the raw correlation of a block and the
least prior penalty over it.
-/
namespace ScanMatch

structure Registration (S R : Type) where
  cache : Nat
  pyramid : Pyramid S
  request : Request R
  rotations : Array R
  priors : Option (Array (ConditionedPrior R))

namespace Registration

variable {S R : Type} [Scalar R] [Precision S R]

/-- The level that a request starts from: coarse enough to cover the window by few blocks, but
one of the pyramid's and not the finest. -/
def startLevel (request : Request R) (coarsest : Nat) : Checked Nat := do
  let spanX ← Checked.int32 (request.tx1 - request.tx0)
  let spanY ← Checked.int32 (request.ty1 - request.ty0)
  let span := max spanX spanY
  if span ≤ 1 then return 1
  let level := Scalar.toInt64 (Scalar.floor (Scalar.log2 (Arith.ofInt span : R))) - 1
  return (max 1 (min level coarsest)).toNat

/-- The registration of a request whose rotations can be sampled. -/
def ofRequest (cache : Nat) (pyramid : Pyramid S) (request : Request R) :
    Except (Refusal R) (Registration S R) := do
  let rotations ← request.rotations
  let priors := request.prior.map fun prior => rotations.map prior.condition
  return { cache, pyramid, request, rotations, priors }

def rotation (r : Registration S R) (i : Nat) : Checked R :=
  match r.rotations[i]? with
  | some theta => .ok theta
  | none => .error .indexOutOfBounds

/-- The sum of the scores of a grid under weighted cells moved by an offset. Cells outside the
grid add nothing. -/
def weightedSum (grid : Grid) (offX offY : Int) (cells : List WeightedCell) : Checked Int :=
  cells.foldlM (fun sum c => do
    let x ← Checked.int32 (c.x + offX)
    let y ← Checked.int32 (c.y + offY)
    match grid.get? x y with
    | some v => Checked.int64 (sum + c.weight * v.toNat)
    | none => return sum) 0

/-- The raw score of block `(x, y)` of a level: that of the turned scan on that level of the
pyramid. -/
def correlate (r : Registration S R) (cache : ScanCache S) (rotation level : Nat) (x y : Int) :
    Checked (Int × ScanCache S) := do
  let grid ← r.pyramid.level level
  let theta ← r.rotation rotation
  let (shared, cache) ← cache.get r.pyramid.metersPerPixel theta level
  let d ← Checked.cellSide level
  let offX ← Checked.int32 (x - grid.x0.tdiv d)
  let offY ← Checked.int32 (y - grid.y0.tdiv d)
  let sum ← weightedSum grid offX offY shared.set.cells
  return (sum, cache)

/-- The translations that a block of side `d` reports along one axis, in meters, from the least
to the greatest. A translation by `t` pixels is reported as `t - 0.5`, which makes up for the
flooring of points to pixels. -/
def reported (resolution d : R) (b : Int) : R × R :=
  let first := Arith.ofInt b * d
  ((first - 0.5) * resolution, (first + d - 1.5) * resolution)

/-- The least penalty over the translations that a block reports, zero without a prior. -/
def minPenalty (r : Registration S R) (rotation level : Nat) (x y : Int) : Checked R := do
  match r.priors with
  | none => return 0
  | some priors =>
    let resolution : R := widen r.pyramid.metersPerPixel
    let d : R := Arith.ofInt (1 <<< level : Nat)
    let (x0, x1) := reported resolution d x
    let (y0, y1) := reported resolution d y
    match priors[rotation]? with
    | none => .error .indexOutOfBounds
    | some prior => return prior.minPenalty (← Rect.ofExtents x0 x1 y0 y1)

/-- The pose that the single translation `(x, y)` reports. -/
def reportedPose (r : Registration S R) (theta : R) (x y : Int) : Pose R :=
  let resolution : R := widen r.pyramid.metersPerPixel
  ⟨(Arith.ofInt x - 0.5) * resolution, (Arith.ofInt y - 0.5) * resolution, theta⟩

end Registration

end ScanMatch
