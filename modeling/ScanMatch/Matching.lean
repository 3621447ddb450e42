import ScanMatch.Config.MatchConfig
import ScanMatch.Search.Engine

/-!
# Matching

The whole way from a configuration and a rasterized model to a pose: search around an estimate,
climb from the best translation found, and align the scan with the cells of the model that are
walls.
-/
namespace ScanMatch

structure Match (R : Type) where
  found : Found R
  summit : Summit R
  aligned : Aligned R

variable {S R : Type} [Scalar R] [Precision S R]

/-- The request for a scan of so many points around an estimate. -/
def MatchConfig.request (config : MatchConfig R) (metersPerPixel : S) (numPoints : Nat)
    (estimate : Pose R) (prior : Option (Prior R)) : Request R :=
  { config.search.requestAround estimate metersPerPixel numPoints with prior }

namespace Match

/-- The centers of the cells of a model that have a given value, placed as the model is. -/
def walls [Arith S] (model : Grid) (value : UInt8) (metersPerPixel : S) : Array (Point S) :=
  model.centers value
    ⟨Arith.ofInt model.x0 * metersPerPixel, Arith.ofInt model.y0 * metersPerPixel⟩ metersPerPixel

/-- The best match of a scan with a model around an estimate, if any pose of the window scores
enough. -/
def find? [Arith S] (config : MatchConfig R) (model : Grid) (wall : UInt8) (metersPerPixel : S)
    (scan : ScanCache S) (estimate : Pose R) (prior : Option (Prior R)) :
    Except (Refusal R) (Option (Match R)) := do
  let request := config.request metersPerPixel scan.size estimate prior
  let pyramid ← (Pyramid.build model metersPerPixel config.pyramid.levels).orRefuse
  let engine ← (Engine.ofCaches #[scan]).add 0 pyramid request
  let (found?, _) ← engine.next.orRefuse
  match found? with
  | none => return none
  | some found =>
    let summit ← (hillClimb scan.points pyramid found.pose config.hillClimb request.scale
      prior).orRefuse
    let aligned := align (walls model wall metersPerPixel) scan.points summit.pose config.icp
    return some ⟨found, summit, aligned⟩

end Match

end ScanMatch
