import ScanMatch.Fault
import ScanMatch.Geometry.Point

/-!
# Cell sets

A scan turned by a rotation, floored to pixels and grouped into the cells of a level. Points are
floored once, at full resolution; coarse cells come from dividing pixel indices, so no point can
round differently at a coarse level. Flooring shifts points by half a cell on average, which the
search makes up for in the poses that it reports. Main statement: `expand_group`, by which
grouping loses no point.
-/
namespace ScanMatch

structure Cell where
  x : Int
  y : Int
  deriving DecidableEq, Repr

namespace Cell

/-- The cell of side `d` that holds a cell of side 1. -/
def coarsen (d : Int) (c : Cell) : Cell := ⟨c.x / d, c.y / d⟩

/-- Whether a cell comes no later than another, row by row. -/
def rowMajor (a b : Cell) : Bool := decide (a.y < b.y) || (decide (a.y = b.y) && decide (a.x ≤ b.x))

/-- The pixel of a point turned by the rotation with the given sine and cosine. -/
def ofPoint {S R : Type} [Scalar R] [Precision S R] (sine cosine resolution : R) (p : Point S) :
    Cell :=
  let px : R := widen p.x
  let py : R := widen p.y
  let x := cosine * px - sine * py
  let y := sine * px + cosine * py
  ⟨Scalar.toInt32 (Scalar.floor (x / resolution)), Scalar.toInt32 (Scalar.floor (y / resolution))⟩

end Cell

/-- A cell and the number of points that it stands for. -/
structure WeightedCell extends Cell where
  weight : Nat
  deriving DecidableEq, Repr

/-- The occupied cells of a scan at one level, row by row. -/
structure CellSet where
  cells : List WeightedCell
  totalWeight : Nat
  deriving DecidableEq, Repr

namespace CellSet

/-- Runs of equal cells as one cell each, with the length of the run as weight. -/
def tally : List Cell → List WeightedCell
  | [] => []
  | c :: rest =>
    match tally rest with
    | [] => [⟨c, 1⟩]
    | w :: ws => if w.toCell = c then ⟨c, w.weight + 1⟩ :: ws else ⟨c, 1⟩ :: w :: ws

/-- The cells of points row by row, either merged or with one entry of weight 1 for each point. -/
def group (merge : Bool) (cells : List Cell) : List WeightedCell :=
  let sorted := cells.mergeSort Cell.rowMajor
  if merge then tally sorted else sorted.map (⟨·, 1⟩)

/-- The cells that weighted cells stand for, each as often as its weight says. -/
def expand (cells : List WeightedCell) : List Cell :=
  cells.flatMap fun c => List.replicate c.weight c.toCell

/-- The number of cells that weighted cells stand for. -/
def sumWeights (cells : List WeightedCell) : Nat :=
  cells.foldr (fun c total => c.weight + total) 0

/-- The cell set of a list of cells, one for each point. -/
def ofCells (merge : Bool) (cells : List Cell) : Checked CellSet := do
  let grouped := group merge cells
  let total ← Checked.nat32 (sumWeights grouped)
  Checked.require (total = cells.length) .weightMismatch
  return ⟨grouped, total⟩

/-- The cell set of a scan at a resolution, rotation and level. -/
def quantize {S R : Type} [Scalar R] [Precision S R] (points : Array (Point S))
    (metersPerPixel : S) (rotation : R) (level : Nat) (merge : Bool) : Checked CellSet := do
  let d ← Checked.cellSide level
  let sine := Scalar.sin rotation
  let cosine := Scalar.cos rotation
  let resolution : R := widen metersPerPixel
  ofCells merge (points.toList.map fun p => (Cell.ofPoint sine cosine resolution p).coarsen d)

def size (s : CellSet) : Nat := s.cells.length

def isEmpty (s : CellSet) : Bool := s.cells.isEmpty

theorem length_expand (cells : List WeightedCell) :
    (expand cells).length = sumWeights cells := by
  induction cells with
  | nil => rfl
  | cons c cells ih => simpa [expand, sumWeights] using ih

theorem expand_tally (cells : List Cell) : expand (tally cells) = cells := by
  induction cells with
  | nil => rfl
  | cons c rest ih =>
    rw [tally]
    split
    · next h => simp_all [expand]
    · next w ws h =>
      rw [h] at ih
      split
      · next hw => simp_all [expand, List.replicate_succ]
      · simp_all [expand]

/-- Grouping sorts the cells and loses none. -/
theorem expand_group (merge : Bool) (cells : List Cell) :
    expand (group merge cells) = cells.mergeSort Cell.rowMajor := by
  cases merge with
  | true => simp [group, expand_tally]
  | false => simp [group, expand, List.flatMap_map]

/-- The weights of grouped cells add up to the number of points. -/
theorem sumWeights_group (merge : Bool) (cells : List Cell) :
    sumWeights (group merge cells) = cells.length := by
  rw [← length_expand, expand_group, List.length_mergeSort]

end CellSet

end ScanMatch
