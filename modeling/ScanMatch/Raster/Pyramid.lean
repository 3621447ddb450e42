import ScanMatch.Raster.Grid

/-!
# Pyramids

A pyramid holds a grid and coarser copies of it. With `d = 2 ^ k`, a cell of level `k` is the
maximum of a square of `2 * d - 1` base pixels. A point that falls into a level-`k` cell stays in
that square under every translation inside the cell's block of `d` by `d` translations, so a
coarse score never underestimates a fine one.

`build` makes each level from the one before, `buildReference` makes each level from the base.
-/
namespace ScanMatch

namespace Frame

/-- The origin of a coarse level along one axis: down to a multiple of `d`, then two cells back,
so that the squares of all base pixels fit. -/
def coarseOrigin (origin d : Int) : Checked Int := do
  let q ← Checked.floorDiv origin d
  let aligned ← Checked.int32 (d * q)
  let back ← Checked.int32 (2 * d)
  Checked.int32 (aligned - back)

/-- The first square of a coarse axis ends at or before the first base pixel. -/
def requireStart (coarse base d : Int) (fault : Fault) : Checked Unit := do
  let twice ← Checked.int32 (2 * d)
  let past ← Checked.int32 (coarse + twice)
  let last ← Checked.int32 (past - 2)
  Checked.require (last ≤ base) fault

/-- The last cell of a coarse axis reaches the last base pixel. -/
def requireEnd (coarse : Int) (coarseSize : Nat) (base : Int) (baseSize : Nat) (d : Int)
    (fault : Fault) : Checked Unit := do
  let length ← Checked.int64 (coarseSize * d)
  let past ← Checked.int64 (coarse + length)
  let last ← Checked.int64 (past - 1)
  let basePast ← Checked.int64 (base + baseSize)
  let baseLast ← Checked.int64 (basePast - 1)
  Checked.require (baseLast ≤ last) fault

/-- The frame of a coarse level over a base frame, with four cells of slack along each axis. -/
def coarse (base : Frame) (level : Nat) : Checked Frame := do
  let d ← Checked.cellSide level
  let x0 ← coarseOrigin base.x0 d
  let y0 ← coarseOrigin base.y0 d
  let width := base.width / d.toNat + 4
  let height := base.height / d.toNat + 4
  requireStart x0 base.x0 d (.uncovered level .left)
  requireStart y0 base.y0 d (.uncovered level .top)
  requireEnd x0 width base.x0 base.width d (.uncovered level .right)
  requireEnd y0 height base.y0 base.height d (.uncovered level .bottom)
  return { width, height, x0, y0 }

/-- Along one axis, the windows that start at `stride * i + offset` for all `i < count` and reach
so far beyond their starts keep to signed 32-bit indices. -/
def requireWindows (stride : Int) (count : Nat) (offset reach : Int) : Checked Unit := do
  let first ← Checked.int32 offset
  let _ ← Checked.int32 (first + reach)
  let step ← Checked.int32 (stride * ((count : Int) - 1))
  let last ← Checked.int32 (step + offset)
  let _ ← Checked.int32 (last + reach)

end Frame

namespace Grid

/-- The next coarser level: the maximum over squares of three cells, two cells apart. -/
def decimate (prev : Grid) (base : Frame) (level : Nat) : Checked Grid := do
  let frame ← base.coarse level
  let half ← Checked.cellSide (level - 1)
  let gapX ← Checked.int32 (prev.x0 - frame.x0)
  let gapY ← Checked.int32 (prev.y0 - frame.y0)
  let padX := gapX.tdiv half
  let padY := gapY.tdiv half
  Frame.requireWindows 2 frame.width (-padX) 2
  Frame.requireWindows 2 frame.height (-padY) 2
  tabulate frame fun x y => prev.squareMax (2 * x - padX) (2 * y - padY) 3

/-- A coarse level straight from the base: the maximum over squares of `2 * d - 1` base pixels,
`d` pixels apart. -/
def windowLevel (base : Grid) (level : Nat) : Checked Grid := do
  let frame ← base.coarse level
  let d ← Checked.cellSide level
  let shiftX := frame.x0 - base.x0
  let shiftY := frame.y0 - base.y0
  Frame.requireWindows d frame.width frame.x0 0
  Frame.requireWindows d frame.height frame.y0 0
  Frame.requireWindows d frame.width shiftX (2 * d - 2)
  Frame.requireWindows d frame.height shiftY (2 * d - 2)
  tabulate frame fun x y =>
    base.squareMax (d * x + shiftX) (d * y + shiftY) (2 * d - 1).toNat

end Grid

/-- A grid and its coarser copies, finest first. -/
structure Pyramid (S : Type) where
  levels : Array Grid
  metersPerPixel : S

namespace Pyramid

variable {S : Type}

/-- So many levels above a given one, each made from the one before. -/
def decimated (base : Frame) (prev : Grid) (level : Nat) : Nat → Checked (List Grid)
  | 0 => return []
  | n + 1 => do
    let next ← prev.decimate base level
    let rest ← decimated base next (level + 1) n
    return next :: rest

def windowLevels (base : Grid) (level : Nat) : Nat → Checked (List Grid)
  | 0 => return []
  | n + 1 => do
    let next ← base.windowLevel level
    let rest ← windowLevels base (level + 1) n
    return next :: rest

/-- The pyramid of a grid, each level made from the one before. -/
def build (base : Grid) (metersPerPixel : S) (numLevels : Nat) : Checked (Pyramid S) := do
  Checked.require (1 ≤ numLevels) .emptyPyramid
  let coarser ← decimated base.toFrame base 1 (numLevels - 1)
  return ⟨(base :: coarser).toArray, metersPerPixel⟩

/-- The pyramid of a grid, each level made from the base by brute force. -/
def buildReference (base : Grid) (metersPerPixel : S) (numLevels : Nat) :
    Checked (Pyramid S) := do
  Checked.require (1 ≤ numLevels) .emptyPyramid
  let coarser ← windowLevels base 1 (numLevels - 1)
  return ⟨(base :: coarser).toArray, metersPerPixel⟩

def numLevels (p : Pyramid S) : Nat := p.levels.size

def level (p : Pyramid S) (k : Nat) : Checked Grid :=
  match p.levels[k]? with
  | some g => .ok g
  | none => .error .indexOutOfBounds

/-- Whether two pyramids have the same levels, origins and scores. -/
def sameLevels (p q : Pyramid S) : Bool := p.levels == q.levels

end Pyramid

end ScanMatch
