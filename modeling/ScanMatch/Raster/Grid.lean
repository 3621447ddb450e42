import ScanMatch.Fault
import ScanMatch.Geometry.Point

/-!
# Grids

Row-major grids of byte scores, higher is better, placed at an origin in full-resolution pixels.
Main statement: `Grid.get?_ofFn` says what a grid made cell by cell holds.
-/
namespace ScanMatch

/-- The place and size of a grid: the absolute pixel of cell (0, 0), columns and rows. -/
structure Frame where
  width : Nat
  height : Nat
  x0 : Int
  y0 : Int
  deriving DecidableEq, Repr

/-- A frame filled with one byte per cell, row by row. -/
structure Grid extends Frame where
  cells : Array UInt8
  size_eq : cells.size = width * height
  deriving DecidableEq, Repr

inductive GridError where
  | sizeMismatch (width height size : Nat)
  | fault (fault : Fault)
  deriving DecidableEq, Repr

def GridError.message : GridError → String
  | .sizeMismatch width height size =>
    "Invalid grid: " ++ toString width ++ "x" ++ toString height ++
      " does not match buffer of " ++ toString size ++ " bytes"
  | .fault e => e.message

namespace Grid

def ofCells (frame : Frame) (cells : Array UInt8) : Except GridError Grid :=
  match Checked.nat64 (frame.width * frame.height) with
  | .error e => .error (.fault e)
  | .ok _ =>
    if h : cells.size = frame.width * frame.height then .ok { frame with cells, size_eq := h }
    else .error (.sizeMismatch frame.width frame.height cells.size)

/-- The grid over a frame whose cell in column `ix` and row `iy` is `f ix iy`. -/
def ofFn (frame : Frame) (f : Nat → Nat → UInt8) : Grid :=
  { frame with
    cells := Array.ofFn fun i : Fin (frame.width * frame.height) =>
      f (i % frame.width) (i / frame.width)
    size_eq := Array.size_ofFn }

/-- As `ofFn`, provided that the number of cells can be represented. -/
def tabulate (frame : Frame) (f : Nat → Nat → UInt8) : Checked Grid := do
  let _ ← Checked.nat64 (frame.width * frame.height)
  return ofFn frame f

def zeros (frame : Frame) : Checked Grid := tabulate frame fun _ _ => 0

/-- The score at position `iy * width + ix` of the buffer. -/
def get (g : Grid) (ix iy : Nat) : Checked UInt8 := do
  let row ← Checked.nat64 (iy * g.width)
  let i ← Checked.nat64 (row + ix)
  match g.cells[i]? with
  | some v => return v
  | none => .error .indexOutOfBounds

/-- The score in column `ix` and row `iy`, if that cell is in the grid. -/
@[inline] def get? (g : Grid) (ix iy : Int) : Option UInt8 :=
  if ix < 0 ∨ iy < 0 ∨ (g.width : Int) ≤ ix ∨ (g.height : Int) ≤ iy then none
  else g.cells[iy.toNat * g.width + ix.toNat]?

/-- A cell of a grid has the score of its column and row, and there is none outside. -/
theorem get?_ofFn (frame : Frame) (f : Nat → Nat → UInt8) (ix iy : Nat) :
    (ofFn frame f).get? ix iy =
      if ix < frame.width ∧ iy < frame.height then some (f ix iy) else none := by
  by_cases h : ix < frame.width ∧ iy < frame.height
  · obtain ⟨hx, hy⟩ := h
    have bound : iy * frame.width + ix < frame.width * frame.height := by
      have := Nat.mul_le_mul_left frame.width (Nat.succ_le_of_lt hy)
      rw [Nat.mul_succ, Nat.mul_comm frame.width iy] at this
      omega
    have column : (iy * frame.width + ix) % frame.width = ix := by
      rw [Nat.mul_comm, Nat.mul_add_mod, Nat.mod_eq_of_lt hx]
    have row : (iy * frame.width + ix) / frame.width = iy := by
      rw [Nat.mul_comm, Nat.mul_add_div (by omega), Nat.div_eq_of_lt hx, Nat.add_zero]
    simp [get?, ofFn, bound, column, row, hx, hy]
  · have outside : (ix : Int) < 0 ∨ (iy : Int) < 0 ∨ (frame.width : Int) ≤ ix ∨
        (frame.height : Int) ≤ iy := by omega
    rw [if_neg h]
    exact if_pos outside

/-- The indices in `[start, start + side)` that lie below `size`. -/
def overlap (start : Int) (side size : Nat) : List Nat :=
  List.range' start.toNat (min (start + side).toNat size - start.toNat)

/-- The greatest score in a square of cells, zero where it holds none. -/
def squareMax (g : Grid) (ix iy : Int) (side : Nat) : UInt8 :=
  (overlap iy side g.height).foldl (fun best (row : Nat) =>
    (overlap ix side g.width).foldl (fun best (column : Nat) =>
      max best ((g.get? column row).getD 0)) best) 0

/-- The centers of all cells with a given score, in meters, row by row. The corner of cell (0, 0)
lies at the origin given. -/
def centers {S : Type} [Arith S] (g : Grid) (value : UInt8) (origin : Point S)
    (metersPerPixel : S) : Array (Point S) :=
  ((List.range (g.width * g.height)).filterMap fun i =>
    if g.cells[i]? = some value then
      some ⟨origin.x + (Arith.ofInt (i % g.width : Nat) + 0.5) * metersPerPixel,
        origin.y + (Arith.ofInt (i / g.width : Nat) + 0.5) * metersPerPixel⟩
    else none).toArray

end Grid

end ScanMatch
