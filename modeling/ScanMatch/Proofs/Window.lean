import Mathlib.Data.Int.Basic
import Mathlib.Tactic.Linarith
import Mathlib.Tactic.Ring
import ScanMatch.Proofs.Ensures
import ScanMatch.Raster.Pyramid

/-! # Coarse cells as maxima over windows

A cell of a level of side `d` is the maximum of the base pixels in a square of `2 * d - 1` pixels,
whether the cell lies in the grid of the level or not. A maximum is described by its upper bounds.
-/
namespace ScanMatch

theorem UInt8.max_le_iff {a b c : UInt8} : max a b ≤ c ↔ a ≤ c ∧ b ≤ c := by
  have h : max a b = if a ≤ b then b else a := rfl
  rw [h]
  simp only [UInt8.le_iff_toNat_le]
  split <;> omega

theorem UInt8.eq_of_upper_bounds {a b : UInt8} (h : ∀ m, a ≤ m ↔ b ≤ m) : a = b :=
  UInt8.le_antisymm ((h b).mpr (UInt8.le_refl b)) ((h a).mp (UInt8.le_refl a))

namespace Grid

/-- The score of a cell, zero outside the grid. -/
def value (g : Grid) (ix iy : Int) : UInt8 := (g.get? ix iy).getD 0

/-- The score of an absolute pixel, zero outside the grid. -/
def pixel (g : Grid) (px py : Int) : UInt8 := g.value (px - g.x0) (py - g.y0)

theorem value_of_outside (g : Grid) {ix iy : Int}
    (h : ix < 0 ∨ iy < 0 ∨ (g.width : Int) ≤ ix ∨ (g.height : Int) ≤ iy) : g.value ix iy = 0 := by
  simp [value, get?, h]

theorem get?_inside (g : Grid) {ix iy : Nat} (hx : ix < g.width) (hy : iy < g.height) :
    g.get? ix iy = g.cells[iy * g.width + ix]? := by
  have h : ¬ ((ix : Int) < 0 ∨ (iy : Int) < 0 ∨ (g.width : Int) ≤ ix ∨ (g.height : Int) ≤ iy) := by
    omega
  rw [get?, if_neg h, Int.toNat_natCast, Int.toNat_natCast]

/-- Every cell of the frame has a place in the buffer. -/
theorem get?_eq_none_iff (g : Grid) {ix iy : Int} :
    g.get? ix iy = none ↔
      ix < 0 ∨ iy < 0 ∨ (g.width : Int) ≤ ix ∨ (g.height : Int) ≤ iy := by
  constructor
  · intro h
    by_contra hin
    rw [get?, if_neg hin, Array.getElem?_eq_none_iff, g.size_eq] at h
    have hrow := Nat.mul_le_mul_right g.width (show iy.toNat + 1 ≤ g.height by omega)
    rw [Nat.mul_comm g.height, Nat.add_mul] at hrow
    omega
  · exact fun h => if_pos h

/-- Grids over one frame that agree in every cell are equal. -/
theorem eq_of_values {g g' : Grid} (hf : g.toFrame = g'.toFrame)
    (hv : ∀ ix iy, g.value ix iy = g'.value ix iy) : g = g' := by
  obtain ⟨frame, cells, size⟩ := g
  obtain ⟨frame', cells', size'⟩ := g'
  obtain rfl : frame = frame' := hf
  suffices cells = cells' by subst this; rfl
  apply Array.ext (size.trans size'.symm)
  intro i hi hi'
  have hpos : 0 < frame.width := by
    apply Nat.pos_of_ne_zero
    intro h0
    rw [size, h0, Nat.zero_mul] at hi
    omega
  have hx : i % frame.width < frame.width := Nat.mod_lt _ hpos
  have hy : i / frame.width < frame.height := by
    apply Nat.div_lt_of_lt_mul
    omega
  have hi0 : i / frame.width * frame.width + i % frame.width = i := by
    rw [Nat.mul_comm]
    exact Nat.div_add_mod _ _
  have h := hv (i % frame.width : Nat) (i / frame.width : Nat)
  unfold value at h
  rw [get?_inside _ hx hy, get?_inside _ hx hy] at h
  simpa only [hi0, Array.getElem?_eq_getElem hi, Array.getElem?_eq_getElem hi',
    Option.getD_some] using h

theorem value_ofFn (frame : Frame) (f : Nat → Nat → UInt8) (ix iy : Nat)
    (hx : ix < frame.width) (hy : iy < frame.height) : (ofFn frame f).value ix iy = f ix iy := by
  rw [value, get?_ofFn, if_pos ⟨hx, hy⟩, Option.getD_some]

theorem mem_overlap {start : Int} {side size i : Nat} :
    i ∈ overlap start side size ↔ start ≤ i ∧ (i : Int) < start + side ∧ i < size := by
  simp only [overlap, List.mem_range'_1]
  omega

theorem foldl_max_le_iff {α : Type} (f : α → UInt8) (l : List α) (b m : UInt8) :
    l.foldl (fun best a => max best (f a)) b ≤ m ↔ b ≤ m ∧ ∀ a ∈ l, f a ≤ m := by
  induction l generalizing b with
  | nil => simp
  | cons a l ih =>
    rw [List.foldl_cons, ih, UInt8.max_le_iff, List.forall_mem_cons, and_assoc]

theorem foldl_foldl_max_le_iff {α β : Type} (f : α → β → UInt8) (k : List α) (l : List β)
    (b m : UInt8) :
    k.foldl (fun best a => l.foldl (fun best c => max best (f a c)) best) b ≤ m ↔
      b ≤ m ∧ ∀ a ∈ k, ∀ c ∈ l, f a c ≤ m := by
  induction k generalizing b with
  | nil => simp
  | cons a k ih =>
    rw [List.foldl_cons, ih, foldl_max_le_iff, List.forall_mem_cons, and_assoc]

/-- Only cells of the grid are looked at, and the others are zero. -/
theorem squareMax_le_iff (g : Grid) (ix iy : Int) (side : Nat) (m : UInt8) :
    g.squareMax ix iy side ≤ m ↔
      ∀ i j, ix ≤ i → i < ix + side → iy ≤ j → j < iy + side → g.value i j ≤ m := by
  unfold squareMax
  rw [foldl_foldl_max_le_iff (fun (row column : Nat) => (g.get? column row).getD 0)]
  constructor
  · rintro ⟨-, h⟩ i j hi hi' hj hj'
    by_cases hout : i < 0 ∨ j < 0 ∨ (g.width : Int) ≤ i ∨ (g.height : Int) ≤ j
    · rw [g.value_of_outside hout]
      exact UInt8.zero_le
    · have := h j.toNat (mem_overlap.mpr (by omega)) i.toNat (mem_overlap.mpr (by omega))
      rwa [Int.toNat_of_nonneg (by omega), Int.toNat_of_nonneg (by omega)] at this
  · intro h
    refine ⟨UInt8.zero_le, ?_⟩
    intro row hrow column hcolumn
    rw [mem_overlap] at hrow hcolumn
    exact h column row hcolumn.1 hcolumn.2.1 hrow.1 hrow.2.1

end Grid

end ScanMatch
