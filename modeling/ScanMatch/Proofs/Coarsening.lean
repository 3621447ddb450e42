import Mathlib.Data.List.Dedup
import ScanMatch.Proofs.Canonical

/-! # Coarser cell sets

The cell set of a scan at a level follows from that of any finer level, merged or not: each coarse
cell that holds a finer one weighs what the finer cells in it weigh together. -/
namespace ScanMatch

/-- Whether a cell lies in the square of the given side that a coarse cell stands for. -/
def Cell.Inside (d : Int) (coarse c : Cell) : Prop :=
  coarse.x * d ≤ c.x ∧ c.x < (coarse.x + 1) * d ∧ coarse.y * d ≤ c.y ∧ c.y < (coarse.y + 1) * d

instance (d : Int) (coarse c : Cell) : Decidable (Cell.Inside d coarse c) :=
  inferInstanceAs (Decidable (_ ∧ _))

theorem Cell.inside_iff {d : Int} (hd : 0 < d) (coarse c : Cell) :
    Inside d coarse c ↔ c.coarsen d = coarse := by
  obtain ⟨x, y⟩ := coarse
  simp only [Inside, coarsen, Cell.mk.injEq, ← Int.le_ediv_iff_mul_le hd,
    ← Int.ediv_lt_iff_lt_mul hd]
  omega

namespace CellSet

/-- The cells that any of the given ones lie in once their coordinates are divided by a side, row by
row, with the sum of their weights. -/
def regroup (d : Int) (fine : List WeightedCell) : List WeightedCell :=
  let occupied := (fine.map fun w => w.toCell.coarsen d).dedup
  (occupied.mergeSort Cell.rowMajor).map fun c =>
    ⟨c, (fine.map fun w => if w.toCell.coarsen d = c then w.weight else 0).sum⟩

def coarser (d : Int) (s : CellSet) : CellSet := ⟨regroup d s.cells, s.totalWeight⟩

/-- The weight of the cells in the square of the given side that a coarse cell stands for. -/
def weightInside (d : Int) (fine : List WeightedCell) (coarse : Cell) : Nat :=
  (fine.map fun w => if Cell.Inside d coarse w.toCell then w.weight else 0).sum

variable {d : Int} {fine : List WeightedCell}

theorem length_regroup_le (d : Int) (fine : List WeightedCell) :
    (regroup d fine).length ≤ fine.length := by
  have h := (List.dedup_sublist (fine.map fun w => w.toCell.coarsen d)).length_le
  simpa [regroup] using h

theorem weight_regroup (hd : 0 < d) {w : WeightedCell} (hw : w ∈ regroup d fine) :
    w.weight = weightInside d fine w.toCell := by
  obtain ⟨c, -, rfl⟩ := List.mem_map.mp hw
  simp only [weightInside, Cell.inside_iff hd]

theorem mem_expand_iff (hpos : ∀ w ∈ fine, 0 < w.weight) (c : Cell) :
    c ∈ expand fine ↔ ∃ w ∈ fine, w.toCell = c := by
  simp only [expand, List.mem_flatMap, List.mem_replicate]
  constructor
  · rintro ⟨w, hw, -, rfl⟩
    exact ⟨w, hw, rfl⟩
  · rintro ⟨w, hw, rfl⟩
    exact ⟨w, hw, (hpos w hw).ne', rfl⟩

theorem merges_regroup (d : Int) (hpos : ∀ w ∈ fine, 0 < w.weight) :
    Merges (regroup d fine) ((expand fine).map (Cell.coarsen d)) := by
  have hoccupied (c : Cell) :
      c ∈ ((fine.map fun w => w.toCell.coarsen d).dedup.mergeSort Cell.rowMajor) ↔
        c ∈ (expand fine).map (Cell.coarsen d) := by
    simp [List.mem_mergeSort, mem_expand_iff hpos]
  refine ⟨?increasing, ?weight, ?covers⟩
  case increasing =>
    rw [regroup, List.map_map]
    apply (Cell.sortedLE_mergeSort (fun c => c) _).sortedLT_of_nodup
    apply List.Nodup.map Cell.place_injective
    rw [(List.mergeSort_perm _ _).nodup_iff]
    exact List.nodup_dedup _
  case weight =>
    intro w hw
    obtain ⟨c, hc, rfl⟩ := List.mem_map.mp hw
    dsimp only
    rw [← count_coarsen_expand]
    exact ⟨List.count_pos_iff.mpr ((hoccupied c).mp hc), rfl⟩
  case covers =>
    intro c hc
    exact ⟨_, List.mem_map_of_mem ((hoccupied c).mpr hc), rfl⟩

theorem weight_pos_of_mem_group {merge : Bool} {cells : List Cell} {w : WeightedCell}
    (hw : w ∈ group merge cells) : 0 < w.weight := by
  cases merge with
  | true => exact (mem_of_mem_tally hw).2
  | false =>
    obtain ⟨c, -, rfl⟩ := List.mem_map.mp hw
    exact Nat.one_pos

theorem regroup_group {d : Int} (hd : 0 ≤ d) (e : Int) (merge : Bool) (pixels : List Cell) :
    regroup e (group merge (pixels.map (Cell.coarsen d))) =
      group true (pixels.map (Cell.coarsen (d * e))) :=
  (merges_regroup e fun _ => weight_pos_of_mem_group).unique (merges_group _)
    (expand_coarsen_perm hd e merge pixels)

section

variable {S R : Type} [Scalar R] [Precision S R]

/-- The merged cell set of a scan at a level is the regrouped one of any finer level. It has no more
cells, and each weighs what the finer cells inside it weigh together. -/
theorem quantize_coarser (points : Array (Point S)) (metersPerPixel : S) (theta : R) (merge : Bool)
    {j k : Nat} (hjk : j ≤ k) (hk : k ≤ 30) :
    quantize points metersPerPixel theta k true =
      (quantize points metersPerPixel theta j merge).map (coarser (2 ^ (k - j))) ∧
    (points.size < 2 ^ 32 → ∃ fine coarse,
      quantize points metersPerPixel theta j merge = .ok fine ∧
      quantize points metersPerPixel theta k true = .ok coarse ∧ coarse.size ≤ fine.size ∧
      ∀ w ∈ coarse.cells, w.weight = weightInside (2 ^ (k - j)) fine.cells w.toCell) := by
  have hpow : (2 : Int) ^ k = 2 ^ j * 2 ^ (k - j) := by rw [← pow_add, Nat.add_sub_cancel' hjk]
  have hregroup : quantize points metersPerPixel theta k true =
      (quantize points metersPerPixel theta j merge).map (coarser (2 ^ (k - j))) := by
    rw [quantize_eq _ _ _ _ (show k < 31 by omega), quantize_eq _ _ _ _ (show j < 31 by omega),
      hpow, ← regroup_group (by positivity) _ merge]
    cases Checked.nat32 points.size <;> rfl
  refine ⟨hregroup, ?_⟩
  intro hsize
  have hfine := quantize_eq_ok points metersPerPixel theta merge (show j < 31 by omega)
    (show points.size ≤ 4294967295 by omega)
  have hcoarse := hregroup
  rw [hfine] at hcoarse
  refine ⟨_, _, hfine, hcoarse, length_regroup_le _ _, ?_⟩
  intro w hw
  exact weight_regroup (by positivity) hw

end

/-- From single points at level 1 to merged cells at level 3. Two points lie on either side of zero,
and the pixel of one is cut off at the ends of the range. -/
theorem quantize_coarser_saturated :
    let points : Array (Point Float32) := #[⟨0.5, -0.5⟩, ⟨1e30, -1e30⟩, ⟨-0.25, -0.75⟩]
    1 ≤ 3 ∧ 3 ≤ 30 ∧ points.size < 2 ^ 32 ∧
    quantize points 1 (0 : Float) 3 true =
      (quantize points 1 (0 : Float) 1 false).map (coarser (2 ^ (3 - 1))) ∧
    ∃ fine coarse, quantize points 1 (0 : Float) 1 false = .ok fine ∧
      quantize points 1 (0 : Float) 3 true = .ok coarse ∧ coarse.size ≤ fine.size ∧
      ∀ w ∈ coarse.cells, w.weight = weightInside (2 ^ (3 - 1)) fine.cells w.toCell := by
  intro points
  have hsize : points.size < 2 ^ 32 := by decide
  obtain ⟨hregroup, hcells⟩ :=
    quantize_coarser points 1 (0 : Float) (j := 1) (k := 3) false (by decide) (by decide)
  exact ⟨by decide, by decide, hsize, hregroup, hcells hsize⟩

end CellSet

end ScanMatch
