import Mathlib.Data.List.Sort
import ScanMatch.Proofs.Correlation

/-! # Regrouping cells

Merged cells are strictly ordered row by row, each with the number of points in it. A coarse cell
set is a regrouping of a finer one if every coarse cell weighs what the finer cells in it weigh
together. For cell sets of scans this says that both scans have the same coarse cells.
-/
namespace ScanMatch

namespace Cell

theorem rowMajor_iff (a b : Cell) : rowMajor a b = true ↔ a.y < b.y ∨ a.y = b.y ∧ a.x ≤ b.x := by
  simp [rowMajor]

theorem rowMajor_trans (a b c : Cell) (hab : rowMajor a b) (hbc : rowMajor b c) :
    rowMajor a c := by
  rw [rowMajor_iff] at *
  omega

theorem rowMajor_total (a b : Cell) : (rowMajor a b || rowMajor b a) = true := by
  simp only [Bool.or_eq_true, rowMajor_iff]
  omega

theorem rowMajor_antisymm {a b : Cell} (hab : rowMajor a b) (hba : rowMajor b a) : a = b := by
  rw [rowMajor_iff] at *
  obtain ⟨ax, ay⟩ := a
  obtain ⟨bx, bylow⟩ := b
  simp only [mk.injEq] at *
  omega

/-- Strictly before, row by row. -/
def Before (a b : Cell) : Prop := rowMajor a b ∧ a ≠ b

theorem Before.of_rowMajor {a b c : Cell} (hab : rowMajor a b) (hbc : Before b c) :
    Before a c := by
  refine ⟨rowMajor_trans a b c hab hbc.1, ?_⟩
  rintro rfl
  exact hbc.2 (rowMajor_antisymm hbc.1 hab)

theorem coarsen_coarsen {d : Int} (hd : 0 ≤ d) (e : Int) (c : Cell) :
    (c.coarsen d).coarsen e = c.coarsen (d * e) := by
  simp only [coarsen, Int.ediv_ediv_of_nonneg hd]

end Cell

namespace CellSet

theorem mem_of_mem_tally {cells : List Cell} {w : WeightedCell} (h : w ∈ tally cells) :
    w.toCell ∈ cells ∧ 0 < w.weight := by
  induction cells with
  | nil => cases h
  | cons c rest ih =>
    rw [tally] at h
    split at h
    · obtain rfl := List.mem_singleton.mp h
      exact ⟨List.mem_cons_self, Nat.one_pos⟩
    · next v vs hrest =>
      rw [hrest] at ih
      split at h
      · rcases List.mem_cons.mp h with rfl | h
        · exact ⟨List.mem_cons_self, Nat.succ_pos _⟩
        · obtain ⟨hmem, hpos⟩ := ih (List.mem_cons_of_mem v h)
          exact ⟨List.mem_cons_of_mem c hmem, hpos⟩
      · rcases List.mem_cons.mp h with rfl | h
        · exact ⟨List.mem_cons_self, Nat.one_pos⟩
        · obtain ⟨hmem, hpos⟩ := ih h
          exact ⟨List.mem_cons_of_mem c hmem, hpos⟩

theorem mem_of_mem_group (merge : Bool) {cells : List Cell} {c : Cell} (h : c ∈ cells) :
    ∃ w ∈ group merge cells, w.toCell = c := by
  have hmem : c ∈ expand (group merge cells) := by
    rw [expand_group]
    exact (List.mergeSort_perm cells Cell.rowMajor).mem_iff.mpr h
  obtain ⟨w, hw, hc⟩ := List.mem_flatMap.mp hmem
  exact ⟨w, hw, (List.eq_of_mem_replicate hc).symm⟩

/-- Grouped cells lie where the cells did. -/
theorem mem_group_iff {merge : Bool} {cells : List Cell} {c : Cell} :
    (∃ w ∈ group merge cells, w.toCell = c) ↔ c ∈ cells := by
  refine ⟨?_, mem_of_mem_group merge⟩
  rintro ⟨w, hw, rfl⟩
  have hperm := List.mergeSort_perm cells Cell.rowMajor
  cases merge with
  | true => exact hperm.mem_iff.mp (mem_of_mem_tally hw).1
  | false =>
    obtain ⟨c, hc, rfl⟩ := List.mem_map.mp hw
    exact hperm.mem_iff.mp hc

/-- Equal cells of a sorted list follow each other, so no two runs are of one cell. -/
theorem tally_ordered {cells : List Cell} (h : cells.Pairwise (Cell.rowMajor · ·)) :
    (tally cells).Pairwise fun a b => a.toCell.Before b.toCell := by
  induction cells with
  | nil => exact List.Pairwise.nil
  | cons c rest ih =>
    obtain ⟨hc, hrest⟩ := List.pairwise_cons.mp h
    have ih := ih hrest
    have hle {w : WeightedCell} (hw : w ∈ tally rest) : Cell.rowMajor c w.toCell :=
      hc _ (mem_of_mem_tally hw).1
    rw [tally]
    split
    · exact List.pairwise_singleton _ _
    · next v vs hv =>
      rw [hv] at ih hle
      obtain ⟨hhead, htail⟩ := List.pairwise_cons.mp ih
      split
      · next heq =>
        refine List.pairwise_cons.mpr ⟨?_, htail⟩
        intro w hw
        rw [← heq]
        exact hhead w hw
      · next hne =>
        refine List.pairwise_cons.mpr ⟨?_, ih⟩
        intro w hw
        have hcv : c.Before v.toCell := ⟨hle List.mem_cons_self, fun heq => hne heq.symm⟩
        rcases List.mem_cons.mp hw with rfl | hw
        · exact hcv
        · exact (hhead w hw).of_rowMajor hcv.1

theorem group_ordered (cells : List Cell) :
    (group true cells).Pairwise fun a b => a.toCell.Before b.toCell :=
  tally_ordered (List.pairwise_mergeSort Cell.rowMajor_trans Cell.rowMajor_total cells)

/-- Where no cell is there twice, there is nothing to merge. -/
theorem tally_of_nodup {cells : List Cell} (h : cells.Nodup) :
    tally cells = cells.map (⟨·, 1⟩) := by
  induction cells with
  | nil => rfl
  | cons c rest ih =>
    obtain ⟨hc, hrest⟩ := List.nodup_cons.1 h
    rw [tally, ih hrest]
    cases rest with
    | nil => rfl
    | cons c' rest =>
      have hne : c' ≠ c := by
        rintro rfl
        exact hc List.mem_cons_self
      exact if_neg hne

/-- Cells in order, none of them twice, are grouped as they stand. -/
theorem group_of_ordered {cells : List Cell} (h : cells.Pairwise Cell.Before) (merge : Bool) :
    group merge cells = cells.map (⟨·, 1⟩) := by
  have hsorted : cells.mergeSort Cell.rowMajor = cells :=
    List.mergeSort_of_pairwise (h.imp fun hab => hab.1)
  cases merge with
  | true =>
    have htally := tally_of_nodup (h.imp fun hab => hab.2)
    rw [group, hsorted]
    exact htally
  | false =>
    rw [group, hsorted]
    rfl

theorem countP_expand (p : Cell → Bool) (ws : List WeightedCell) :
    (expand ws).countP p = (ws.map fun w => if p w.toCell then w.weight else 0).sum := by
  induction ws with
  | nil => rfl
  | cons w ws ih =>
    have h : expand (w :: ws) = List.replicate w.weight w.toCell ++ expand ws := rfl
    rw [h, List.countP_append, ih, List.countP_replicate, List.map_cons, List.sum_cons]

theorem count_expand (ws : List WeightedCell) (c : Cell) :
    (expand ws).count c = (ws.map fun w => if w.toCell = c then w.weight else 0).sum := by
  simp [List.count, countP_expand]

theorem count_coarsen_expand (d : Int) (ws : List WeightedCell) (c : Cell) :
    ((expand ws).map (Cell.coarsen d)).count c =
      (ws.map fun w => if w.toCell.coarsen d = c then w.weight else 0).sum := by
  simp [List.count, List.countP_map, countP_expand]

/-- Each coarse cell is there once, if any finer cell lies in it, and weighs what they weigh. -/
structure Regroups (d : Int) (fine coarse : List WeightedCell) : Prop where
  ordered : coarse.Pairwise fun a b => a.toCell.Before b.toCell
  positive : ∀ w ∈ coarse, 0 < w.weight
  weight : ∀ c, (coarse.map fun w => if w.toCell = c then w.weight else 0).sum =
    (fine.map fun w => if w.toCell.coarsen d = c then w.weight else 0).sum

theorem regroups_iff {d : Int} {fine coarse : List WeightedCell}
    (ho : coarse.Pairwise fun a b => a.toCell.Before b.toCell) (hp : ∀ w ∈ coarse, 0 < w.weight) :
    Regroups d fine coarse ↔ (expand coarse).Perm ((expand fine).map (Cell.coarsen d)) := by
  simp only [List.perm_iff_count, count_expand, count_coarsen_expand]
  constructor
  · intro h
    exact h.weight
  · intro h
    exact ⟨ho, hp, h⟩

/-- Grouped cells stand for the same coarser cells as the pixels that they were made of. -/
theorem expand_coarsen_perm {d : Int} (hd : 0 ≤ d) (e : Int) (merge : Bool) (pixels : List Cell) :
    ((expand (group merge (pixels.map (Cell.coarsen d)))).map (Cell.coarsen e)).Perm
      (pixels.map (Cell.coarsen (d * e))) := by
  have hcomp : Cell.coarsen e ∘ Cell.coarsen d = Cell.coarsen (d * e) := by
    funext c
    exact Cell.coarsen_coarsen hd e c
  rw [expand_group, ← hcomp, ← List.map_map]
  exact (List.mergeSort_perm _ _).map _

/-- A merged set regroups a finer one exactly if both were made of the same coarse cells. -/
theorem regroups_group_iff {d e : Int} (hd : 0 ≤ d) (merge : Bool) (pixels pixels' : List Cell) :
    Regroups e (group merge (pixels.map (Cell.coarsen d)))
        (group true (pixels'.map (Cell.coarsen (d * e)))) ↔
      (pixels'.map (Cell.coarsen (d * e))).Perm (pixels.map (Cell.coarsen (d * e))) := by
  rw [regroups_iff (group_ordered _) fun w hw => (mem_of_mem_tally hw).2, expand_group]
  have hcoarse := List.mergeSort_perm (pixels'.map (Cell.coarsen (d * e))) Cell.rowMajor
  have hfine := expand_coarsen_perm hd e merge pixels
  constructor
  · intro h
    exact hcoarse.symm.trans (h.trans hfine)
  · intro h
    exact hcoarse.trans (h.trans hfine.symm)

end CellSet

end ScanMatch
