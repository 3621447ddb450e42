import Mathlib.Data.Int.ConditionallyCompleteOrder
import Mathlib.Data.Prod.Lex
import ScanMatch.Proofs.Regrouping
import ScanMatch.Scalar.Binary

/-! # Canonical cell sets

Merged cells are determined by how many points fall into each cell, so neither the order of the
points matters nor how they were counted: a table of counts gives the same cells, in whatever order
it lists its entries. -/
namespace ScanMatch

namespace Cell

/-- Where a cell stands, row by row. -/
def place (c : Cell) : Int ×ₗ Int := toLex (c.y, c.x)

theorem rowMajor_iff_place (a b : Cell) : rowMajor a b ↔ a.place ≤ b.place := by
  rw [rowMajor_iff, place, place, Prod.Lex.toLex_le_toLex]

theorem place_injective : Function.Injective place := by
  intro a b h
  apply rowMajor_antisymm <;> rw [rowMajor_iff_place, h]

theorem before_iff_place (a b : Cell) : a.Before b ↔ a.place < b.place := by
  rw [Before, rowMajor_iff_place, lt_iff_le_and_ne, place_injective.ne_iff]

theorem sortedLE_mergeSort {α : Type} (cell : α → Cell) (l : List α) :
    ((l.mergeSort fun a b => rowMajor (cell a) (cell b)).map fun a => (cell a).place).SortedLE := by
  have hsorted := List.pairwise_mergeSort
    (fun a b c : α => rowMajor_trans (cell a) (cell b) (cell c))
    (fun a b => rowMajor_total (cell a) (cell b)) l
  apply List.Pairwise.sortedLE
  rw [List.pairwise_map]
  exact hsorted.imp fun hab => (rowMajor_iff_place _ _).mp hab

/-- Sorted cells are determined by how often each of them is there. -/
theorem mergeSort_perm_congr {cells cells' : List Cell} (h : cells.Perm cells') :
    cells.mergeSort rowMajor = cells'.mergeSort rowMajor := by
  have hantisymm : ∀ a b, a ∈ cells.mergeSort rowMajor → b ∈ cells'.mergeSort rowMajor →
      rowMajor a b → rowMajor b a → a = b :=
    fun a b _ _ hab hba => rowMajor_antisymm hab hba
  apply List.Perm.eq_of_pairwise hantisymm
  · exact List.pairwise_mergeSort rowMajor_trans rowMajor_total cells
  · exact List.pairwise_mergeSort rowMajor_trans rowMajor_total cells'
  · exact (List.mergeSort_perm _ _).trans (h.trans (List.mergeSort_perm _ _).symm)

end Cell

namespace CellSet

theorem group_perm (merge : Bool) {cells cells' : List Cell} (h : cells.Perm cells') :
    group merge cells = group merge cells' := by
  rw [group, group, Cell.mergeSort_perm_congr h]

/-- Each cell of a list of cells once, row by row, with the number of times that it is there. -/
structure Merges (ws : List WeightedCell) (cells : List Cell) : Prop where
  increasing : (ws.map fun w => w.place).SortedLT
  weight : ∀ w ∈ ws, 0 < w.weight ∧ w.weight = cells.count w.toCell
  covers : ∀ c ∈ cells, ∃ w ∈ ws, w.toCell = c

/-- Each cell of a list of cells as often as it is there, row by row. -/
structure Lists (ws : List WeightedCell) (cells : List Cell) : Prop where
  sorted : (ws.map fun w => w.place).SortedLE
  single : ∀ w ∈ ws, w.weight = 1
  length_eq : ws.length = cells.length
  count : ∀ c, (ws.map fun w => w.toCell).count c = cells.count c

variable {ws ws' : List WeightedCell} {cells cells' : List Cell}

theorem Merges.mem_iff (h : Merges ws cells) (w : WeightedCell) :
    w ∈ ws ↔ 0 < w.weight ∧ w.weight = cells.count w.toCell := by
  refine ⟨h.weight w, ?_⟩
  rintro ⟨hpos, hweight⟩
  have hmem : w.toCell ∈ cells := List.count_pos_iff.mp (hweight ▸ hpos)
  obtain ⟨v, hv, hcell⟩ := h.covers _ hmem
  have heq : v.weight = w.weight := by rw [(h.weight v hv).2, hcell, hweight]
  cases v
  cases w
  simp_all

theorem Merges.of_mem_iff (hsorted : (ws.map fun w => w.place).SortedLT)
    (hmem : ∀ w, w ∈ ws ↔ 0 < w.weight ∧ w.weight = cells.count w.toCell) : Merges ws cells where
  increasing := hsorted
  weight w hw := (hmem w).mp hw
  covers c hc := ⟨⟨c, cells.count c⟩, (hmem _).mpr ⟨List.count_pos_iff.mpr hc, rfl⟩, rfl⟩

theorem Merges.pairwise (h : Merges ws cells) : ws.Pairwise fun v w => v.place < w.place :=
  List.pairwise_map.mp h.increasing.pairwise

/-- There is only one way to merge cells. -/
theorem Merges.unique (h : Merges ws cells) (h' : Merges ws' cells') (hcells : cells.Perm cells') :
    ws = ws' := by
  have hirrefl : Std.Irrefl fun v w : WeightedCell => v.place < w.place :=
    ⟨fun v => lt_irrefl v.place⟩
  have hantisymm : Std.Antisymm fun v w : WeightedCell => v.place < w.place :=
    ⟨fun _ _ hvw hwv => absurd hvw hwv.asymm⟩
  apply h.pairwise.eq_of_mem_iff h'.pairwise
  intro w
  rw [h.mem_iff, h'.mem_iff, hcells.count_eq]

/-- Where no cell is there twice, the weight of a cell is that of its entry. -/
theorem sum_weight_eq (hdistinct : ws.Pairwise fun v w => v.toCell ≠ w.toCell) {w : WeightedCell}
    (hw : w ∈ ws) :
    (ws.map fun v => if v.toCell = w.toCell then v.weight else 0).sum = w.weight := by
  induction ws with
  | nil => cases hw
  | cons v vs ih =>
    obtain ⟨hv, hvs⟩ := List.pairwise_cons.mp hdistinct
    rw [List.map_cons, List.sum_cons]
    rcases List.mem_cons.mp hw with rfl | hw
    · have hothers : (vs.map fun v => if v.toCell = w.toCell then v.weight else 0).sum = 0 := by
        apply List.sum_eq_zero
        simp only [List.mem_map, forall_exists_index, and_imp]
        rintro _ v hmem rfl
        exact if_neg (hv v hmem).symm
      rw [if_pos rfl, hothers, add_zero]
    · rw [if_neg (hv w hw), zero_add, ih hvs hw]

theorem merges_group (cells : List Cell) : Merges (group true cells) cells where
  increasing := by
    apply List.Pairwise.sortedLT
    rw [List.pairwise_map]
    exact (group_ordered cells).imp fun hab => (Cell.before_iff_place _ _).mp hab
  weight w hw := by
    refine ⟨(mem_of_mem_tally hw).2, ?_⟩
    rw [← sum_weight_eq ((group_ordered cells).imp And.right) hw, ← count_expand, expand_group]
    exact (List.mergeSort_perm _ _).count_eq _
  covers c hc := mem_of_mem_group true hc

theorem lists_group (cells : List Cell) : Lists (group false cells) cells := by
  have hperm := List.mergeSort_perm cells Cell.rowMajor
  have hcells : (group false cells).map (fun w => w.toCell) = cells.mergeSort Cell.rowMajor := by
    simp [group, Function.comp_def]
  refine ⟨?_, ?_, ?_, ?_⟩
  · have hsorted := Cell.sortedLE_mergeSort (fun c => c) cells
    rwa [← hcells, List.map_map] at hsorted
  · intro w hw
    obtain ⟨c, -, rfl⟩ := List.mem_map.mp hw
    rfl
  · rw [← hperm.length_eq, ← hcells, List.length_map]
  · intro c
    rw [hcells]
    exact hperm.count_eq c

/-! ### Counting in a table -/

instance : Hashable Cell := ⟨fun c => mixHash (hash c.x) (hash c.y)⟩

/-- One more point in a cell, as a 32-bit count. -/
def countCell (table : Std.HashMap Cell Nat) (c : Cell) : Checked (Std.HashMap Cell Nat) := do
  let n ← Checked.nat32 (table.getD c 0 + 1)
  return table.insert c n

/-- The number of points in each cell that holds any. -/
def countCells (cells : List Cell) : Checked (Std.HashMap Cell Nat) := cells.foldlM countCell ∅

/-- The cell set of so many points, from the entries of a table in the order it lists them. -/
def ofEntries (points : Nat) (entries : List (Cell × Nat)) : Checked CellSet := do
  let listed : List WeightedCell := entries.map fun e => ⟨e.1, e.2⟩
  let cells := listed.mergeSort fun v w => Cell.rowMajor v.toCell w.toCell
  let total ← Checked.nat32 (sumWeights cells)
  Checked.require (total = points) .weightMismatch
  return ⟨cells, total⟩

/-- The table holds how often each cell is there, and nothing for other cells. -/
def Counts (table : Std.HashMap Cell Nat) (cells : List Cell) : Prop :=
  ∀ c n, table[c]? = some n ↔ 0 < n ∧ n = cells.count c

variable {table : Std.HashMap Cell Nat}

theorem Counts.getD (h : Counts table cells) (c : Cell) : table.getD c 0 = cells.count c := by
  rw [Std.HashMap.getD_eq_getD_getElem?]
  cases hc : table[c]? with
  | some n => exact ((h c n).mp hc).2
  | none =>
    by_contra hne
    have hsome := (h c (cells.count c)).mpr ⟨Nat.pos_of_ne_zero (Ne.symm hne), rfl⟩
    rw [hc] at hsome
    cases hsome

theorem counts_empty : Counts ∅ [] := by
  intro c n
  simp
  omega

theorem Counts.countCell_ok (h : Counts table cells) (c : Cell)
    (hlength : cells.length < 4294967295) :
    ∃ table', countCell table c = .ok table' ∧ Counts table' (c :: cells) := by
  have hle : cells.count c ≤ cells.length := List.count_le_length
  refine ⟨table.insert c (cells.count c + 1), ?_, ?_⟩
  · rw [countCell, h.getD, Checked.nat32, if_pos (by omega)]
    rfl
  · intro c' n
    rw [Std.HashMap.getElem?_insert, List.count_cons]
    by_cases hc : c = c'
    · subst hc
      simp
      omega
    · simp [hc, h c' n]

theorem Counts.foldlM_ok (rest : List Cell) (h : Counts table cells)
    (hlength : rest.length + cells.length ≤ 4294967295) :
    ∃ table', rest.foldlM countCell table = .ok table' ∧
      Counts table' (rest.reverse ++ cells) := by
  induction rest generalizing table cells with
  | nil => exact ⟨table, rfl, h⟩
  | cons c rest ih =>
    rw [List.length_cons] at hlength
    obtain ⟨next, hnext, hcounts⟩ := h.countCell_ok c (by omega)
    obtain ⟨table', hrest, hcounts'⟩ := ih hcounts (by rw [List.length_cons]; omega)
    refine ⟨table', ?_, by simpa using hcounts'⟩
    rw [List.foldlM_cons, hnext]
    exact hrest

theorem exists_countCells (hlength : cells.length ≤ 4294967295) :
    ∃ table, countCells cells = .ok table ∧ Counts table cells := by
  obtain ⟨table, htable, hcounts⟩ := counts_empty.foldlM_ok cells hlength
  refine ⟨table, htable, ?_⟩
  intro c n
  rw [hcounts c n, List.append_nil, cells.reverse_perm.count_eq]

theorem Counts.merges (h : Counts table cells) {entries : List (Cell × Nat)}
    (hentries : entries.Perm table.toList) :
    Merges ((entries.map fun e => (⟨e.1, e.2⟩ : WeightedCell)).mergeSort
      fun v w => Cell.rowMajor v.toCell w.toCell) cells := by
  have hperm := List.mergeSort_perm (entries.map fun e => (⟨e.1, e.2⟩ : WeightedCell))
    fun v w => Cell.rowMajor v.toCell w.toCell
  have hdistinct : (entries.map Prod.fst).Nodup := by
    rw [(hentries.map Prod.fst).nodup_iff, Std.HashMap.map_fst_toList_eq_keys]
    exact Std.HashMap.nodup_keys
  apply Merges.of_mem_iff
  · apply List.SortedLE.sortedLT_of_nodup
    · exact Cell.sortedLE_mergeSort (fun w : WeightedCell => w.toCell) _
    · rw [(hperm.map _).nodup_iff, List.map_map]
      have := hdistinct.map Cell.place_injective
      rwa [List.map_map] at this
  · rintro ⟨c, n⟩
    rw [hperm.mem_iff, ← h c n, ← Std.HashMap.mem_toList_iff_getElem?_eq_some, ← hentries.mem_iff,
      List.mem_map]
    constructor
    · rintro ⟨e, he, heq⟩
      cases heq
      exact he
    · intro he
      exact ⟨(c, n), he, rfl⟩

/-- Counted cells make the same set as cells sorted and tallied, whatever the order of the
entries. -/
theorem Counts.ofEntries_eq (h : Counts table cells) {entries : List (Cell × Nat)}
    (hentries : entries.Perm table.toList) :
    ofEntries cells.length entries = ofCells true cells := by
  have hsorted := (h.merges hentries).unique (merges_group cells) (List.Perm.refl cells)
  rw [ofEntries, hsorted]
  rfl

theorem sumWeights_eq_sum (ws : List WeightedCell) :
    sumWeights ws = (ws.map fun w => w.weight).sum := by
  rw [sumWeights, List.sum_eq_foldr, List.foldr_map]

variable {S R : Type} [Scalar R] [Precision S R]

theorem scanPixels_perm {points points' : Array (Point S)} (h : points'.Perm points)
    (metersPerPixel : S) (theta : R) :
    (scanPixels points' metersPerPixel theta).Perm (scanPixels points metersPerPixel theta) :=
  h.toList.map _

/-- The cell set of a scan holds each cell once with the number of points in it, or once for each
point, and weighs as much as there are points. Neither the order of the points nor that of a table
in which they are counted matters. -/
theorem quantize_canonical (points : Array (Point S)) (metersPerPixel : S) (theta : R)
    {level : Nat} (merge : Bool) (hlevel : level ≤ 30) (hsize : points.size < 2 ^ 32) :
    let cells := (scanPixels points metersPerPixel theta).map (Cell.coarsen (2 ^ level))
    ∃ s, quantize points metersPerPixel theta level merge = .ok s ∧
      (if merge then Merges s.cells cells else Lists s.cells cells) ∧
      s.totalWeight = (s.cells.map fun w => w.weight).sum ∧ s.totalWeight = points.size ∧
      (∀ points' : Array (Point S), points'.Perm points →
        quantize points' metersPerPixel theta level merge = .ok s) ∧
      (merge = true → ∃ table, countCells cells = .ok table ∧
        ∀ entries, entries.Perm table.toList → ofEntries points.size entries = .ok s) := by
  intro cells
  have hlength : cells.length = points.size := by simp [cells, scanPixels]
  have hsize' : points.size ≤ 4294967295 := by omega
  have hset := quantize_eq_ok points metersPerPixel theta merge (Nat.lt_succ_of_le hlevel) hsize'
  refine ⟨_, hset, ?arranged, ?weights, rfl, ?order, ?table⟩
  case arranged =>
    cases merge with
    | true => exact merges_group cells
    | false => exact lists_group cells
  case weights =>
    rw [← sumWeights_eq_sum, sumWeights_group, hlength]
  case order =>
    intro points' hperm
    have hpixels := (scanPixels_perm hperm metersPerPixel theta).map (Cell.coarsen (2 ^ level))
    rw [quantize_eq_ok _ _ _ _ (Nat.lt_succ_of_le hlevel) (hperm.size_eq.le.trans hsize'),
      group_perm merge hpixels, hperm.size_eq]
  case table =>
    rintro rfl
    obtain ⟨table, htable, hcounts⟩ := exists_countCells (hlength.le.trans hsize')
    refine ⟨table, htable, ?_⟩
    intro entries hentries
    rw [← hlength, hcounts.ofEntries_eq hentries, ofCells_eq, Checked.nat32,
      if_pos (hlength.le.trans hsize')]
    rfl

/-- Two points in one cell, and one so far off that its pixel is cut off at the ends of the
range. -/
theorem quantize_canonical_saturated :
    let points : Array (Point Float32) := #[⟨0.5, -0.5⟩, ⟨1e30, -1e30⟩, ⟨0.25, -0.75⟩]
    let cells := (scanPixels points 1 (0 : Float)).map (Cell.coarsen (2 ^ 3))
    3 ≤ 30 ∧ points.size < 2 ^ 32 ∧
    ∃ s, quantize points 1 (0 : Float) 3 true = .ok s ∧ Merges s.cells cells ∧
      s.totalWeight = (s.cells.map fun w => w.weight).sum ∧ s.totalWeight = points.size ∧
      (∀ points' : Array (Point Float32), points'.Perm points →
        quantize points' 1 (0 : Float) 3 true = .ok s) ∧
      ∃ table, countCells cells = .ok table ∧
        ∀ entries, entries.Perm table.toList → ofEntries points.size entries = .ok s := by
  intro points cells
  have hlevel : 3 ≤ 30 := by decide
  have hsize : points.size < 2 ^ 32 := by decide
  obtain ⟨s, hset, hmerges, hsum, htotal, horder, htable⟩ :=
    quantize_canonical points 1 (0 : Float) true hlevel hsize
  exact ⟨hlevel, hsize, s, hset, hmerges, hsum, htotal, horder, htable rfl⟩

end CellSet

end ScanMatch
