import ScanMatch.Proofs.Canonical
import ScanMatch.Proofs.Outliers

/-! # From a grid to a scan and back

The centers of the cells of a grid that have some value are a scan. Unturned, it falls back into
just these cells, and it scores all of them where it was taken. -/
namespace ScanMatch

/-- Counting through rows of one width, row by row. -/
theorem range_mul (width height : Nat) :
    List.range (width * height) =
      (List.range height).flatMap fun iy => (List.range width).map (width * iy + ·) := by
  induction height with
  | zero => simp
  | succ height ih =>
    rw [Nat.mul_succ, List.range_add, ih, List.range_succ, List.flatMap_append,
      List.flatMap_singleton]

namespace Grid

/-- The columns and rows of the cells that have a given value, row by row. -/
def holding (g : Grid) (value : UInt8) : List (Nat × Nat) :=
  (List.range g.height).flatMap fun iy : Nat =>
    ((List.range g.width).filter fun ix : Nat => g.get? ix iy = some value).map (·, iy)

variable {g : Grid} {value : UInt8}

theorem mem_holding {c : Nat × Nat} :
    c ∈ g.holding value ↔ c.1 < g.width ∧ c.2 < g.height ∧ g.get? c.1 c.2 = some value := by
  obtain ⟨ix, iy⟩ := c
  simp only [holding, List.mem_flatMap, List.mem_map, List.mem_filter, List.mem_range,
    decide_eq_true_eq, Prod.mk.injEq]
  constructor
  · rintro ⟨iy, hy, ix, ⟨hx, hvalue⟩, rfl, rfl⟩
    exact ⟨hx, hy, hvalue⟩
  · rintro ⟨hx, hy, hvalue⟩
    exact ⟨iy, hy, ix, ⟨hx, hvalue⟩, rfl, rfl⟩

theorem holding_ordered :
    (g.holding value).Pairwise fun c d => c.2 < d.2 ∨ c.2 = d.2 ∧ c.1 < d.1 := by
  rw [holding, List.pairwise_flatMap]
  constructor
  · intro iy _
    rw [List.pairwise_map]
    exact (List.pairwise_lt_range.filter _).imp fun hlt => .inr ⟨rfl, hlt⟩
  · refine List.pairwise_lt_range.imp ?_
    intro iy jy hlt c hc d hd
    obtain ⟨ix, -, rfl⟩ := List.mem_map.1 hc
    obtain ⟨jx, -, rfl⟩ := List.mem_map.1 hd
    exact .inl hlt

/-- A grid with one value everywhere holds it in all its cells. -/
theorem length_holding_uniform (frame : Frame) (value : UInt8) :
    ((ofFn frame fun _ _ => value).holding value).length = frame.height * frame.width := by
  have hrow : ∀ iy ∈ List.range frame.height,
      (((List.range frame.width).filter fun ix : Nat =>
        (ofFn frame fun _ _ => value).get? ix iy = some value).map (·, iy)).length =
      frame.width := by
    intro iy hiy
    rw [List.length_map, List.filter_eq_self.2, List.length_range]
    intro ix hix
    simp [get?_ofFn, List.mem_range.1 hix, List.mem_range.1 hiy]
  calc
    _ = ((List.range frame.height).map fun _ => frame.width).sum := by
      rw [holding, List.length_flatMap]
      exact congrArg List.sum (List.map_congr_left hrow)
    _ = frame.height * frame.width := by simp

/-- Where the middle of a cell is, with the corner of cell (0, 0) at the origin given. -/
def center {S : Type} [Arith S] (origin : Point S) (metersPerPixel : S) (c : Nat × Nat) :
    Point S :=
  ⟨origin.x + (Arith.ofInt c.1 + 0.5) * metersPerPixel,
    origin.y + (Arith.ofInt c.2 + 0.5) * metersPerPixel⟩

theorem toList_centers {S : Type} [Arith S] (g : Grid) (value : UInt8) (origin : Point S)
    (metersPerPixel : S) :
    (g.centers value origin metersPerPixel).toList =
      (g.holding value).map (center origin metersPerPixel) := by
  rw [centers, List.toList_toArray, range_mul, List.filterMap_flatMap, holding, List.map_flatMap]
  apply List.flatMap_congr
  intro iy hiy
  rw [List.filterMap_map, List.map_map, ← List.filterMap_eq_map, List.filterMap_filter]
  apply List.filterMap_congr
  intro ix hix
  have hx := List.mem_range.1 hix
  have hcolumn : (g.width * iy + ix) % g.width = ix := by
    rw [Nat.mul_add_mod, Nat.mod_eq_of_lt hx]
  have hrow : (g.width * iy + ix) / g.width = iy := by
    rw [Nat.mul_add_div (by omega), Nat.div_eq_of_lt hx, Nat.add_zero]
  simp only [Function.comp_apply, hcolumn, hrow, decide_eq_true_eq,
    g.get?_inside hx (List.mem_range.1 hiy), Nat.mul_comm iy]
  rfl

/-- The absolute pixel of a cell. -/
def place (g : Grid) (c : Nat × Nat) : Cell := ⟨g.x0 + c.1, g.y0 + c.2⟩

theorem place_holding_ordered : ((g.holding value).map g.place).Pairwise Cell.Before := by
  rw [List.pairwise_map]
  refine holding_ordered.imp ?_
  intro c d hcd
  simp only [Cell.Before, Cell.rowMajor_iff, place, ne_eq, Cell.mk.injEq]
  omega

end Grid

/-! ### Exact arithmetic -/

/-- Half a cell is rounded off, whatever the size of a cell. -/
theorem floor_center (x0 : ℤ) (ix : ℕ) {metersPerPixel : ℝ} (h : 0 < metersPerPixel) :
    ⌊(x0 * metersPerPixel + (ix + 0.5) * metersPerPixel) / metersPerPixel⌋ = x0 + ix := by
  have hhalf : (x0 * metersPerPixel + (ix + 0.5) * metersPerPixel) / metersPerPixel =
      ((x0 + ix : ℤ) : ℝ) + 0.5 := by
    field_simp
    push_cast
    ring
  rw [hhalf, Int.floor_intCast_add]
  norm_num

/-- Unturned, a point falls into the pixel of its coordinates. -/
theorem ofPoint_unturned {metersPerPixel : ℝ} {p : Point ℝ} {x y : ℤ}
    (hx : ⌊p.x / metersPerPixel⌋ = x) (hy : ⌊p.y / metersPerPixel⌋ = y)
    (hxrange : -2147483648 ≤ x ∧ x ≤ 2147483647) (hyrange : -2147483648 ≤ y ∧ y ≤ 2147483647) :
    Cell.ofPoint (Scalar.sin (0 : ℝ)) (Scalar.cos 0) metersPerPixel p = ⟨x, y⟩ := by
  have hsin : Scalar.sin (0 : ℝ) = 0 := Real.sin_zero
  have hcos : Scalar.cos (0 : ℝ) = 1 := Real.cos_zero
  have hwiden (x : ℝ) : (widen x : ℝ) = x := rfl
  simp only [Cell.ofPoint, hsin, hcos, hwiden, one_mul, zero_mul, sub_zero, zero_add]
  rw [Exact.toInt32_floor (by rwa [hx]), Exact.toInt32_floor (by rwa [hy]), hx, hy]

namespace Grid

variable {g : Grid} {value : UInt8} {metersPerPixel : ℝ}

/-- Where the corner of a grid is, in meters. -/
noncomputable def corner (g : Grid) (metersPerPixel : ℝ) : Point ℝ :=
  ⟨g.x0 * metersPerPixel, g.y0 * metersPerPixel⟩

theorem center_eq (origin : Point ℝ) (c : ℕ × ℕ) :
    center origin metersPerPixel c =
      ⟨origin.x + (c.1 + 0.5) * metersPerPixel, origin.y + (c.2 + 0.5) * metersPerPixel⟩ := by
  norm_num [center]

theorem ofPoint_center (hg : g.Within 536870912) (hmpp : 0 < metersPerPixel) {c : ℕ × ℕ}
    (hc : c ∈ g.holding value) :
    Cell.ofPoint (Scalar.sin (0 : ℝ)) (Scalar.cos 0) metersPerPixel
      (center (g.corner metersPerPixel) metersPerPixel c) = g.place c := by
  obtain ⟨hx, hy, -⟩ := mem_holding.1 hc
  obtain ⟨hx0, hy0, hwidth, hheight⟩ := hg
  rw [center_eq, corner, place]
  exact ofPoint_unturned (floor_center g.x0 c.1 hmpp) (floor_center g.y0 c.2 hmpp) (by omega)
    (by omega)

/-- The cells of a grid lie in it. -/
theorem lands_holding (hg : g.Within 536870912) :
    ∀ c ∈ (g.holding value).map g.place,
      Registration.Lands (0 - g.x0) (0 - g.y0) c := by
  obtain ⟨-, -, hwidth, hheight⟩ := hg
  intro c hc
  obtain ⟨c, hmem, rfl⟩ := List.mem_map.1 hc
  obtain ⟨hx, hy, -⟩ := mem_holding.1 hmem
  simp only [Registration.Lands, Checked.InInt32, place]
  omega

theorem scanPixels_centers (hg : g.Within 536870912) (hmpp : 0 < metersPerPixel) :
    scanPixels (g.centers value (g.corner metersPerPixel) metersPerPixel) metersPerPixel (0 : ℝ) =
      (g.holding value).map g.place := by
  rw [scanPixels, toList_centers, List.map_map]
  exact List.map_congr_left fun c hc => ofPoint_center hg hmpp hc

theorem size_centers {S : Type} [Arith S] (g : Grid) (value : UInt8) (origin : Point S)
    (metersPerPixel : S) :
    (g.centers value origin metersPerPixel).size = (g.holding value).length := by
  rw [← Array.length_toList, toList_centers, List.length_map]

theorem quantize_centers (hg : g.Within 536870912) (value : UInt8) (hmpp : 0 < metersPerPixel)
    (merge : Bool) :
    CellSet.quantize (g.centers value (g.corner metersPerPixel) metersPerPixel) metersPerPixel
      (0 : ℝ) 0 merge =
    (Checked.nat32 (g.holding value).length).map fun total =>
      ⟨(g.holding value).map fun c => ⟨g.place c, 1⟩, total⟩ := by
  rw [CellSet.quantize_eq _ _ _ _ (by decide), size_centers, scanPixels_centers hg hmpp,
    Cell.map_coarsen_zero, CellSet.group_of_ordered place_holding_ordered, List.map_map]
  rfl

theorem rawScore_holding :
    Registration.rawScore g (2 ^ 0) ((g.holding value).map g.place) 0 0 =
      value.toNat * (g.holding value).length := by
  have hpixel : ∀ c ∈ g.holding value,
      ((g.pixel ((g.place c).x + 0) ((g.place c).y + 0)).toNat : ℤ) = value.toNat := by
    intro c hc
    rw [add_zero, add_zero, place, pixel_of_get? (mem_holding.1 hc).2.2]
  rw [pow_zero, Registration.rawScore_one, List.map_map]
  calc
    _ = ((g.holding value).map fun _ => (value.toNat : ℤ)).sum :=
      congrArg List.sum (List.map_congr_left hpixel)
    _ = value.toNat * (g.holding value).length := by
      rw [List.map_const', List.sum_replicate, nsmul_eq_mul, mul_comm]

/-- The translation by nothing scores every cell that the scan was taken from. -/
theorem correlate_centers {r : Registration ℝ ℝ} {cache : ScanCache ℝ} {i : ℕ}
    (hg : g.Within 536870912) (hmpp : 0 < metersPerPixel)
    (hlevel : r.pyramid.levels[0]? = some g)
    (hresolution : r.pyramid.metersPerPixel = metersPerPixel) (htheta : r.rotations[i]? = some 0)
    (hpoints : cache.points = g.centers value (g.corner metersPerPixel) metersPerPixel)
    (hc : cache.Faithful metersPerPixel (0 : ℝ) 0) :
    (r.correlate cache i 0 0 0).map Prod.fst =
      (Checked.nat32 (g.holding value).length).map fun total => (value.toNat * total : ℤ) := by
  subst hresolution
  by_cases hcount : (g.holding value).length ≤ 4294967295
  · have hpixels : scanPixels cache.points r.pyramid.metersPerPixel (0 : ℝ) =
        (g.holding value).map g.place := by
      rw [hpoints, scanPixels_centers hg hmpp]
    have hsize : cache.points.size ≤ 4294967295 := by
      rwa [hpoints, size_centers]
    have hoffset {o : ℤ} (ho : -536870912 ≤ o ∧ o ≤ 536870912) : Checked.InInt32 (0 - o) := by
      constructor <;> omega
    obtain ⟨cache', hout⟩ := Registration.correlate_finest hlevel htheta hc hsize hpixels
      (hoffset hg.x0) (hoffset hg.y0) (lands_holding hg)
    rw [hout, rawScore_holding, Checked.nat32, if_pos hcount]
    rfl
  · have hoverflow : Checked.nat32 (g.holding value).length = .error .overflow := if_neg hcount
    have hset := quantize_centers hg value hmpp cache.merge
    rw [← hpoints, hoverflow] at hset
    rw [Registration.correlate_eq_error hlevel htheta hc hset, hoverflow]
    rfl

/-- The finest level of a pyramid is the grid that it was built on. -/
theorem finest_of_built {p : Pyramid ℝ} {n : ℕ}
    (hbuild : Pyramid.build g metersPerPixel n = .ok p ∨
      Pyramid.buildReference g metersPerPixel n = .ok p) :
    p.levels[0]? = some g ∧ p.metersPerPixel = metersPerPixel := by
  have hrepresents := Pyramid.represents_of_built hbuild
  obtain ⟨base, hbase, hlevel⟩ := hrepresents.exists_level (Pyramid.one_le_of_built hbuild)
  obtain rfl := hlevel.unique g.isLevel_zero
  exact ⟨hbase, hrepresents.metersPerPixel⟩

/-- The centers of fewer than 2^32 cells with some value, row by row, fall back into these cells in
the same order, each on its own, merged or not. On every pyramid of the grid they score the value as
often as it is there, asked of a cache that remembers nothing else for this query. -/
theorem centers_roundTrip (hg : g.Within 536870912) (value : UInt8) (hmpp : 0 < metersPerPixel)
    (hcount : (g.holding value).length < 4294967296) :
    let points := g.centers value (g.corner metersPerPixel) metersPerPixel
    let cells : List WeightedCell :=
      (g.holding value).map fun (ix, iy) => ⟨⟨g.x0 + ix, g.y0 + iy⟩, 1⟩
    scanPixels points metersPerPixel (0 : ℝ) = cells.map (·.toCell) ∧
    (∀ merge, CellSet.quantize points metersPerPixel (0 : ℝ) 0 merge =
      .ok ⟨cells, cells.length⟩) ∧
    ∀ (r : Registration ℝ ℝ) (i n : ℕ) (cache : ScanCache ℝ),
      Pyramid.build g metersPerPixel n = .ok r.pyramid ∨
        Pyramid.buildReference g metersPerPixel n = .ok r.pyramid →
      r.rotations[i]? = some 0 → cache.points = points → cache.Faithful metersPerPixel (0 : ℝ) 0 →
      (r.correlate cache i 0 0 0).map Prod.fst = .ok (value.toNat * cells.length : ℤ) := by
  intro points cells
  have hlength : cells.length = (g.holding value).length := List.length_map _
  have hcells : cells.map (·.toCell) = (g.holding value).map g.place := List.map_map
  have hcounted : Checked.nat32 (g.holding value).length = .ok (g.holding value).length :=
    if_pos (by omega)
  rw [hlength, hcells]
  refine ⟨scanPixels_centers hg hmpp, ?_, ?_⟩
  · intro merge
    rw [quantize_centers hg value hmpp, hcounted]
    rfl
  · intro r i n cache hbuild htheta hpoints hc
    obtain ⟨hfinest, hresolution⟩ := finest_of_built hbuild
    rw [correlate_centers hg hmpp hfinest hresolution htheta hpoints hc, hcounted]
    rfl

/-- Two cells in a slanting line, beside the origin. -/
def slant : Grid := Grid.ofFn ⟨3, 2, -1, 5⟩ fun ix iy => if ix = iy then 7 else 0

theorem centers_roundTrip_slant :
    let metersPerPixel : ℝ := 1 / 2
    let points := slant.centers 7 (slant.corner metersPerPixel) metersPerPixel
    let cells : List WeightedCell := [⟨⟨-1, 5⟩, 1⟩, ⟨⟨0, 6⟩, 1⟩]
    let cache := ScanCache.ofPoints points true
    slant.Within 536870912 ∧ 0 < metersPerPixel ∧ (slant.holding 7).length < 4294967296 ∧
    scanPixels points metersPerPixel (0 : ℝ) = cells.map (·.toCell) ∧
    (∀ merge, CellSet.quantize points metersPerPixel (0 : ℝ) 0 merge = .ok ⟨cells, 2⟩) ∧
    ∃ r : Registration ℝ ℝ, Pyramid.build slant metersPerPixel 3 = .ok r.pyramid ∧
      r.rotations[0]? = some 0 ∧ cache.Faithful metersPerPixel (0 : ℝ) 0 ∧
      (r.correlate cache 0 0 0 0).map Prod.fst = .ok 14 := by
  intro metersPerPixel points cells cache
  have hgrid : slant.Within 536870912 := by constructor <;> decide
  have hmpp : 0 < metersPerPixel := one_half_pos
  have hmoderate : slant.Moderate := by constructor <;> decide
  have hholding : slant.holding 7 = [(0, 0), (1, 1)] := by decide
  obtain ⟨p, hbuild, -, -⟩ := Pyramid.build_ok hmoderate metersPerPixel (show 1 ≤ 3 by decide)
    (by decide)
  have hfaithful : cache.Faithful metersPerPixel (0 : ℝ) 0 :=
    ScanCache.faithful_of_empty rfl _ _ _
  have hcount : (slant.holding 7).length < 4294967296 := by rw [hholding]; decide
  obtain ⟨hpixels, hquantize, hcorrelate⟩ := centers_roundTrip hgrid 7 hmpp hcount
  have hscore := hcorrelate (.still p) 0 3 cache (.inl hbuild) rfl rfl hfaithful
  rw [hholding] at hpixels hquantize hscore
  exact ⟨hgrid, hmpp, hcount, hpixels, hquantize, .still p, hbuild, rfl, hfaithful, hscore⟩

end Grid

/-! ### Queries under one key -/

section

variable {S R : Type} [Scalar R] [Precision S R]

/-- What was made for a query is handed out for every query under the same key. -/
theorem ScanCache.get_again {cache cache' : ScanCache S} {shared : SharedSet} {level : Nat}
    {metersPerPixel metersPerPixel' : S} {theta : R}
    (h : cache.get metersPerPixel theta level = .ok (shared, cache'))
    (hkey : CacheKey.ofQuery metersPerPixel' theta level =
      CacheKey.ofQuery metersPerPixel theta level) :
    cache'.get metersPerPixel' theta level = .ok (shared, cache') := by
  have hset : cache'.sets[CacheKey.ofQuery metersPerPixel theta level]? = some shared := by
    rcases get_cases h with ⟨hset, rfl⟩ | ⟨-, made, -, rfl⟩
    · exact hset
    · exact Std.HashMap.getElem?_insert_self
  rw [ScanCache.get, hkey]
  dsimp only
  rw [hset]

/-- A block of one grid scores the same under two resolutions with the same key, where the first
query is remembered. -/
theorem Registration.correlate_again {r r' : Registration S R} {cache cache' : ScanCache S}
    {i level : Nat} {g : Grid} {theta : R} {x y n : Int}
    (hg : r.pyramid.levels[level]? = some g) (hg' : r'.pyramid.levels[level]? = some g)
    (htheta : r.rotations[i]? = some theta) (htheta' : r'.rotations[i]? = some theta)
    (hkey : CacheKey.ofQuery r'.pyramid.metersPerPixel theta level =
      CacheKey.ofQuery r.pyramid.metersPerPixel theta level)
    (h : r.correlate cache i level x y = .ok (n, cache')) :
    r'.correlate cache' i level x y = .ok (n, cache') := by
  obtain ⟨theta', shared, htheta'', hget⟩ := correlate_cases h
  obtain rfl : theta = theta' := Option.some.inj (htheta.symm.trans htheta'')
  have hagain := ScanCache.get_again hget hkey
  rw [correlate, Pyramid.level_eq_ok hg, rotation_eq_ok htheta] at h
  rw [correlate, Pyramid.level_eq_ok hg', rotation_eq_ok htheta']
  simp only [bind, Except.bind, hget] at h
  simpa only [bind, Except.bind, hagain] using h

end

/-- All resolutions below half a nanometer share a key. -/
theorem CacheKey.ofQuery_tiny {metersPerPixel : ℝ} (hpos : 0 < metersPerPixel)
    (htiny : metersPerPixel * 10 ^ 9 < 1 / 2) :
    CacheKey.ofQuery metersPerPixel (0 : ℝ) 0 = ⟨0, 0, 0⟩ := by
  have hrotation : Scalar.toInt64 (Scalar.round ((0 : ℝ) * 10 ^ 9)) = 0 :=
    Exact.toInt64_round_of_abs_lt (by norm_num)
  have hresolution : Scalar.toInt64 (Scalar.round (metersPerPixel * 10 ^ 9)) = 0 :=
    Exact.toInt64_round_of_abs_lt (by rwa [abs_of_pos (by positivity)])
  rw [CacheKey.ofQuery]
  simp only [Exact.ofScientific_eq, Bool.false_eq_true, if_false, Nat.cast_one, one_mul]
  exact congrArg₂ (CacheKey.mk 0) hrotation hresolution

namespace Grid

/-! ### Scans that do not come back -/

/-- Equal cells, too many of them to count. -/
def full : Grid := ofFn ⟨65536, 65536, 0, 0⟩ fun _ _ => 1

theorem full_holding : (full.holding 1).length = 4294967296 := length_holding_uniform _ _

theorem quantize_full (merge : Bool) :
    CellSet.quantize (full.centers 1 (full.corner 1) 1) (1 : ℝ) (0 : ℝ) 0 merge =
      .error .overflow := by
  have hgrid : full.Within 536870912 := by constructor <;> decide
  rw [quantize_centers hgrid 1 one_pos, full_holding]
  rfl

theorem correlate_full {r : Registration ℝ ℝ} (hfinest : r.pyramid.levels[0]? = some full)
    (hresolution : r.pyramid.metersPerPixel = 1) (htheta : r.rotations[0]? = some 0) :
    r.correlate (ScanCache.ofPoints (full.centers 1 (full.corner 1) 1) true) 0 0 0 0 =
      .error .overflow := by
  apply Registration.correlate_eq_error hfinest htheta (ScanCache.faithful_of_empty rfl _ _ _)
  rw [hresolution]
  exact quantize_full true

/-- A single cell beside the origin. -/
def apart : Grid := ofFn ⟨1, 1, 1, 0⟩ fun _ _ => 7

theorem apart_holding : apart.holding 7 = [(0, 0)] := by decide

/-- At half the resolution the center of the cell is three pixels from the origin. -/
theorem scanPixels_apart (hmpp : 0 < metersPerPixel) :
    scanPixels (apart.centers 7 (apart.corner metersPerPixel) metersPerPixel) (metersPerPixel / 2)
      (0 : ℝ) = [⟨3, 1⟩] := by
  have hcenter : center (apart.corner metersPerPixel) metersPerPixel (0, 0) =
      ⟨1.5 * metersPerPixel, 0.5 * metersPerPixel⟩ := by
    have hx0 : apart.x0 = 1 := rfl
    have hy0 : apart.y0 = 0 := rfl
    rw [center_eq, corner, hx0, hy0]
    norm_num
    ring
  have hx : ⌊1.5 * metersPerPixel / (metersPerPixel / 2)⌋ = 3 := by
    have hthree : 1.5 * metersPerPixel / (metersPerPixel / 2) = 3 := by
      field_simp
      norm_num
    rw [hthree, Int.floor_ofNat]
  have hy : ⌊0.5 * metersPerPixel / (metersPerPixel / 2)⌋ = 1 := by
    have hone : 0.5 * metersPerPixel / (metersPerPixel / 2) = 1 := by
      field_simp
      norm_num
    rw [hone, Int.floor_one]
  rw [scanPixels, toList_centers, apart_holding, List.map_singleton, List.map_singleton, hcenter]
  exact congrArg (fun c => [c]) (ofPoint_unturned hx hy (by decide) (by decide))

/-- There the center misses the cell. -/
theorem correlate_apart (hmpp : 0 < metersPerPixel) {r : Registration ℝ ℝ}
    (hfinest : r.pyramid.levels[0]? = some apart)
    (hresolution : r.pyramid.metersPerPixel = metersPerPixel / 2)
    (htheta : r.rotations[0]? = some 0) :
    ∃ cache, r.correlate (ScanCache.ofPoints
      (apart.centers 7 (apart.corner metersPerPixel) metersPerPixel) true) 0 0 0 0 =
        .ok (0, cache) := by
  set scan := ScanCache.ofPoints (apart.centers 7 (apart.corner metersPerPixel) metersPerPixel) true
  have hfaithful : scan.Faithful r.pyramid.metersPerPixel (0 : ℝ) 0 :=
    ScanCache.faithful_of_empty rfl _ _ _
  have hpixels : scanPixels scan.points r.pyramid.metersPerPixel (0 : ℝ) = [⟨3, 1⟩] := by
    rw [hresolution]
    exact scanPixels_apart hmpp
  have hsize : scan.points.size = 1 := by
    change (apart.centers 7 (apart.corner metersPerPixel) metersPerPixel).size = 1
    rw [size_centers, apart_holding]
    rfl
  have hlands : Registration.Lands (0 - apart.x0) (0 - apart.y0) ⟨3, 1⟩ := by
    constructor <;> constructor <;> decide
  have hzero : Registration.rawScore apart (2 ^ 0) [⟨3, 1⟩] 0 0 = 0 := by decide
  rw [← hzero]
  exact Registration.correlate_finest hfinest htheta hfaithful (by omega) hpixels
    (by constructor <;> decide) (by constructor <;> decide) (List.forall_mem_singleton.2 hlands)

/-- Neither bound can be left out. A grid of 65536 by 65536 equal cells has more centers than can be
counted. And where a scan was scored before at a resolution under the same key, its one center
counts at the pixel that it fell into then, and misses the cell that it was taken from. -/
theorem centers_roundTrip_fails :
    (full.Within 536870912 ∧ (full.holding 1).length = 4294967296 ∧
      (∀ merge, CellSet.quantize (full.centers 1 (full.corner 1) 1) (1 : ℝ) (0 : ℝ) 0 merge =
        .error .overflow) ∧
      ∃ r : Registration ℝ ℝ, Pyramid.build full 1 2 = .ok r.pyramid ∧ r.rotations[0]? = some 0 ∧
        r.correlate (ScanCache.ofPoints (full.centers 1 (full.corner 1) 1) true) 0 0 0 0 =
          .error .overflow) ∧
    let metersPerPixel : ℝ := 1 / 2 ^ 31
    let scan := ScanCache.ofPoints
      (apart.centers 7 (apart.corner metersPerPixel) metersPerPixel) true
    apart.Within 536870912 ∧ 0 < metersPerPixel ∧ apart.holding 7 = [(0, 0)] ∧
    ∃ (finer r : Registration ℝ ℝ) (n : ℤ) (cache : ScanCache ℝ),
      Pyramid.build apart (metersPerPixel / 2) 2 = .ok finer.pyramid ∧
      Pyramid.build apart metersPerPixel 2 = .ok r.pyramid ∧
      finer.rotations[0]? = some 0 ∧ r.rotations[0]? = some 0 ∧
      finer.correlate scan 0 0 0 0 = .ok (n, cache) ∧ cache.points = scan.points ∧
      (r.correlate cache 0 0 0 0).map Prod.fst = .ok 0 := by
  constructor
  · have hgrid : full.Within 536870912 := by constructor <;> decide
    have hmoderate : full.Moderate := by constructor <;> decide
    obtain ⟨p, hbuild, -, -⟩ := Pyramid.build_ok hmoderate (1 : ℝ) (show 1 ≤ 2 by decide)
      (by decide)
    obtain ⟨hfinest, hresolution⟩ := finest_of_built (.inl hbuild)
    exact ⟨hgrid, full_holding, quantize_full, .still p, hbuild, rfl,
      correlate_full (r := .still p) hfinest hresolution rfl⟩
  · intro metersPerPixel scan
    have hgrid : apart.Within 536870912 := by constructor <;> decide
    have hmoderate : apart.Moderate := by constructor <;> decide
    have hmpp : 0 < metersPerPixel := by positivity
    obtain ⟨p, hbuild, -, -⟩ := Pyramid.build_ok hmoderate metersPerPixel (show 1 ≤ 2 by decide)
      (by decide)
    obtain ⟨p', hbuild', -, -⟩ := Pyramid.build_ok hmoderate (metersPerPixel / 2)
      (show 1 ≤ 2 by decide) (by decide)
    obtain ⟨hfinest, hresolution⟩ := finest_of_built (.inl hbuild)
    obtain ⟨hfinest', hresolution'⟩ := finest_of_built (.inl hbuild')
    obtain ⟨cache, hout⟩ := correlate_apart hmpp (r := .still p') hfinest' hresolution' rfl
    have hkey : CacheKey.ofQuery p.metersPerPixel (0 : ℝ) 0 =
        CacheKey.ofQuery p'.metersPerPixel (0 : ℝ) 0 := by
      rw [hresolution, hresolution', CacheKey.ofQuery_tiny hmpp (by norm_num [metersPerPixel]),
        CacheKey.ofQuery_tiny (by positivity) (by norm_num [metersPerPixel])]
    have htheta : (Registration.still p).rotations[0]? = some 0 := rfl
    have htheta' : (Registration.still p').rotations[0]? = some 0 := rfl
    have hagain := Registration.correlate_again hfinest' hfinest htheta' htheta hkey hout
    obtain ⟨_, _, -, hget⟩ := Registration.correlate_cases hout
    refine ⟨hgrid, hmpp, apart_holding, .still p', .still p, 0, cache, hbuild', hbuild, rfl, rfl,
      hout, (ScanCache.get_points hget).1, ?_⟩
    rw [hagain]
    rfl

end Grid

end ScanMatch
