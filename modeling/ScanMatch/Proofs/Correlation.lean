import Mathlib.Algebra.BigOperators.Group.List.Basic
import Mathlib.Algebra.Order.BigOperators.Group.List
import ScanMatch.Proofs.Construction
import ScanMatch.Search.Registration

/-! # Correlations as sums over pixels

The raw score of a block is a sum over the pixels of the turned scan, however these are grouped
into cells. It is never less than the raw score of a block inside it, at any finer level.
-/
namespace ScanMatch

open Checked (Ensures)

theorem ensures_cellSide_pow {level : Nat} (h : level < 31) :
    Ensures (Checked.cellSide level) (· = 2 ^ level) := by
  rw [Checked.cellSide_of_lt h]
  rfl

theorem ensures_foldlM_add {α : Type} {step : Int → α → Checked Int} {f : α → Int}
    (h : ∀ n a, Ensures (step n a) (· = n + f a)) (l : List α) :
    ∀ n, Ensures (l.foldlM step n) (· = n + (l.map f).sum) := by
  induction l with
  | nil =>
    intro n
    simp
  | cons a l ih =>
    intro n
    rw [List.foldlM_cons, List.map_cons, List.sum_cons, ← add_assoc]
    refine (h n a).bind ?_
    rintro m rfl
    exact ih _

namespace CellSet

theorem sum_expand (f : Cell → Int) (ws : List WeightedCell) :
    ((expand ws).map f).sum = (ws.map fun w => (w.weight : Int) * f w.toCell).sum := by
  induction ws with
  | nil => rfl
  | cons w ws ih =>
    have h : expand (w :: ws) = List.replicate w.weight w.toCell ++ expand ws := rfl
    rw [h, List.map_append, List.sum_append, ih, List.map_replicate, List.sum_replicate,
      List.map_cons, List.sum_cons, nsmul_eq_mul]

/-- Grouping keeps every sum over the cells. -/
theorem sum_group (f : Cell → Int) (merge : Bool) (cells : List Cell) :
    ((group merge cells).map fun w => (w.weight : Int) * f w.toCell).sum =
      (cells.map f).sum := by
  rw [← sum_expand, expand_group]
  exact ((List.mergeSort_perm cells Cell.rowMajor).map f).sum_eq

theorem ofCells_eq (merge : Bool) (cells : List Cell) :
    ofCells merge cells =
      (Checked.nat32 cells.length).map fun total => ⟨group merge cells, total⟩ := by
  rw [ofCells, sumWeights_group, Checked.nat32]
  split
  · simp [Checked.require, bind, Except.bind, pure, Except.pure, Except.map]
  · rfl

end CellSet

/-- At full resolution the cells are the pixels. -/
theorem Cell.map_coarsen_zero (pixels : List Cell) : pixels.map (coarsen (2 ^ 0)) = pixels := by
  have hsame (c : Cell) : c.coarsen (2 ^ 0) = c := by simp [coarsen]
  rw [funext hsame, List.map_id']

variable {S R : Type} [Scalar R] [Precision S R]

/-- The pixels that the points of a scan fall into once it is turned, one for each point. -/
def scanPixels (points : Array (Point S)) (metersPerPixel : S) (theta : R) : List Cell :=
  points.toList.map
    (Cell.ofPoint (Scalar.sin theta) (Scalar.cos theta) (widen metersPerPixel : R))

/-- A cell set is made of the coarse pixels of the scan, one for each point, where these can be
counted. -/
theorem CellSet.quantize_eq (points : Array (Point S)) (metersPerPixel : S) (theta : R)
    {level : Nat} (merge : Bool) (h : level < 31) :
    quantize points metersPerPixel theta level merge =
      (Checked.nat32 points.size).map fun total =>
        ⟨group merge ((scanPixels points metersPerPixel theta).map (Cell.coarsen (2 ^ level))),
          total⟩ := by
  unfold quantize
  rw [Checked.cellSide_of_lt h]
  change ofCells merge (points.toList.map (Cell.coarsen (2 ^ level) ∘ _)) = _
  rw [ofCells_eq, List.length_map, Array.length_toList, ← List.map_map]
  rfl

/-- A scan of not too many points has a cell set at every level. -/
theorem CellSet.quantize_eq_ok (points : Array (Point S)) (metersPerPixel : S) (theta : R)
    {level : Nat} (merge : Bool) (h : level < 31) (hsize : points.size ≤ 4294967295) :
    quantize points metersPerPixel theta level merge =
      .ok ⟨group merge ((scanPixels points metersPerPixel theta).map (Cell.coarsen (2 ^ level))),
        points.size⟩ := by
  rw [quantize_eq _ _ _ _ h, Checked.nat32, if_pos hsize]
  rfl

theorem CellSet.ensures_quantize (points : Array (Point S)) (metersPerPixel : S) (theta : R)
    {level : Nat} (merge : Bool) (h : level < 31) :
    Ensures (quantize points metersPerPixel theta level merge) fun s =>
      s.cells = group merge
        ((scanPixels points metersPerPixel theta).map (Cell.coarsen (2 ^ level))) := by
  rw [quantize_eq _ _ _ _ h]
  exact (Checked.ensures_nat32 _).map fun _ _ _ => rfl

/-- Both queries are about the same turned scan if they are remembered under one key. -/
def Distinguished (metersPerPixel metersPerPixel' : S) (theta theta' : R) : Prop :=
  ∀ level, CacheKey.ofQuery metersPerPixel theta level =
      CacheKey.ofQuery metersPerPixel' theta' level →
    (widen metersPerPixel : R) = widen metersPerPixel' ∧ theta = theta'

namespace ScanCache

/-- Every cell set at hand was made for one of the queries `Q`. -/
def MadeFor (cache : ScanCache S) (Q : S → R → Prop) : Prop :=
  ∀ (key : CacheKey) (shared : SharedSet), cache.sets[key]? = some shared →
    ∃ metersPerPixel theta level, Q metersPerPixel theta ∧
      key = CacheKey.ofQuery metersPerPixel theta level ∧
      CellSet.quantize cache.points metersPerPixel theta level cache.merge = .ok shared.set

theorem MadeFor.mono {cache : ScanCache S} {Q Q' : S → R → Prop} (h : cache.MadeFor Q)
    (hQ : ∀ mpp theta, Q mpp theta → Q' mpp theta) : cache.MadeFor Q' := by
  intro key shared hs
  obtain ⟨mpp, theta, level, hq, hk, hset⟩ := h key shared hs
  exact ⟨mpp, theta, level, hQ mpp theta hq, hk, hset⟩

theorem madeFor_of_empty {cache : ScanCache S} (h : cache.sets = ∅) (Q : S → R → Prop) :
    cache.MadeFor Q := by
  intro key shared hs
  rw [h] at hs
  simp at hs

/-- A query changes neither the scan nor the way of grouping, and adds a set made for it. -/
theorem get_cases {cache cache' : ScanCache S} {metersPerPixel : S} {theta : R} {level : Nat}
    {shared : SharedSet} (h : cache.get metersPerPixel theta level = .ok (shared, cache')) :
    (cache.sets[CacheKey.ofQuery metersPerPixel theta level]? = some shared ∧ cache' = cache) ∨
      cache.sets[CacheKey.ofQuery metersPerPixel theta level]? = none ∧
        ∃ made, CellSet.quantize cache.points metersPerPixel theta level cache.merge =
            .ok shared.set ∧
          cache' = { cache with
            sets := cache.sets.insert (CacheKey.ofQuery metersPerPixel theta level) shared
            made } := by
  unfold get at h
  dsimp only at h
  split at h
  · next s hs =>
    cases h
    exact Or.inl ⟨hs, rfl⟩
  · next hs =>
    obtain ⟨set, hset, h⟩ := Checked.bind_eq_ok h
    cases h
    exact Or.inr ⟨hs, _, hset, rfl⟩

theorem get_points {cache cache' : ScanCache S} {metersPerPixel : S} {theta : R} {level : Nat}
    {shared : SharedSet} (h : cache.get metersPerPixel theta level = .ok (shared, cache')) :
    cache'.points = cache.points ∧ cache'.merge = cache.merge := by
  rcases get_cases h with ⟨-, rfl⟩ | ⟨-, made, -, rfl⟩ <;> exact ⟨rfl, rfl⟩

theorem MadeFor.get {cache cache' : ScanCache S} {Q : S → R → Prop} (hc : cache.MadeFor Q)
    {metersPerPixel : S} {theta : R} {level : Nat} {shared : SharedSet}
    (hq : Q metersPerPixel theta)
    (h : cache.get metersPerPixel theta level = .ok (shared, cache')) : cache'.MadeFor Q := by
  rcases get_cases h with ⟨-, rfl⟩ | ⟨-, made, hset, rfl⟩
  · exact hc
  · intro key s hs
    rw [Std.HashMap.getElem?_insert] at hs
    split at hs
    · next hkey =>
      obtain rfl := Option.some.inj hs
      exact ⟨metersPerPixel, theta, level, hq, (beq_iff_eq.mp hkey).symm, hset⟩
    · exact hc key s hs

/-- The set at hand for a query, if there is one, is the set that would be made for it. -/
def Faithful (cache : ScanCache S) (metersPerPixel : S) (theta : R) (level : Nat) : Prop :=
  ∀ shared : SharedSet, cache.sets[CacheKey.ofQuery metersPerPixel theta level]? = some shared →
    CellSet.quantize cache.points metersPerPixel theta level cache.merge = .ok shared.set

theorem faithful_of_empty {cache : ScanCache S} (h : cache.sets = ∅) (metersPerPixel : S)
    (theta : R) (level : Nat) : cache.Faithful metersPerPixel theta level := by
  intro shared hs
  rw [h] at hs
  simp at hs

/-- A cache is faithful to a query whose key no other query meets. -/
theorem MadeFor.faithful {cache : ScanCache S} {Q : S → R → Prop} (hc : cache.MadeFor Q)
    {metersPerPixel : S} {theta : R}
    (hkey : ∀ mpp' theta', Q mpp' theta' → Distinguished metersPerPixel mpp' theta theta')
    (level : Nat) : cache.Faithful metersPerPixel theta level := by
  intro shared hs
  obtain ⟨mpp', theta', level', hq, hk, hset⟩ := hc _ _ hs
  obtain rfl : level = level' := congrArg CacheKey.level hk
  obtain ⟨hw, rfl⟩ := hkey mpp' theta' hq level hk
  rw [← hset, CellSet.quantize, CellSet.quantize, hw]

namespace Faithful

variable {cache cache' : ScanCache S} {metersPerPixel : S} {theta : R} {level : Nat}

/-- A query is answered as if nothing had been asked before. -/
theorem get_eq (h : cache.Faithful metersPerPixel theta level) :
    (cache.get metersPerPixel theta level).map (fun out => out.1.set) =
      CellSet.quantize cache.points metersPerPixel theta level cache.merge := by
  unfold ScanCache.get
  dsimp only
  split
  · next shared hs => exact (h shared hs).symm
  · cases CellSet.quantize cache.points metersPerPixel theta level cache.merge <;> rfl

theorem get {level' : Nat} {shared : SharedSet}
    (h : cache.Faithful metersPerPixel theta level')
    (hget : cache.get metersPerPixel theta level = .ok (shared, cache')) :
    cache'.Faithful metersPerPixel theta level' := by
  rcases get_cases hget with ⟨-, rfl⟩ | ⟨-, made, hset, rfl⟩
  · exact h
  · intro s hs
    rw [Std.HashMap.getElem?_insert] at hs
    split at hs
    · next hkey =>
      obtain rfl := Option.some.inj hs
      obtain rfl : level = level' := congrArg CacheKey.level (beq_iff_eq.mp hkey)
      exact hset
    · exact h s hs

/-- A query is answered by the cells of its own scan. -/
theorem ensures_get (h : cache.Faithful metersPerPixel theta level) (hlevel : level < 31) :
    Ensures (cache.get metersPerPixel theta level) fun out =>
      out.1.set.cells = CellSet.group cache.merge
        ((scanPixels cache.points metersPerPixel theta).map (Cell.coarsen (2 ^ level))) := by
  have hset := CellSet.ensures_quantize cache.points metersPerPixel theta cache.merge hlevel
  rw [← h.get_eq] at hset
  cases hget : cache.get metersPerPixel theta level with
  | error f =>
    rw [hget] at hset
    exact hset
  | ok out =>
    rw [hget] at hset
    exact hset

end Faithful

end ScanCache

namespace Registration

theorem ensures_weightedSum (g : Grid) (offX offY : Int) (cells : List WeightedCell) :
    Ensures (weightedSum g offX offY cells) fun n => n =
      (cells.map fun c => (c.weight : Int) * (g.value (c.x + offX) (c.y + offY)).toNat).sum := by
  rw [← zero_add (List.sum _)]
  refine ensures_foldlM_add (fun sum c => ?_) cells 0
  refine (Checked.ensures_int32 _).bind ?_
  rintro x ⟨rfl, -⟩
  refine (Checked.ensures_int32 _).bind ?_
  rintro y ⟨rfl, -⟩
  unfold Grid.value
  cases g.get? (c.x + offX) (c.y + offY) with
  | none => simp
  | some v => exact Checked.ensures_int64 _

/-- The sum of a grid of cell side `d` under pixels moved by a block. -/
def rawScore (g : Grid) (d : Int) (pixels : List Cell) (x y : Int) : Int :=
  (pixels.map fun c =>
    ((g.value (c.x / d + (x - g.x0 / d)) (c.y / d + (y - g.y0 / d))).toNat : Int)).sum

omit [Scalar R] [Precision S R] in
theorem rotation_eq_ok {r : Registration S R} {i : Nat} {theta : R}
    (h : r.rotations[i]? = some theta) : r.rotation i = .ok theta := by
  rw [rotation, h]

/-- All that a correlation does to the cache is one query. -/
theorem correlate_cases {r : Registration S R} {cache cache' : ScanCache S} {i level : Nat}
    {x y n : Int} (h : r.correlate cache i level x y = .ok (n, cache')) :
    ∃ theta shared, r.rotations[i]? = some theta ∧
      cache.get r.pyramid.metersPerPixel theta level = .ok (shared, cache') := by
  obtain ⟨g, -, h⟩ := Checked.bind_eq_ok h
  obtain ⟨theta, htheta, h⟩ := Checked.bind_eq_ok h
  obtain ⟨⟨shared, cache''⟩, hget, h⟩ := Checked.bind_eq_ok h
  obtain ⟨d, -, h⟩ := Checked.bind_eq_ok h
  obtain ⟨offX, -, h⟩ := Checked.bind_eq_ok h
  obtain ⟨offY, -, h⟩ := Checked.bind_eq_ok h
  obtain ⟨sum, -, h⟩ := Checked.bind_eq_ok h
  cases h
  refine ⟨theta, shared, ?_, hget⟩
  unfold rotation at htheta
  split at htheta
  · next e => rw [e, Except.ok.inj htheta]
  · cases htheta

/-- Where no cell set can be made, there is none to correlate. -/
theorem correlate_eq_error {r : Registration S R} {cache : ScanCache S} {i level : Nat} {theta : R}
    {g : Grid} {f : Fault} (hg : r.pyramid.levels[level]? = some g)
    (htheta : r.rotations[i]? = some theta)
    (hc : cache.Faithful r.pyramid.metersPerPixel theta level)
    (hset : CellSet.quantize cache.points r.pyramid.metersPerPixel theta level cache.merge =
      .error f) (x y : Int) : r.correlate cache i level x y = .error f := by
  have hget := hc.get_eq
  rw [hset] at hget
  rw [correlate, Pyramid.level_eq_ok hg, rotation_eq_ok htheta]
  cases hout : cache.get r.pyramid.metersPerPixel theta level with
  | ok out =>
    rw [hout] at hget
    cases hget
  | error f' =>
    rw [hout] at hget
    obtain rfl : f' = f := Except.error.inj hget
    simp [bind, Except.bind, hout]

/-- Grouped points add up to the same score as single ones. -/
theorem ensures_correlate {r : Registration S R} {cache : ScanCache S} {i level : Nat}
    {g base : Grid} {theta : R} (x y : Int) (hg : r.pyramid.levels[level]? = some g)
    (hbase : g.Summarizes base (2 ^ level)) (hlevel : level < 31)
    (htheta : r.rotations[i]? = some theta)
    (hc : cache.Faithful r.pyramid.metersPerPixel theta level) :
    Ensures (r.correlate cache i level x y) fun out => out.1 = rawScore g (2 ^ level)
      (scanPixels cache.points r.pyramid.metersPerPixel theta) x y := by
  unfold correlate
  rw [Pyramid.level_eq_ok hg, rotation_eq_ok htheta]
  refine (hc.ensures_get hlevel).bind ?_
  rintro ⟨shared, cache'⟩ hcells
  refine (ensures_cellSide_pow hlevel).bind ?_
  rintro d rfl
  refine (Checked.ensures_int32 _).bind ?_
  rintro offX ⟨rfl, -⟩
  refine (Checked.ensures_int32 _).bind ?_
  rintro offY ⟨rfl, -⟩
  refine (ensures_weightedSum g _ _ _).bind ?_
  rintro n rfl
  change List.sum _ = _
  rw [hcells, CellSet.sum_group (fun c => ((g.value (c.x + (x - g.x0.tdiv (2 ^ level)))
    (c.y + (y - g.y0.tdiv (2 ^ level)))).toNat : Int)), List.map_map,
    Int.tdiv_eq_ediv_of_dvd hbase.dvd_x0, Int.tdiv_eq_ediv_of_dvd hbase.dvd_y0]
  rfl

end Registration

/-- Along one axis: the window of pixel `c` moved by block `b` of side `h` lies in that of the block
`e` times as large. -/
theorem window_nested {h e c b o o' p : Int} (hh : 0 < h) (he : 0 < e) (ho : h ∣ o)
    (ho' : h * e ∣ o') (hlow : h * (c / h + (b - o / h)) + o ≤ p)
    (hhigh : p ≤ h * (c / h + (b - o / h)) + o + 2 * h - 2) :
    h * e * (c / (h * e) + (b / e - o' / (h * e))) + o' ≤ p ∧
      p ≤ h * e * (c / (h * e) + (b / e - o' / (h * e))) + o' + 2 * (h * e) - 2 := by
  have hc := Int.mul_ediv_cancel' ho
  have hc' := Int.mul_ediv_cancel' ho'
  have hdiv : c / (h * e) = c / h / e := (Int.ediv_ediv_of_nonneg hh.le).symm
  -- a quotient times the divisor, from below and from above
  have below (q : Int) : h * (q / e * e) ≤ h * q :=
    mul_le_mul_of_nonneg_left (Int.ediv_mul_le q he.ne') hh.le
  have above (q : Int) : h * (q + 1) ≤ h * ((q / e + 1) * e) :=
    mul_le_mul_of_nonneg_left (Int.add_one_le_of_lt (Int.lt_ediv_add_one_mul_self q he)) hh.le
  have hc1 := below (c / h)
  have hc2 := above (c / h)
  have hb1 := below b
  have hb2 := above b
  rw [hdiv]
  constructor <;> linarith

/-- Moved by a block, a pixel falls into a cell no greater than the one it falls into on a coarser
level, moved by the block there that holds the first. -/
theorem Grid.Summarizes.value_le_coarser {base g g' : Grid} {j k : Nat}
    (hg : g.Summarizes base (2 ^ j)) (hg' : g'.Summarizes base (2 ^ k)) (hjk : j ≤ k) (c : Cell)
    (x y : Int) :
    g.value (c.x / 2 ^ j + (x - g.x0 / 2 ^ j)) (c.y / 2 ^ j + (y - g.y0 / 2 ^ j)) ≤
      g'.value (c.x / 2 ^ k + (x / 2 ^ (k - j) - g'.x0 / 2 ^ k))
        (c.y / 2 ^ k + (y / 2 ^ (k - j) - g'.y0 / 2 ^ k)) := by
  have hpow : (2 : Int) ^ k = 2 ^ j * 2 ^ (k - j) := by rw [← pow_add, Nat.add_sub_cancel' hjk]
  have hx0 := hg'.dvd_x0
  have hy0 := hg'.dvd_y0
  rw [hg.value_le_iff]
  rintro px py ⟨hx, hy⟩
  have h := (hg'.value_le_iff _ _ _).mp (UInt8.le_refl (g'.value
    (c.x / 2 ^ k + (x / 2 ^ (k - j) - g'.x0 / 2 ^ k))
    (c.y / 2 ^ k + (y / 2 ^ (k - j) - g'.y0 / 2 ^ k)))) px py
  apply h
  rw [hpow] at hx0 hy0 ⊢
  exact ⟨window_nested (by positivity) (by positivity) hg.dvd_x0 hx0 hx.1 hx.2,
    window_nested (by positivity) (by positivity) hg.dvd_y0 hy0 hy.1 hy.2⟩

namespace Registration

/-- A coarse block scores no less than a finer one inside it. -/
theorem rawScore_le {base g g' : Grid} {j k : Nat} (hjk : j ≤ k) (hg : g.Summarizes base (2 ^ j))
    (hg' : g'.Summarizes base (2 ^ k)) (pixels : List Cell) (x y : Int) :
    rawScore g (2 ^ j) pixels x y ≤
      rawScore g' (2 ^ k) pixels (x / 2 ^ (k - j)) (y / 2 ^ (k - j)) := by
  unfold rawScore
  apply List.sum_le_sum
  intro c _
  rw [Int.ofNat_le, ← UInt8.le_iff_toNat_le]
  exact hg.value_le_coarser hg' hjk c x y

/-- At full resolution a block is one translation of the pixels. -/
theorem rawScore_one (g : Grid) (pixels : List Cell) (x y : Int) :
    rawScore g 1 pixels x y =
      (pixels.map fun c => ((g.pixel (c.x + x) (c.y + y)).toNat : Int)).sum := by
  simp only [rawScore, Grid.pixel, Int.ediv_one, add_sub_assoc]

end Registration

end ScanMatch
