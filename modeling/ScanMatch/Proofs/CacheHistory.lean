import ScanMatch.Proofs.Exact
import ScanMatch.Proofs.Regrouping

/-! # Histories of a scan cache

Whatever a cache was asked, it remembers for each key what the earliest query since the last
clearing was answered. Sets of different levels under otherwise equal keys can so come from
different rotations. They regroup each other if their first queries agree, and need not otherwise.
-/
namespace ScanMatch

/-- The arguments of a query. -/
structure Query (S R : Type) where
  metersPerPixel : S
  rotation : R
  level : Nat

namespace Query

variable {S R : Type} [Scalar R] [Precision S R]

def key (q : Query S R) : CacheKey := .ofQuery q.metersPerPixel q.rotation q.level

/-- The earliest query for a key, where the latest one stands first. -/
def first? (key : CacheKey) (since : List (Query S R)) : Option (Query S R) :=
  since.reverse.find? fun q => q.key = key

theorem first?_cons (key : CacheKey) (q : Query S R) (since : List (Query S R)) :
    first? key (q :: since) = (first? key since).or (if q.key = key then some q else none) := by
  by_cases h : q.key = key <;> simp [first?, List.find?_append, h]

/-- The set that a query is for. -/
def quantize (q : Query S R) (points : Array (Point S)) (merge : Bool) : Checked CellSet :=
  CellSet.quantize points q.metersPerPixel q.rotation q.level merge

def pixels (q : Query S R) (points : Array (Point S)) : List Cell :=
  scanPixels points q.metersPerPixel q.rotation

theorem key_of_first? {key : CacheKey} {since : List (Query S R)} {q : Query S R}
    (h : first? key since = some q) : q.key = key := by
  simpa using List.find?_some h

theorem cells_of_quantize {q : Query S R} {points : Array (Point S)} {merge : Bool} {set : CellSet}
    (hlevel : q.level < 31) (h : q.quantize points merge = .ok set) :
    set.cells = CellSet.group merge ((q.pixels points).map (Cell.coarsen (2 ^ q.level))) :=
  (CellSet.ensures_quantize _ _ _ _ hlevel).of_ok h

end Query

namespace ScanCache

variable {S R : Type} [Scalar R] [Precision S R]

/-- The caches that queries and clearings lead to, with the queries answered since the last
clearing, the latest first. -/
inductive Called (points : Array (Point S)) (merge : Bool) :
    ScanCache S → List (Query S R) → Prop where
  | fresh : Called points merge (ofPoints points merge) []
  | get {cache cache' since shared} (q : Query S R) : Called points merge cache since →
      cache.get q.metersPerPixel q.rotation q.level = .ok (shared, cache') →
      Called points merge cache' (q :: since)
  | clear {cache since} : Called points merge cache since → Called points merge cache.clear []

/-- The cache holds the sets of the earliest queries, and no others. -/
structure Remembers (cache : ScanCache S) (points : Array (Point S)) (merge : Bool)
    (since : List (Query S R)) : Prop where
  points_eq : cache.points = points
  merge_eq : cache.merge = merge
  made : ∀ key shared, cache.sets[key]? = some shared →
    ∃ q, Query.first? key since = some q ∧ q.quantize points merge = .ok shared.set
  held : ∀ key, cache.sets[key]? = none → Query.first? key since = none

variable {points : Array (Point S)} {merge : Bool} {cache cache' : ScanCache S}
  {since : List (Query S R)} {shared : SharedSet}

theorem Remembers.get (h : cache.Remembers points merge since) (q : Query S R)
    (hget : cache.get q.metersPerPixel q.rotation q.level = .ok (shared, cache')) :
    cache'.Remembers points merge (q :: since) := by
  have older {key : CacheKey} {s : SharedSet} (hs : cache.sets[key]? = some s) :
      ∃ q', Query.first? key (q :: since) = some q' ∧ q'.quantize points merge = .ok s.set := by
    obtain ⟨q', hfirst, hset⟩ := h.made key s hs
    exact ⟨q', by rw [Query.first?_cons, hfirst, Option.some_or], hset⟩
  have other {key : CacheKey} (hkey : q.key ≠ key) (hs : cache.sets[key]? = none) :
      Query.first? key (q :: since) = none := by
    rw [Query.first?_cons, h.held key hs, if_neg hkey, Option.none_or]
  rcases get_cases hget with ⟨hhit, rfl⟩ | ⟨hmiss, made, hset, rfl⟩
  · refine ⟨h.points_eq, h.merge_eq, fun key s hs => older hs, fun key hs => other ?_ hs⟩
    rintro rfl
    rw [Query.key, hhit] at hs
    cases hs
  · refine ⟨h.points_eq, h.merge_eq, fun key s hs => ?_, fun key hs => ?_⟩
    all_goals rw [Std.HashMap.getElem?_insert] at hs; split at hs
    · next hkey =>
      obtain rfl := Option.some.inj hs
      obtain rfl : q.key = key := beq_iff_eq.mp hkey
      refine ⟨q, ?_, ?_⟩
      · rw [Query.first?_cons, h.held q.key hmiss, if_pos rfl, Option.none_or]
      · rw [Query.quantize, ← h.points_eq, ← h.merge_eq, hset]
    · exact older hs
    · cases hs
    · next hkey => exact other (fun heq => hkey (beq_iff_eq.mpr heq)) hs

theorem Called.remembers (h : Called points merge cache since) :
    cache.Remembers points merge since := by
  induction h with
  | fresh => exact ⟨rfl, rfl, by simp [ofPoints], fun _ _ => rfl⟩
  | get q _ hget ih => exact ih.get q hget
  | clear _ ih => exact ⟨ih.points_eq, ih.merge_eq, by simp [ScanCache.clear], fun _ _ => rfl⟩

/-- Two sets that differ in level only regroup each other exactly if the coarse cells of their first
queries are the same. Where those queries agree, they are. -/
theorem Called.levels_agree_iff {j k : Nat} {nanoradians nanometers : Int} {fine coarse : SharedSet}
    (h : Called points true cache since) (hjk : j < k) (hk : k ≤ 30)
    (hfine : cache.sets[(⟨j, nanoradians, nanometers⟩ : CacheKey)]? = some fine)
    (hcoarse : cache.sets[(⟨k, nanoradians, nanometers⟩ : CacheKey)]? = some coarse) :
    ∃ q q' : Query S R, Query.first? ⟨j, nanoradians, nanometers⟩ since = some q ∧
      Query.first? ⟨k, nanoradians, nanometers⟩ since = some q' ∧
      (CellSet.Regroups (2 ^ (k - j)) fine.set.cells coarse.set.cells ↔
        ((q'.pixels points).map (Cell.coarsen (2 ^ k))).Perm
          ((q.pixels points).map (Cell.coarsen (2 ^ k)))) ∧
      ((widen q.metersPerPixel : R) = widen q'.metersPerPixel → q.rotation = q'.rotation →
        CellSet.Regroups (2 ^ (k - j)) fine.set.cells coarse.set.cells) := by
  obtain ⟨q, hq, hset⟩ := h.remembers.made _ _ hfine
  obtain ⟨q', hq', hset'⟩ := h.remembers.made _ _ hcoarse
  obtain rfl : q.level = j := congrArg CacheKey.level (Query.key_of_first? hq)
  obtain rfl : q'.level = k := congrArg CacheKey.level (Query.key_of_first? hq')
  have hcells := Query.cells_of_quantize (by omega) hset
  have hcells' := Query.cells_of_quantize (by omega) hset'
  have hpow : (2 : Int) ^ q'.level = 2 ^ q.level * 2 ^ (q'.level - q.level) := by
    rw [← pow_add, Nat.add_sub_cancel' hjk.le]
  have hiff : CellSet.Regroups (2 ^ (q'.level - q.level)) fine.set.cells coarse.set.cells ↔
      ((q'.pixels points).map (Cell.coarsen (2 ^ q'.level))).Perm
        ((q.pixels points).map (Cell.coarsen (2 ^ q'.level))) := by
    rw [hcells, hcells', hpow]
    exact CellSet.regroups_group_iff (by positivity) true _ _
  refine ⟨q, q', hq, hq', hiff, ?_⟩
  intro hresolution hrotation
  rw [hiff, Query.pixels, Query.pixels, scanPixels, scanPixels, hresolution, hrotation]

/-- A query for a key that is not at hand is answered with the set made for it. -/
theorem exists_get (cache : ScanCache S) (q : Query S R) (hmiss : cache.sets[q.key]? = none)
    (hlevel : q.level < 31) (hsize : cache.points.size ≤ 4294967295) :
    ∃ shared cache', cache.get q.metersPerPixel q.rotation q.level = .ok (shared, cache') ∧
      cache'.sets = cache.sets.insert q.key shared ∧ cache'.points = cache.points ∧
      cache'.merge = cache.merge ∧ shared.set.cells =
        CellSet.group cache.merge ((q.pixels cache.points).map (Cell.coarsen (2 ^ q.level))) := by
  have hset := CellSet.quantize_eq_ok cache.points q.metersPerPixel q.rotation cache.merge hlevel
    hsize
  let cells := CellSet.group cache.merge ((q.pixels cache.points).map (Cell.coarsen (2 ^ q.level)))
  let shared : SharedSet := ⟨cache.made, ⟨cells, cache.points.size⟩⟩
  refine ⟨shared, { cache with sets := cache.sets.insert q.key shared, made := cache.made + 1 },
    ?_, rfl, rfl, rfl, rfl⟩
  unfold get
  rw [Query.key] at hmiss
  dsimp only
  rw [hmiss, hset]
  rfl

end ScanCache

/-! ### Two rotations under one key

A point on the line between two rows of pixels falls into the upper row at a tiny rotation one way,
and into the lower row at a tiny rotation the other way.
-/

noncomputable section

def boundaryScan : Array (Point ℝ) := #[⟨1 / 2, 0⟩]

def boundaryQuery (rotation : ℝ) (level : ℕ) : Query ℝ ℝ := ⟨1, rotation, level⟩

theorem boundaryQuery_key (rotation : ℝ) (level : ℕ) (h : |rotation| ≤ 1 / 10 ^ 10) :
    (boundaryQuery rotation level).key = ⟨level, 0, 1000000000⟩ := by
  have hrotation : Scalar.toInt64 (Scalar.round (rotation * 10 ^ 9)) = 0 := by
    apply Exact.toInt64_round_of_abs_lt
    rw [abs_mul, abs_of_nonneg (by norm_num : (0 : ℝ) ≤ 10 ^ 9)]
    linarith
  have hresolution : Scalar.toInt64 (Scalar.round ((1 : ℝ) * 10 ^ 9)) = 1000000000 := by
    have := Exact.toInt64_round (k := 1000000000) (by decide)
    norm_num at this ⊢
    exact this
  rw [Query.key, CacheKey.ofQuery]
  simp only [Exact.ofScientific_eq, Bool.false_eq_true, if_false, Nat.cast_one, one_mul]
  exact congrArg₂ (CacheKey.mk level) hrotation hresolution

/-- The pixel of the point, in the row that it is turned to. -/
theorem scanPixels_boundary (rotation : ℝ) (row : ℤ) (h : |rotation| ≤ 1)
    (hrow : ⌊Real.sin rotation / 2⌋ = row) (hrange : -1 ≤ row ∧ row ≤ 0) :
    scanPixels boundaryScan (1 : ℝ) rotation = [⟨0, row⟩] := by
  have hcos : 0 < Real.cos rotation := by
    obtain ⟨hlow, hhigh⟩ := abs_le.mp h
    have := Real.pi_gt_three
    exact Real.cos_pos_of_mem_Ioo ⟨by linarith, by linarith⟩
  have hcolumn : ⌊Real.cos rotation * (1 / 2) - Real.sin rotation * 0⌋ = 0 := by
    rw [Int.floor_eq_zero_iff]
    have := Real.cos_le_one rotation
    constructor <;> linarith
  have hline : ⌊Real.sin rotation * (1 / 2) + Real.cos rotation * 0⌋ = row := by
    rw [← hrow]
    ring_nf
  have hx := Exact.toInt32_floor (x := Real.cos rotation * (1 / 2) - Real.sin rotation * 0)
    (by omega)
  have hy := Exact.toInt32_floor (x := Real.sin rotation * (1 / 2) + Real.cos rotation * 0)
    (by omega)
  change [Cell.mk (Scalar.toInt32 (Scalar.floor
      ((Real.cos rotation * (1 / 2) - Real.sin rotation * 0) / (1 : ℝ))))
    (Scalar.toInt32 (Scalar.floor
      ((Real.sin rotation * (1 / 2) + Real.cos rotation * 0) / (1 : ℝ))))] = _
  rw [div_one, div_one, hx, hy, hcolumn, hline]

namespace ScanCache

theorem Called.exists_boundary : ∃ (cache : ScanCache ℝ) (since : List (Query ℝ ℝ))
    (fine coarse : SharedSet), Called boundaryScan true cache since ∧
      cache.sets[(⟨0, 0, 1000000000⟩ : CacheKey)]? = some fine ∧
      cache.sets[(⟨1, 0, 1000000000⟩ : CacheKey)]? = some coarse ∧
      fine.set.cells = [⟨⟨0, 0⟩, 1⟩] ∧ coarse.set.cells = [⟨⟨0, -1⟩, 1⟩] := by
  have hsin : 0 < Real.sin (1 / 10 ^ 10) :=
    Real.sin_pos_of_pos_of_lt_pi (by norm_num) (by linarith [Real.pi_gt_three])
  have hone := Real.sin_le_one (1 / 10 ^ 10)
  have hup := scanPixels_boundary (1 / 10 ^ 10) 0 (by norm_num [abs_le])
    (Int.floor_eq_zero_iff.mpr ⟨by linarith, by linarith⟩) (by decide)
  have hdown := scanPixels_boundary (-(1 / 10 ^ 10)) (-1) (by norm_num [abs_le])
    (by
      rw [Real.sin_neg, Int.floor_eq_iff]
      constructor <;> push_cast <;> linarith)
    (by decide)
  have hkey := boundaryQuery_key (1 / 10 ^ 10) 0 (by norm_num [abs_le])
  have hkey' := boundaryQuery_key (-(1 / 10 ^ 10)) 1 (by norm_num [abs_le])
  obtain ⟨fine, cache, hget, hsets, hpoints, hmerge, hfine⟩ := exists_get
    (ofPoints boundaryScan true) (boundaryQuery (1 / 10 ^ 10) 0) (by simp [ofPoints])
    (by decide) (by decide)
  have hmiss : cache.sets[(boundaryQuery (-(1 / 10 ^ 10)) 1).key]? = none := by
    rw [hsets, hkey, hkey']
    simp [ofPoints]
  obtain ⟨coarse, cache', hget', hsets', -, -, hcoarse⟩ := exists_get cache _ hmiss (by decide)
    (by rw [hpoints]; decide)
  refine ⟨cache', _, fine, coarse, (Called.fresh.get _ hget).get _ hget', ?_, ?_, ?_, ?_⟩
  · rw [hsets', hsets, hkey, hkey', Std.HashMap.getElem?_insert, if_neg (by decide),
      Std.HashMap.getElem?_insert_self]
  · rw [hsets', hkey', Std.HashMap.getElem?_insert_self]
  · rw [hfine]
    change CellSet.group true ((scanPixels boundaryScan (1 : ℝ) (1 / 10 ^ 10)).map _) = _
    rw [hup]
    simp [CellSet.group, CellSet.tally, boundaryQuery, Cell.coarsen]
  · rw [hcoarse, hpoints, hmerge]
    change CellSet.group true ((scanPixels boundaryScan (1 : ℝ) (-(1 / 10 ^ 10))).map _) = _
    rw [hdown]
    simp [CellSet.group, CellSet.tally, boundaryQuery, Cell.coarsen]

/-- The boundary scan's coarse set is not a regrouping of its fine one. -/
theorem Called.levels_disagree_boundary : ¬ ∀ (cache : ScanCache ℝ) (since : List (Query ℝ ℝ))
    (j k : ℕ) (nanoradians nanometers : ℤ) (fine coarse : SharedSet),
    Called boundaryScan true cache since → j < k → k ≤ 30 →
      cache.sets[(⟨j, nanoradians, nanometers⟩ : CacheKey)]? = some fine →
      cache.sets[(⟨k, nanoradians, nanometers⟩ : CacheKey)]? = some coarse →
      CellSet.Regroups (2 ^ (k - j)) fine.set.cells coarse.set.cells := by
  intro hall
  obtain ⟨cache, since, fine, coarse, hcalled, hfine, hcoarse, hcells, hcells'⟩ :=
    Called.exists_boundary
  have h := hall cache since 0 1 0 1000000000 fine coarse hcalled (by decide) (by decide) hfine
    hcoarse
  -- the lower row weighs one, and nothing of the upper one lies in it
  have := h.weight ⟨0, -1⟩
  rw [hcells, hcells'] at this
  exact absurd this (by decide)

theorem Called.levels_agree_iff_boundary : ∃ (cache : ScanCache ℝ) (since : List (Query ℝ ℝ))
    (fine coarse : SharedSet), Called boundaryScan true cache since ∧ 0 < 1 ∧ 1 ≤ 30 ∧
      cache.sets[(⟨0, 0, 1000000000⟩ : CacheKey)]? = some fine ∧
      cache.sets[(⟨1, 0, 1000000000⟩ : CacheKey)]? = some coarse ∧
      ∃ q q' : Query ℝ ℝ, Query.first? ⟨0, 0, 1000000000⟩ since = some q ∧
        Query.first? ⟨1, 0, 1000000000⟩ since = some q' ∧
        (CellSet.Regroups (2 ^ (1 - 0)) fine.set.cells coarse.set.cells ↔
          ((q'.pixels boundaryScan).map (Cell.coarsen (2 ^ 1))).Perm
            ((q.pixels boundaryScan).map (Cell.coarsen (2 ^ 1)))) ∧
        ((widen q.metersPerPixel : ℝ) = widen q'.metersPerPixel → q.rotation = q'.rotation →
          CellSet.Regroups (2 ^ (1 - 0)) fine.set.cells coarse.set.cells) := by
  obtain ⟨cache, since, fine, coarse, hcalled, hfine, hcoarse, -, -⟩ := Called.exists_boundary
  exact ⟨cache, since, fine, coarse, hcalled, by decide, by decide, hfine, hcoarse,
    hcalled.levels_agree_iff (by decide) (by decide) hfine hcoarse⟩

end ScanCache

end

end ScanMatch
