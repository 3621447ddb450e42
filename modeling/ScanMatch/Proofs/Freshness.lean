import ScanMatch.Proofs.Bounds

/-! # Verdicts without memory

What a cache remembers changes no verdict, as long as it is faithful to the queries made. The
verdicts on the quarters of a block are then those that a blank cache gives to each of them.
-/
namespace ScanMatch

variable {S R : Type} [Scalar R] [Precision S R]

namespace ScanCache

/-- The scan alone, as if it had never been asked anything. -/
def blank (cache : ScanCache S) : ScanCache S := ofPoints cache.points cache.merge

theorem blank_faithful (cache : ScanCache S) (metersPerPixel : S) (theta : R) (level : Nat) :
    cache.blank.Faithful metersPerPixel theta level := faithful_of_empty rfl _ _ _

theorem blank_get {cache cache' : ScanCache S} {metersPerPixel : S} {theta : R} {level : Nat}
    {shared : SharedSet} (h : cache.get metersPerPixel theta level = .ok (shared, cache')) :
    cache'.blank = cache.blank := by
  obtain ⟨hpoints, hmerge⟩ := get_points h
  rw [blank, blank, hpoints, hmerge]

end ScanCache

namespace Registration

variable {r : Registration S R} {cache cache' : ScanCache S} {rotation level : Nat}

/-- The cache is faithful to all that blocks of a level at a rotation ask it. -/
def Trusts (r : Registration S R) (cache : ScanCache S) (rotation level : Nat) : Prop :=
  ∀ theta, r.rotations[rotation]? = some theta →
    cache.Faithful r.pyramid.metersPerPixel theta level

/-- The raw score of a block, with the set of cells in place of the cache. -/
theorem correlate_map (r : Registration S R) (cache : ScanCache S) (rotation level : Nat)
    (x y : Int) : (r.correlate cache rotation level x y).map Prod.fst = (do
      let grid ← r.pyramid.level level
      let theta ← r.rotation rotation
      let set ← (cache.get r.pyramid.metersPerPixel theta level).map fun out => out.1.set
      let d ← Checked.cellSide level
      let offX ← Checked.int32 (x - grid.x0.tdiv d)
      let offY ← Checked.int32 (y - grid.y0.tdiv d)
      weightedSum grid offX offY set.cells) := by
  unfold correlate
  simp only [Checked.map_bind, Checked.bind_map]
  refine bind_congr fun grid => bind_congr fun theta => bind_congr fun out => ?_
  refine bind_congr fun d => bind_congr fun offX => bind_congr fun offY => ?_
  cases weightedSum grid offX offY out.1.set.cells <;> rfl

theorem correlate_blank (hc : r.Trusts cache rotation level) (x y : Int) :
    (r.correlate cache rotation level x y).map Prod.fst =
      (r.correlate cache.blank rotation level x y).map Prod.fst := by
  rw [correlate_map, correlate_map]
  refine bind_congr fun grid => ?_
  cases htheta : r.rotation rotation with
  | error f => rfl
  | ok theta =>
    have hset := (hc theta (rotation_cases htheta)).get_eq
    have hset' := (cache.blank_faithful r.pyramid.metersPerPixel theta level).get_eq
    simp only [bind, Except.bind, hset, hset']
    rfl

/-- The verdict on a block, with its raw score in place of the cache. -/
theorem judge_map (r : Registration S R) (cache : ScanCache S) (whole : Bound R)
    (rotation level : Nat) (x y : Int) :
    (r.judge cache whole rotation level x y).map Prod.fst = (do
      let d ← Checked.cellSide level
      if !(← Block.meets y d r.request.ty0 r.request.ty1) then return .outside
      if !(← Block.meets x d r.request.tx0 r.request.tx1) then return .outside
      let raw ← (r.correlate cache rotation level x y).map Prod.fst
      let score := Arith.ofInt raw * r.request.scale
      let below :=
        match r.request.minScore with
        | some least => decide (score < least)
        | none => false
      if below then return .dropped
      let score := score - (← r.minPenalty rotation level x y)
      let excess ← boundExcess whole score
      return .kept score excess) := by
  unfold judge
  simp only [Checked.map_bind, Checked.bind_map, apply_ite (Except.map Prod.fst)]
  rfl

theorem judge_blank (hc : r.Trusts cache rotation level) (whole : Bound R) (x y : Int) :
    (r.judge cache whole rotation level x y).map Prod.fst =
      (r.judge cache.blank whole rotation level x y).map Prod.fst := by
  rw [judge_map, judge_map, correlate_blank hc]

theorem Judged.blank {whole : Bound R} {x y : Int} {verdict : Verdict R}
    (h : r.Judged cache whole rotation level x y verdict cache') : cache'.blank = cache.blank := by
  rcases h.cache_cases with rfl | ⟨theta, shared, -, hget⟩
  · rfl
  · exact ScanCache.blank_get hget

/-- The verdicts that a cache gives on the quarters of a block, each as the first one. -/
def verdicts (r : Registration S R) (cache : ScanCache S) (whole : Block R) (level : Nat) :
    List (Int × Int) → Checked (List (Block R × Verdict R))
  | [] => return []
  | (dx, dy) :: quarters => do
    let x ← Checked.int32 (2 * whole.x)
    let x ← Checked.int32 (x + dx)
    let y ← Checked.int32 (2 * whole.y)
    let y ← Checked.int32 (y + dy)
    let verdict ← (r.judge cache whole.bound whole.rotation level x y).map Prod.fst
    let rest ← verdicts r cache whole level quarters
    return ({ whole with level, x, y }, verdict) :: rest

/-- The quarters get the verdicts of a blank cache, though each is judged after the others. -/
theorem judgeAll_map {whole : Block R} (quarters : List (Int × Int)) :
    ∀ {cache : ScanCache S}, r.Trusts cache whole.rotation level →
      (r.judgeAll whole level quarters cache).map Prod.fst =
        r.verdicts cache.blank whole level quarters := by
  induction quarters with
  | nil =>
    intro cache _
    rfl
  | cons q quarters ih =>
    intro cache hc
    rw [judgeAll, verdicts]
    simp only [Checked.map_bind]
    refine bind_congr fun x₀ => bind_congr fun x => bind_congr fun y₀ => bind_congr fun y => ?_
    rw [← judge_blank hc]
    cases hjudge : r.judge cache whole.bound whole.rotation level x y with
    | error f => rfl
    | ok out =>
      -- the next quarter meets a cache that was asked for this rotation only
      have hjudged := judge_cases hjudge
      have ih := ih (fun theta htheta => hjudged.faithful htheta (hc theta htheta))
      rw [hjudged.blank] at ih
      change (r.judgeAll whole level quarters out.2 >>= _) =
        r.verdicts cache.blank whole level quarters >>= _
      rw [← ih, Checked.bind_map]
      rfl

end Registration

end ScanMatch
