import ScanMatch.Proofs.Ascent
import ScanMatch.Proofs.Conditioning
import ScanMatch.Proofs.Wrapping

/-! # Scores of reported poses

A search scores a translation by whole pixels, a climb scores a pose in meters. In exact arithmetic
the pose that a translation reports gets the score of the translation, as long as the pixels under
the scan can be represented. From there a climb never descends.
-/
namespace ScanMatch

/-- Both indices are signed 32-bit numbers. -/
structure Cell.Representable (c : Cell) : Prop where
  x : -2147483648 ≤ c.x ∧ c.x ≤ 2147483647
  y : -2147483648 ≤ c.y ∧ c.y ≤ 2147483647

/-- The pixel of a point turned by `theta`, however far away. -/
noncomputable def Point.pixel {S : Type} [Precision S ℝ] (p : Point S) (m theta : ℝ) : Cell :=
  ⟨⌊(Real.cos theta * widen p.x - Real.sin theta * widen p.y) / m⌋,
    ⌊(Real.sin theta * widen p.x + Real.cos theta * widen p.y) / m⌋⟩

theorem Cell.ofPoint_eq {S : Type} [Precision S ℝ] {p : Point S} {m theta : ℝ}
    (h : (p.pixel m theta).Representable) :
    Cell.ofPoint (Scalar.sin theta) (Scalar.cos theta) m p = p.pixel m theta := by
  have hx := Exact.toInt32_floor h.x
  have hy := Exact.toInt32_floor h.y
  exact congrArg₂ Cell.mk hx hy

section

variable {S : Type} [Precision S ℝ]

namespace PoseScorer

/-- The score under a point of the scan at a pose. -/
noncomputable def read (s : PoseScorer S ℝ) (pose : Pose ℝ) (p : Point S) : ℕ :=
  s.lookup (widen p.x * Real.cos pose.theta - widen p.y * Real.sin pose.theta + pose.x)
    (widen p.x * Real.sin pose.theta + widen p.y * Real.cos pose.theta + pose.y)

theorem evaluate_score (s : PoseScorer S ℝ) (pose : Pose ℝ) :
    (s.evaluate pose).score =
      s.scale * ((s.points.toList.map fun p => (s.read pose p : ℤ)).sum : ℤ) -
        (s.evaluate pose).penalty := by
  have hsum : (s.points.toList.map fun p => (s.read pose p : ℤ)).sum =
      (s.points.foldl (fun sum p => sum + s.read pose p) 0 : ℕ) := by
    rw [← Array.foldl_toList, ← List.foldl_map, ← List.sum_eq_foldl, Nat.cast_list_sum,
      List.map_map]
    rfl
  rw [hsum]
  rfl

end PoseScorer

theorem Prior.penalty_normalized (prior : Prior ℝ) (pose : Pose ℝ) :
    prior.penalty pose.normalized = prior.penalty pose := by
  simp only [penalty, Pose.normalized, Angle.normalize_normalize_sub]

namespace Registration

variable {r : Registration S ℝ} {points : Array (Point S)} {theta : ℝ} {g : Grid} {x y : ℤ}

/-- All pixels under the turned scan can be represented. -/
def PixelsFit (r : Registration S ℝ) (points : Array (Point S)) (theta : ℝ) : Prop :=
  ∀ p ∈ points, (p.pixel r.resolution theta).Representable

/-- The pixels under the turned and moved scan do not run off the right or lower end of the indices
of a grid. -/
def Reaches (r : Registration S ℝ) (points : Array (Point S)) (theta : ℝ) (g : Grid) (x y : ℤ) :
    Prop :=
  ∀ c ∈ scanPixels points r.pyramid.metersPerPixel theta,
    c.x + x - g.x0 ≤ 2147483647 ∧ c.y + y - g.y0 ≤ 2147483647

theorem scanPixels_eq (h : r.PixelsFit points theta) :
    scanPixels points r.pyramid.metersPerPixel theta =
      points.toList.map fun p => p.pixel r.resolution theta := by
  apply List.map_congr_left
  intro p hp
  exact Cell.ofPoint_eq (h p (Array.mem_def.mpr hp))

/-- What poses are scored with that this registration reports. -/
def scorer (r : Registration S ℝ) (points : Array (Point S)) (g : Grid) : PoseScorer S ℝ :=
  ⟨points, g, r.resolution, r.request.scale, r.request.prior⟩

theorem ofPyramid_eq_ok (points : Array (Point S)) (hg : r.pyramid.levels[0]? = some g) :
    PoseScorer.ofPyramid points r.pyramid r.request.scale r.request.prior =
      .ok (r.scorer points g) := by
  rw [PoseScorer.ofPyramid, Pyramid.level_eq_ok hg]
  rfl

/-- Under a point at a reported pose lies the pixel that the translation moves its pixel to. -/
theorem read_reported (hm : 0 < r.resolution) (theta : ℝ) (p : Point S)
    (hx : (p.pixel r.resolution theta).x + x - g.x0 ≤ 2147483647)
    (hy : (p.pixel r.resolution theta).y + y - g.y0 ≤ 2147483647) :
    (r.scorer points g).read (r.reportedPose theta x y).normalized p = (g.pixel
      ((p.pixel r.resolution theta).x + x) ((p.pixel r.resolution theta).y + y)).toNat := by
  have hlookup := PoseScorer.lookup_eq (s := r.scorer points g) hm
    (Real.cos theta * widen p.x - Real.sin theta * widen p.y)
    (Real.sin theta * widen p.x + Real.cos theta * widen p.y) x y hx hy
  rw [reportedPose_eq, PoseScorer.read]
  simp only [Pose.normalized, Angle.sin_normalize, Angle.cos_normalize]
  rw [mul_comm _ (Real.cos theta), mul_comm _ (Real.sin theta), mul_comm _ (Real.sin theta),
    mul_comm _ (Real.cos theta)]
  exact hlookup

theorem evaluate_reported (hg : r.pyramid.levels[0]? = some g) (hm : 0 < r.resolution)
    (hprior : ∀ prior, r.request.prior = some prior →
      prior.information.PosSemidef ∧ prior.information.block.WellConditioned)
    (hfit : r.PixelsFit points theta) (hreach : r.Reaches points theta g x y) :
    ((r.scorer points g).evaluate (r.reportedPose theta x y).normalized).score =
      r.finalScore points theta x y := by
  have hpenalty : ((r.scorer points g).evaluate
      (r.reportedPose theta x y).normalized).penalty = r.poseCharge theta x y := by
    simp only [PoseScorer.evaluate, scorer]
    cases hp : r.request.prior with
    | none => simp only [poseCharge, hp, Exact.zero_eq]
    | some prior =>
      obtain ⟨hpsd, hw⟩ := hprior prior hp
      rw [poseCharge_eq hp hpsd hw, ← prior.penalty_normalized]
  rw [PoseScorer.evaluate_score, hpenalty, finalScore]
  have hpixels := scanPixels_eq hfit
  congr 2
  rw [correlation, hpixels, List.map_map]
  congr 2
  apply List.map_congr_left
  intro p hp
  obtain ⟨hx, hy⟩ := hreach (p.pixel r.resolution theta)
    (by rw [hpixels]; exact List.mem_map_of_mem hp)
  simp only [Function.comp_apply, Pyramid.pixel, hg, read_reported hm theta p hx hy]

end Registration

/-- No sweep loses score, whatever the parameters. -/
theorem PoseScorer.le_climb (scorer : PoseScorer S ℝ) (seed : Pose ℝ) (params : ClimbParams ℝ) :
    (scorer.evaluate seed.normalized).score ≤ (scorer.climb seed params).score := by
  rw [PoseScorer.climb_best]
  exact PoseScorer.reached_le (n := 0) le_rfl (Nat.zero_le _)

theorem PoseScorer.climb_eq (scorer : PoseScorer S ℝ) (seed : Pose ℝ) {params : ClimbParams ℝ}
    (h : params.maxIterations = 0) :
    (scorer.climb seed params).score = (scorer.evaluate seed.normalized).score := by
  unfold climb
  rw [h]
  rfl

end

end ScanMatch
