import ScanMatch.Proofs.Correlation
import ScanMatch.Proofs.Quadratic

/-! # Scores of blocks in exact arithmetic

The penalty of a block is the least over the rectangle of poses that it reports. So a block scores
no less than any block inside it, and a single translation scores exactly what its pose does.
-/
namespace ScanMatch

open Checked (Ensures)

/-- A symmetric matrix whose quadratic form takes no negative value. -/
structure Mat3.PosSemidef (m : Mat3 ℝ) : Prop where
  yx : m.yx = m.xy
  tx : m.tx = m.xt
  ty : m.ty = m.yt
  form_nonneg : ∀ x y t : ℝ, 0 ≤ x * (m.xx * x + m.xy * y + m.xt * t) +
    y * (m.yx * x + m.yy * y + m.yt * t) + t * (m.tx * x + m.ty * y + m.tt * t)

/-- A prior that bounds can be computed for: weak information on one coordinate is not taken for
none. -/
structure Prior.Admissible (prior : Prior ℝ) : Prop where
  information : prior.information.PosSemidef
  xx : prior.information.xx = 0 ∨ 1e-12 < prior.information.xx
  yy : prior.information.yy = 0 ∨ 1e-12 < prior.information.yy

theorem Prior.Admissible.posSemidef {prior : Prior ℝ} (h : prior.Admissible) (theta : ℝ) :
    (prior.condition theta).information.PosSemidef := by
  intro x y
  have hform := h.information.form_nonneg x y 0
  rw [h.information.yx] at hform
  rw [SymMat.quadratic_eq]
  change 0 ≤ prior.information.xx * x * x + 2 * prior.information.xy * x * y +
    prior.information.yy * y * y
  linarith

theorem Prior.Admissible.resolved {prior : Prior ℝ} (h : prior.Admissible) (theta : ℝ) :
    (prior.condition theta).information.Resolved := ⟨h.xx, h.yy⟩

namespace Registration

section

variable {S R : Type} [Scalar R]

/-- A registration computed from its request. -/
structure Formed (r : Registration S R) : Prop where
  rotations : r.request.rotations = .ok r.rotations
  priors : r.priors = r.request.prior.map fun prior => r.rotations.map prior.condition

theorem formed_of_ofRequest {cache : Nat} {pyramid : Pyramid S} {request : Request R}
    {r : Registration S R} (h : ofRequest cache pyramid request = .ok r) :
    r.Formed ∧ r.cache = cache ∧ r.pyramid = pyramid ∧ r.request = request := by
  unfold ofRequest at h
  cases hrot : request.rotations with
  | error e =>
    rw [hrot] at h
    cases h
  | ok rotations =>
    rw [hrot] at h
    cases h
    exact ⟨⟨hrot, rfl⟩, rfl, rfl, rfl⟩

end

variable {S : Type} [Precision S ℝ]

/-- The resolution of the pyramid, exactly. -/
def resolution (r : Registration S ℝ) : ℝ := widen r.pyramid.metersPerPixel

/-- The poses that a block reports, as a rectangle of translations in meters. -/
noncomputable def poses (r : Registration S ℝ) (level : Nat) (x y : Int) : Rect ℝ :=
  let (x0, x1) := reported r.resolution (Arith.ofInt (1 <<< level : Nat)) x
  let (y0, y1) := reported r.resolution (Arith.ofInt (1 <<< level : Nat)) y
  ⟨x0, x1, y0, y1⟩

theorem reported_eq (m : ℝ) (level : Nat) (b : Int) :
    reported m (Arith.ofInt (1 <<< level : Nat)) b =
      ((b * 2 ^ level - 1 / 2) * m, (b * 2 ^ level + 2 ^ level - 3 / 2) * m) := by
  simp only [reported, Nat.one_shiftLeft, Exact.ofInt_eq, Exact.ofScientific_eq, if_true]
  push_cast
  norm_num

theorem reported_ordered {m : ℝ} (hm : 0 < m) (level : Nat) (b : Int) :
    (reported m (Arith.ofInt (1 <<< level : Nat)) b).1 ≤
      (reported m (Arith.ofInt (1 <<< level : Nat)) b).2 := by
  rw [reported_eq]
  have h : (1 : ℝ) ≤ 2 ^ level := one_le_pow₀ one_le_two
  exact mul_le_mul_of_nonneg_right (by linarith) hm.le

theorem reported_nested {m : ℝ} (hm : 0 < m) {j k : Nat} (hjk : j ≤ k) (b : Int) :
    (reported m (Arith.ofInt (1 <<< k : Nat)) (b / 2 ^ (k - j))).1 ≤
        (reported m (Arith.ofInt (1 <<< j : Nat)) b).1 ∧
      (reported m (Arith.ofInt (1 <<< j : Nat)) b).2 ≤
        (reported m (Arith.ofInt (1 <<< k : Nat)) (b / 2 ^ (k - j))).2 := by
  have hpow : (2 : ℝ) ^ k = 2 ^ (k - j) * 2 ^ j := by rw [← pow_add, Nat.sub_add_cancel hjk]
  have he : (0 : Int) < 2 ^ (k - j) := by positivity
  have hlow : ((b / 2 ^ (k - j) : Int) : ℝ) * 2 ^ (k - j) ≤ b := by
    exact_mod_cast Int.ediv_mul_le b he.ne'
  have hhigh : (b : ℝ) + 1 ≤ (((b / 2 ^ (k - j) : Int) : ℝ) + 1) * 2 ^ (k - j) := by
    exact_mod_cast Int.add_one_le_of_lt (Int.lt_ediv_add_one_mul_self b he)
  have hj : (0 : ℝ) < 2 ^ j := by positivity
  have h1 := mul_le_mul_of_nonneg_right hlow hj.le
  have h2 := mul_le_mul_of_nonneg_right hhigh hj.le
  rw [reported_eq, reported_eq, hpow]
  exact ⟨mul_le_mul_of_nonneg_right (by linarith) hm.le,
    mul_le_mul_of_nonneg_right (by linarith) hm.le⟩

theorem reportedPose_eq (r : Registration S ℝ) (theta : ℝ) (x y : Int) :
    r.reportedPose theta x y = ⟨(x - 1 / 2) * r.resolution, (y - 1 / 2) * r.resolution, theta⟩ := by
  simp only [reportedPose, resolution, Exact.ofInt_eq, Exact.ofScientific_eq, if_true]
  norm_num

variable {r : Registration S ℝ}

theorem poses_ordered (hm : 0 < r.resolution) (level : Nat) (x y : Int) :
    (r.poses level x y).Ordered :=
  ⟨reported_ordered hm level x, reported_ordered hm level y⟩

theorem poses_nested (hm : 0 < r.resolution) {j k : Nat} (hjk : j ≤ k) (x y : Int) (u v : ℝ)
    (h : (r.poses j x y).Holds u v) :
    (r.poses k (x / 2 ^ (k - j)) (y / 2 ^ (k - j))).Holds u v := by
  have hx := reported_nested hm hjk x
  have hy := reported_nested hm hjk y
  exact ⟨⟨hx.1.trans h.1.1, h.1.2.trans hx.2⟩, ⟨hy.1.trans h.2.1, h.2.2.trans hy.2⟩⟩

/-- The least penalty over the poses of a block. -/
noncomputable def charge (r : Registration S ℝ) (theta : ℝ) (level : Nat) (x y : Int) : ℝ :=
  match r.request.prior with
  | none => 0
  | some prior => (prior.condition theta).minPenalty (r.poses level x y)

/-- The penalty of the pose that a translation reports, at the prior of its rotation. -/
noncomputable def poseCharge (r : Registration S ℝ) (theta : ℝ) (x y : Int) : ℝ :=
  match r.request.prior with
  | none => 0
  | some prior =>
    (prior.condition theta).penalty (r.reportedPose theta x y).x (r.reportedPose theta x y).y

theorem minPenalty_eq_ok (hr : r.Formed) (hm : 0 < r.resolution) {i : Nat} {theta : ℝ}
    (htheta : r.rotations[i]? = some theta) (level : Nat) (x y : Int) :
    r.minPenalty i level x y = .ok (r.charge theta level x y) := by
  unfold minPenalty charge
  rw [hr.priors]
  cases r.request.prior with
  | none =>
    rw [← Exact.zero_eq]
    rfl
  | some prior =>
    have hrect := Rect.ofExtents_eq_ok (r.poses_ordered hm level x y)
    unfold poses at hrect
    have hprior : (r.rotations.map prior.condition)[i]? = some (prior.condition theta) := by
      rw [Array.getElem?_map, htheta, Option.map_some]
    dsimp only [Option.map_some]
    rw [hprior]
    dsimp only at hrect ⊢
    rw [← resolution, hrect]
    rfl

/-- A block inside another is charged no less. -/
theorem charge_mono (hprior : ∀ prior, r.request.prior = some prior → prior.Admissible)
    (hm : 0 < r.resolution) (theta : ℝ) {j k : Nat} (hjk : j ≤ k) (x y : Int) :
    r.charge theta k (x / 2 ^ (k - j)) (y / 2 ^ (k - j)) ≤ r.charge theta j x y := by
  unfold charge
  cases hp : r.request.prior with
  | none => exact le_refl 0
  | some prior =>
    have had := hprior prior hp
    exact add_le_add_right (minQuadratic_mono (had.posSemidef theta) (had.resolved theta)
      (poses_ordered hm k _ _) (poses_ordered hm j x y) (poses_nested hm hjk x y)) _

/-- A single translation is charged what its pose is. -/
theorem charge_zero (hm : 0 < r.resolution) (theta : ℝ) (x y : Int) :
    r.charge theta 0 x y = r.poseCharge theta x y := by
  unfold charge poseCharge
  cases r.request.prior with
  | none => rfl
  | some prior =>
    obtain ⟨u, v, ⟨hu, hv⟩, e⟩ := minQuadratic_attained (prior.condition theta).information
      (prior.condition theta).mean (poses_ordered hm 0 x y)
    have hpoint (b : Int) {w : ℝ}
        (hlow : (reported r.resolution (Arith.ofInt (1 <<< 0 : Nat)) b).1 ≤ w)
        (hhigh : w ≤ (reported r.resolution (Arith.ofInt (1 <<< 0 : Nat)) b).2) :
        w = (b - 1 / 2) * r.resolution := by
      rw [reported_eq, pow_zero, mul_one] at hlow hhigh
      linarith
    obtain rfl := hpoint x hu.1 hu.2
    obtain rfl := hpoint y hv.1 hv.2
    rw [reportedPose_eq]
    change (prior.condition theta).rotationPenalty + minQuadratic _ _ _ = _
    rw [e]
    rfl

/-- What a block of a level scores, given the grid of the level and the pixels of the scan. -/
noncomputable def blockScore (r : Registration S ℝ) (g : Grid) (pixels : List Cell) (theta : ℝ)
    (level : Nat) (x y : Int) : ℝ :=
  rawScore g (2 ^ level) pixels x y * r.request.scale - r.charge theta level x y

/-- A block scores no more than one that holds it. -/
theorem blockScore_le {base g g' : Grid} (hscale : 0 ≤ r.request.scale)
    (hprior : ∀ prior, r.request.prior = some prior → prior.Admissible) (hm : 0 < r.resolution)
    {j k : Nat} (hjk : j ≤ k) (hg : g.Summarizes base (2 ^ j)) (hg' : g'.Summarizes base (2 ^ k))
    (pixels : List Cell) (theta : ℝ) (x y : Int) :
    r.blockScore g pixels theta j x y ≤
      r.blockScore g' pixels theta k (x / 2 ^ (k - j)) (y / 2 ^ (k - j)) := by
  have hraw : (rawScore g (2 ^ j) pixels x y : ℝ) ≤
      rawScore g' (2 ^ k) pixels (x / 2 ^ (k - j)) (y / 2 ^ (k - j)) := by
    exact_mod_cast rawScore_le hjk hg hg' pixels x y
  exact sub_le_sub (mul_le_mul_of_nonneg_right hraw hscale) (charge_mono hprior hm theta hjk x y)

end Registration

/-- The score of an absolute pixel of the finest level. -/
def Pyramid.pixel {S : Type} (p : Pyramid S) (px py : Int) : UInt8 :=
  match p.levels[0]? with
  | some g => g.pixel px py
  | none => 0

namespace Registration

/-- The scores under the turned scan once it is moved by whole pixels. -/
def correlation {S R : Type} [Scalar R] [Precision S R] (r : Registration S R)
    (points : Array (Point S)) (theta : R) (x y : Int) : Int :=
  ((scanPixels points r.pyramid.metersPerPixel theta).map fun c =>
    ((r.pyramid.pixel (c.x + x) (c.y + y)).toNat : Int)).sum

variable {S : Type} [Precision S ℝ] {r : Registration S ℝ}

/-- The score of a translation: its scaled correlation less the penalty of its pose. -/
noncomputable def finalScore (r : Registration S ℝ) (points : Array (Point S)) (theta : ℝ)
    (x y : Int) : ℝ :=
  r.request.scale * r.correlation points theta x y - r.poseCharge theta x y

theorem rawScore_zero {g : Grid} (hg : r.pyramid.levels[0]? = some g) (points : Array (Point S))
    (theta : ℝ) (x y : Int) :
    rawScore g (2 ^ 0) (scanPixels points r.pyramid.metersPerPixel theta) x y =
      r.correlation points theta x y := by
  rw [pow_zero, rawScore_one]
  simp only [correlation, Pyramid.pixel, hg]

theorem blockScore_zero (hm : 0 < r.resolution) {g : Grid} (hg : r.pyramid.levels[0]? = some g)
    (points : Array (Point S)) (theta : ℝ) (x y : Int) :
    r.blockScore g (scanPixels points r.pyramid.metersPerPixel theta) theta 0 x y =
      r.finalScore points theta x y := by
  rw [blockScore, finalScore, rawScore_zero hg, charge_zero hm, mul_comm]

end Registration

end ScanMatch
