import ScanMatch.Proofs.Rotations
import ScanMatch.Config.MatchConfig

/-! # Windows around an estimate

Around each pose of a metric window lies a pose that the request for the window searches: half a
pixel away at most on each axis, and less than one step below in rotation. -/
namespace ScanMatch

namespace SearchSection

/-- Half-widths that are not negative, and a step that makes at most 2^32 rotations of them. -/
structure Sampled (windows : SearchSection ℝ) : Prop where
  translationWindow : 0 ≤ windows.translationWindow
  rotationWindow : 0 ≤ windows.rotationWindow
  rotationStep : 0 < windows.rotationStep
  rotations : 2 * windows.rotationWindow / windows.rotationStep ≤ 2 ^ 32

/-- The window around a coordinate has signed 32-bit numbers as bounds in pixels. -/
def PixelsFit (windows : SearchSection ℝ) (resolution c : ℝ) : Prop :=
  -2147483648 ≤ ⌊(c - windows.translationWindow) / resolution⌋ ∧
    ⌈(c + windows.translationWindow) / resolution⌉ ≤ 2147483647

/-- Pixel bounds that hold for each coordinate of a metric window one whose reported position is
within half a pixel, and that end less than a pixel outside of the window. -/
structure Frames (lo hi : ℤ) (resolution first last : ℝ) : Prop where
  ordered : lo ≤ hi
  covers : ∀ x, first ≤ x → x ≤ last →
    ∃ t : ℤ, lo ≤ t ∧ t ≤ hi ∧ |x - (t - 1 / 2) * resolution| ≤ resolution / 2
  first_lt : first - resolution < lo * resolution
  lt_last : hi * resolution < last + resolution

theorem frames_floor_ceil {resolution first last : ℝ} (hm : 0 < resolution) (h : first ≤ last) :
    Frames ⌊first / resolution⌋ ⌈last / resolution⌉ resolution first last := by
  have hordered : first / resolution ≤ last / resolution := by gcongr
  refine ⟨(Int.floor_mono hordered).trans (Int.floor_le_ceil _), ?_, ?_, ?_⟩
  · -- the translation by `t` is reported in the middle of the pixel that ends at `t`
    intro x hfirst hlast
    have hlow : first / resolution ≤ x / resolution := by gcongr
    have hhigh : x / resolution ≤ last / resolution := by gcongr
    refine ⟨⌈x / resolution⌉, (Int.floor_mono hlow).trans (Int.floor_le_ceil _),
      Int.ceil_mono hhigh, ?_⟩
    have hle := Int.le_ceil (x / resolution)
    have hlt := Int.ceil_lt_add_one (x / resolution)
    rw [div_le_iff₀ hm] at hle
    rw [← sub_lt_iff_lt_add, lt_div_iff₀ hm] at hlt
    rw [abs_le]
    constructor <;> linarith
  · have hlt := Int.lt_floor_add_one (first / resolution)
    rw [div_lt_iff₀ hm] at hlt
    linarith
  · have hlt := Int.ceil_lt_add_one (last / resolution)
    rw [← sub_lt_iff_lt_add, lt_div_iff₀ hm] at hlt
    linarith

variable {S : Type} [Precision S ℝ] {windows : SearchSection ℝ}

theorem frames_pixels {resolution c : ℝ} (hw : windows.Sampled) (hm : 0 < resolution)
    (hfit : windows.PixelsFit resolution c) :
    Frames (Scalar.toInt32 (Scalar.floor ((c - windows.translationWindow) / resolution)))
      (Scalar.toInt32 (Scalar.ceil ((c + windows.translationWindow) / resolution))) resolution
      (c - windows.translationWindow) (c + windows.translationWindow) := by
  have hframes := frames_floor_ceil hm (by linarith [hw.translationWindow] :
    c - windows.translationWindow ≤ c + windows.translationWindow)
  have hordered := hframes.ordered
  obtain ⟨hlow, hhigh⟩ := hfit
  have hlo := Exact.toInt32_intCast ⟨hlow, by omega⟩
  have hhi := Exact.toInt32_intCast ⟨by omega, hhigh⟩
  rw [← hlo, ← hhi] at hframes
  exact hframes

/-- Around every pose of the metric windows the request made for them searches a pose. -/
theorem requestAround_covers (hw : windows.Sampled) (estimate : Pose ℝ) (metersPerPixel : S)
    (hm : 0 < (widen metersPerPixel : ℝ))
    (hx : windows.PixelsFit (widen metersPerPixel) estimate.x)
    (hy : windows.PixelsFit (widen metersPerPixel) estimate.y) (numPoints : ℕ) :
    let m : ℝ := widen metersPerPixel
    let request := windows.requestAround estimate metersPerPixel numPoints
    request.tx0 ≤ request.tx1 ∧ request.ty0 ≤ request.ty1 ∧
    request.rotationMin ≤ request.rotationMax ∧
    ∃ rotations, request.rotations = .ok rotations ∧
      (∀ pose : Pose ℝ, |pose.x - estimate.x| ≤ windows.translationWindow →
        |pose.y - estimate.y| ≤ windows.translationWindow →
        |pose.theta - estimate.theta| ≤ windows.rotationWindow →
        ∃ tx ty : ℤ, ∃ s ∈ rotations, (request.tx0 ≤ tx ∧ tx ≤ request.tx1) ∧
          (request.ty0 ≤ ty ∧ ty ≤ request.ty1) ∧
          |pose.x - (tx - 1 / 2) * m| ≤ m / 2 ∧ |pose.y - (ty - 1 / 2) * m| ≤ m / 2 ∧
          0 ≤ pose.theta - s ∧ pose.theta - s < windows.rotationStep ∧
          (windows.rotationWindow = 0 → s = pose.theta)) ∧
      (∀ s ∈ rotations, estimate.theta - windows.rotationWindow ≤ s ∧
        s ≤ estimate.theta + windows.rotationWindow + 1e-9 * windows.rotationStep) ∧
      estimate.x - windows.translationWindow - m < request.tx0 * m ∧
      request.tx1 * m < estimate.x + windows.translationWindow + m ∧
      estimate.y - windows.translationWindow - m < request.ty0 * m ∧
      request.ty1 * m < estimate.y + windows.translationWindow + m := by
  have hframeX := frames_pixels hw hm hx
  have hframeY := frames_pixels hw hm hy
  have hcount : (estimate.theta + windows.rotationWindow -
      (estimate.theta - windows.rotationWindow)) / windows.rotationStep ≤ 2 ^ 32 := by
    rw [add_sub_sub_cancel, ← two_mul]
    exact hw.rotations
  have hturn : estimate.theta - windows.rotationWindow ≤
      estimate.theta + windows.rotationWindow := by linarith [hw.rotationWindow]
  obtain ⟨rotations, hrotations, hsamples⟩ := Request.exists_samples
    (windows.requestAround estimate metersPerPixel numPoints) hturn hw.rotationStep hcount
  dsimp only
  refine ⟨hframeX.ordered, hframeY.ordered, hturn, rotations, hrotations, ?_, hsamples.mem_range,
    hframeX.first_lt, hframeX.lt_last, hframeY.first_lt, hframeY.lt_last⟩
  intro pose hposeX hposeY hposeTheta
  rw [abs_le] at hposeX hposeY hposeTheta
  obtain ⟨tx, htx0, htx1, hnearX⟩ := hframeX.covers pose.x (by linarith) (by linarith)
  obtain ⟨ty, hty0, hty1, hnearY⟩ := hframeY.covers pose.y (by linarith) (by linarith)
  obtain ⟨s, hs, hbelow, hstep, hsingle⟩ := hsamples.covers pose.theta
    (show estimate.theta - windows.rotationWindow ≤ _ by linarith)
    (show _ ≤ estimate.theta + windows.rotationWindow by linarith)
  refine ⟨tx, ty, s, hs, ⟨htx0, htx1⟩, ⟨hty0, hty1⟩, hnearX, hnearY, hbelow, hstep, ?_⟩
  intro hzero
  apply hsingle
  change estimate.theta - windows.rotationWindow = estimate.theta + windows.rotationWindow
  rw [hzero, sub_zero, add_zero]

/-- A window of an odd number of half pixels, with a whole number of rotation steps. -/
noncomputable def oddWindows : SearchSection ℝ :=
  { translationWindow := 1, rotationWindow := 1 / 2, rotationStep := 1 / 4, minScore := 0
    scaleByPointCount := true }

/-- The last rotation of the window is still met at its last corner. -/
theorem requestAround_covers_corner :
    oddWindows.Sampled ∧ 0 < (widen (1 / 2 : ℝ) : ℝ) ∧
    oddWindows.PixelsFit (widen (1 / 2 : ℝ)) (1 / 4) ∧
    oddWindows.PixelsFit (widen (1 / 2 : ℝ)) (-1 / 4) ∧
    ∃ rotations, (oddWindows.requestAround ⟨1 / 4, -1 / 4, 1⟩ (1 / 2 : ℝ) 9).rotations =
        .ok rotations ∧
      ∃ tx ty : ℤ, ∃ s ∈ rotations,
        |(5 / 4 : ℝ) - (tx - 1 / 2) * (1 / 2)| ≤ 1 / 2 / 2 ∧
        |(-5 / 4 : ℝ) - (ty - 1 / 2) * (1 / 2)| ≤ 1 / 2 / 2 ∧
        0 ≤ 3 / 2 - s ∧ 3 / 2 - s < 1 / 4 := by
  have hsampled : oddWindows.Sampled := by
    constructor <;> norm_num [oddWindows]
  have hm : 0 < (widen (1 / 2 : ℝ) : ℝ) := one_half_pos
  have hfit (c : ℝ) (hc : |c| ≤ 1) : oddWindows.PixelsFit (widen (1 / 2 : ℝ)) c := by
    rw [abs_le] at hc
    have hwidth : oddWindows.translationWindow = 1 := rfl
    have hhalf : (widen (1 / 2 : ℝ) : ℝ) = 1 / 2 := rfl
    rw [PixelsFit, hwidth, hhalf, Int.le_floor, Int.ceil_le]
    constructor <;> push_cast <;> linarith
  have hx := hfit (1 / 4) (by norm_num [abs_le])
  have hy := hfit (-1 / 4) (by norm_num [abs_le])
  refine ⟨hsampled, hm, hx, hy, ?_⟩
  obtain ⟨-, -, -, rotations, hrotations, hcovers, -⟩ :=
    requestAround_covers hsampled ⟨1 / 4, -1 / 4, 1⟩ (1 / 2 : ℝ) hm hx hy 9
  obtain ⟨tx, ty, s, hs, -, -, hnearX, hnearY, hbelow, hstep, -⟩ :=
    hcovers ⟨5 / 4, -5 / 4, 3 / 2⟩ (by norm_num [oddWindows]) (by norm_num [oddWindows])
      (by norm_num [oddWindows])
  exact ⟨rotations, hrotations, tx, ty, s, hs, hnearX, hnearY, hbelow, hstep⟩

end SearchSection

end ScanMatch
