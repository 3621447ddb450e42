import ScanMatch.Proofs.Charge
import ScanMatch.Proofs.Wrapping

/-! # Conditioning through the pseudo-inverse

In exact arithmetic the pseudo-inverse of a translation block that is singular, or whose eigenvalues
are not too far apart, solves for the coupling with the rotation. So at its own rotation the
conditioned prior charges what the full prior does.
-/
namespace ScanMatch

namespace SymMat

noncomputable section

def det (m : SymMat ℝ) : ℝ := m.xx * m.yy - m.xy * m.xy

/-- Half the distance between the eigenvalues. -/
def spread (m : SymMat ℝ) : ℝ := √(((m.xx - m.yy) / 2) ^ 2 + m.xy ^ 2)

def lesser (m : SymMat ℝ) : ℝ := (m.xx + m.yy) / 2 - m.spread

def greater (m : SymMat ℝ) : ℝ := (m.xx + m.yy) / 2 + m.spread

/-- An eigenvector for the greater eigenvalue, that of the longer of two formulas. -/
def axis (m : SymMat ℝ) : Vec2 ℝ :=
  if |m.greater - m.xx| ≤ |m.greater - m.yy| then ⟨m.greater - m.yy, m.xy⟩
  else ⟨m.xy, m.greater - m.xx⟩

end

/-- Singular, or with the smaller eigenvalue large enough not to be taken for zero. -/
def WellConditioned (m : SymMat ℝ) : Prop := m.det = 0 ∨ 1e-12 * m.greater < m.lesser

variable {m : SymMat ℝ}

theorem spread_sq (m : SymMat ℝ) : m.spread ^ 2 = ((m.xx - m.yy) / 2) ^ 2 + m.xy ^ 2 :=
  Real.sq_sqrt (by positivity)

/-- Both are eigenvalues: the roots of the characteristic polynomial. -/
theorem sub_lesser_mul_sub_greater (m : SymMat ℝ) (t : ℝ) :
    (t - m.lesser) * (t - m.greater) = (t - m.xx) * (t - m.yy) - m.xy * m.xy := by
  have h := m.spread_sq
  unfold lesser greater
  linear_combination -h

theorem lesser_mul_greater (m : SymMat ℝ) : m.lesser * m.greater = m.det := by
  have h := m.sub_lesser_mul_sub_greater 0
  unfold det
  linarith

theorem lesser_le_greater (m : SymMat ℝ) : m.lesser ≤ m.greater := by
  have h : 0 ≤ m.spread := Real.sqrt_nonneg _
  unfold lesser greater
  linarith

theorem PosSemidef.greater_nonneg (h : m.PosSemidef) : 0 ≤ m.greater := by
  have hspread : 0 ≤ m.spread := Real.sqrt_nonneg _
  have hxx := h.xx_nonneg
  have hyy := h.yy_nonneg
  unfold greater
  linarith

theorem pseudoInverse_eq (m : SymMat ℝ) : m.pseudoInverse =
    if m.greater ≤ 0 then zero
    else if 1e-12 * m.greater < m.det / m.greater then
      ⟨m.yy / m.det, -m.xy / m.det, m.xx / m.det⟩
    else if m.axis.x * m.axis.x + m.axis.y * m.axis.y ≤ 0 then zero
    else
      let k := 1 / (m.greater * (m.axis.x * m.axis.x + m.axis.y * m.axis.y))
      ⟨k * m.axis.x * m.axis.x, k * m.axis.x * m.axis.y, k * m.axis.y * m.axis.y⟩ := by
  have hgreater : ((5 : ℕ) : ℝ) / 10 ^ 1 * (m.xx + m.yy) +
      Arith.sqrt (((25 : ℕ) : ℝ) / 10 ^ 2 * (m.xx - m.yy) * (m.xx - m.yy) + m.xy * m.xy) =
        m.greater := by
    change _ + √_ = _
    unfold greater spread
    congr 1
    · push_cast
      ring
    · congr 1
      push_cast
      ring
  have htolerance : ((1 : ℕ) : ℝ) / 10 ^ 12 = 1e-12 := by norm_num
  simp only [pseudoInverse, rankTolerance, Exact.ofScientific_eq, if_true, Exact.abs_eq,
    Exact.zero_eq, Exact.one_eq, hgreater, htolerance]
  rfl

theorem pseudoInverse_of_gap (h : m.PosSemidef) (hgap : 1e-12 * m.greater < m.lesser) :
    0 < m.det ∧ m.pseudoInverse = ⟨m.yy / m.det, -m.xy / m.det, m.xx / m.det⟩ := by
  have hnonneg := h.greater_nonneg
  have hle := m.lesser_le_greater
  have hgreater : 0 < m.greater := by
    by_contra hnot
    obtain hzero : m.greater = 0 := le_antisymm (not_lt.mp hnot) hnonneg
    rw [hzero] at hgap hle
    linarith
  have hlesser : 0 < m.lesser := by linarith
  have hquotient : m.det / m.greater = m.lesser := by
    rw [← m.lesser_mul_greater, mul_div_cancel_right₀ _ hgreater.ne']
  constructor
  · rw [← m.lesser_mul_greater]
    exact mul_pos hlesser hgreater
  · rw [pseudoInverse_eq, if_neg (not_le.mpr hgreater), if_pos (by rwa [hquotient])]

theorem greater_of_det_eq_zero (h : m.PosSemidef) (hdet : m.det = 0) :
    m.greater = m.xx + m.yy := by
  have hxx := h.xx_nonneg
  have hyy := h.yy_nonneg
  have hspread : m.spread = (m.xx + m.yy) / 2 := by
    rw [spread, Real.sqrt_eq_iff_eq_sq (by positivity) (by positivity)]
    unfold det at hdet
    linear_combination -hdet
  rw [greater, hspread]
  ring

/-- A singular matrix is inverted along its axis by the square of its only eigenvalue. -/
theorem pseudoInverse_of_det_eq_zero (h : m.PosSemidef) (hdet : m.det = 0) :
    m.pseudoInverse =
      ⟨m.xx / (m.xx + m.yy) ^ 2, m.xy / (m.xx + m.yy) ^ 2, m.yy / (m.xx + m.yy) ^ 2⟩ := by
  have hxx := h.xx_nonneg
  have hyy := h.yy_nonneg
  have hgreater := greater_of_det_eq_zero h hdet
  have hsq : m.xy * m.xy = m.xx * m.yy := by
    unfold det at hdet
    linarith
  rw [pseudoInverse_eq, hdet, zero_div, axis, hgreater, add_sub_cancel_left, add_sub_cancel_right,
    abs_of_nonneg hxx, abs_of_nonneg hyy]
  by_cases hzero : m.xx + m.yy ≤ 0
  · have hxx0 : m.xx = 0 := by linarith
    have hyy0 : m.yy = 0 := by linarith
    rw [if_pos hzero, hxx0, hyy0, h.xy_eq_zero hyy0]
    simp [zero]
  have hpos : 0 < m.xx + m.yy := not_le.mp hzero
  rw [if_neg hzero, if_neg (by linarith)]
  by_cases hle : m.yy ≤ m.xx
  · have hlong : 0 < m.xx := by linarith
    simp only [if_pos hle]
    have hnorm : m.xx * m.xx + m.xy * m.xy = m.xx * (m.xx + m.yy) := by rw [hsq]; ring
    rw [hnorm, if_neg (not_le.mpr (mul_pos hlong hpos))]
    congr 1
    · field_simp
    · field_simp
    · rw [mul_assoc, hsq]
      field_simp
  · have hlong : 0 < m.yy := by linarith
    simp only [if_neg hle]
    have hnorm : m.xy * m.xy + m.yy * m.yy = m.yy * (m.xx + m.yy) := by rw [hsq]; ring
    rw [hnorm, if_neg (not_le.mpr (mul_pos hlong hpos))]
    congr 1
    · rw [mul_assoc, hsq]
      field_simp
    · field_simp
    · field_simp

end SymMat

namespace Mat3

/-- The translation block. -/
def block (m : Mat3 ℝ) : SymMat ℝ := ⟨m.xx, m.xy, m.yy⟩

variable {m : Mat3 ℝ}

theorem PosSemidef.block (h : m.PosSemidef) : m.block.PosSemidef := by
  intro x y
  have hform := h.form_nonneg x y 0
  rw [h.yx] at hform
  rw [SymMat.quadratic_eq]
  change 0 ≤ m.xx * x * x + 2 * m.xy * x * y + m.yy * y * y
  linarith

/-- A translation that costs nothing is not coupled with the rotation. -/
theorem PosSemidef.coupling_eq_zero (h : m.PosSemidef) (vx vy : ℝ)
    (hx : m.xx * vx + m.xy * vy = 0) (hy : m.xy * vx + m.yy * vy = 0) :
    m.xt * vx + m.yt * vy = 0 := by
  have hform (s : ℝ) : 0 ≤ 2 * s * (m.xt * vx + m.yt * vy) + m.tt := by
    have := h.form_nonneg (s * vx) (s * vy) 1
    rw [h.yx, h.tx, h.ty] at this
    linear_combination this + s ^ 2 * vx * hx + s ^ 2 * vy * hy
  by_contra hne
  have := hform (-(m.tt + 1) / (2 * (m.xt * vx + m.yt * vy)))
  have hcancel : 2 * (-(m.tt + 1) / (2 * (m.xt * vx + m.yt * vy))) * (m.xt * vx + m.yt * vy) =
      -(m.tt + 1) := by
    field_simp
  rw [hcancel] at this
  linarith

/-- The pseudo-inverse solves for the coupling. -/
theorem PosSemidef.solves_coupling (h : m.PosSemidef) (hw : m.block.WellConditioned) :
    let inv := m.block.pseudoInverse
    let shiftX := inv.xx * m.xt + inv.xy * m.yt
    let shiftY := inv.xy * m.xt + inv.yy * m.yt
    m.xx * shiftX + m.xy * shiftY = m.xt ∧ m.xy * shiftX + m.yy * shiftY = m.yt := by
  rcases hw with hdet | hgap
  · rw [SymMat.pseudoInverse_of_det_eq_zero h.block hdet]
    change m.xx * m.yy - m.xy * m.xy = 0 at hdet
    have h1 := h.coupling_eq_zero m.yy (-m.xy) (by linarith) (by ring)
    have h2 := h.coupling_eq_zero (-m.xy) m.xx (by ring) (by linarith)
    have hxx : 0 ≤ m.xx := h.block.xx_nonneg
    have hyy : 0 ≤ m.yy := h.block.yy_nonneg
    dsimp only [Mat3.block]
    by_cases hzero : m.xx + m.yy = 0
    · have hxx0 : m.xx = 0 := by linarith
      have hyy0 : m.yy = 0 := by linarith
      have hxy0 : m.xy = 0 := h.block.xy_eq_zero hyy0
      have h3 := h.coupling_eq_zero 1 0 (by simp [hxx0]) (by simp [hxy0])
      have h4 := h.coupling_eq_zero 0 1 (by simp [hxy0]) (by simp [hyy0])
      constructor
      · rw [hxx0, hxy0]
        linarith
      · rw [hyy0, hxy0]
        linarith
    · constructor
      · field_simp
        linear_combination -m.xt * hdet - (m.xx + m.yy) * h1
      · field_simp
        linear_combination -m.yt * hdet - (m.xx + m.yy) * h2
  · obtain ⟨hpos, hinv⟩ := SymMat.pseudoInverse_of_gap h.block hgap
    have hdet : m.xx * m.yy - m.xy * m.xy = m.block.det := rfl
    rw [hinv]
    generalize m.block.det = d at hpos hdet
    dsimp only [Mat3.block]
    constructor
    · field_simp
      linear_combination m.xt * hdet
    · field_simp
      linear_combination m.yt * hdet

end Mat3

namespace Prior

variable {prior : Prior ℝ}

theorem penalty_eq (prior : Prior ℝ) (pose : Pose ℝ) :
    let m := prior.information
    let ex := pose.x - prior.mean.x
    let ey := pose.y - prior.mean.y
    let et := Angle.normalize (pose.theta - prior.mean.theta)
    prior.penalty pose = ex * (m.xx * ex + m.xy * ey + m.xt * et) +
      ey * (m.yx * ex + m.yy * ey + m.yt * et) + et * (m.tx * ex + m.ty * ey + m.tt * et) := by
  simp only [penalty, List.foldl_cons, List.foldl_nil, Exact.zero_eq]
  ring

/-- Conditioning moves the mean by a shift for each radian that solves for the coupling. -/
theorem condition_cases (h : prior.information.PosSemidef)
    (hw : prior.information.block.WellConditioned) (theta : ℝ) : ∃ shiftX shiftY,
    let m := prior.information
    let turn := Angle.normalize (theta - prior.mean.theta)
    m.xx * shiftX + m.xy * shiftY = m.xt ∧ m.xy * shiftX + m.yy * shiftY = m.yt ∧
      prior.condition theta =
        { mean := ⟨prior.mean.x - turn * shiftX, prior.mean.y - turn * shiftY⟩
          information := m.block
          rotationPenalty := turn * (m.tt - (m.xt * shiftX + m.yt * shiftY)) * turn } := by
  obtain ⟨hx, hy⟩ := h.solves_coupling hw
  exact ⟨_, _, hx, hy, rfl⟩

/-- At its rotation the conditioned prior charges what the full prior does. -/
theorem penalty_condition (h : prior.information.PosSemidef)
    (hw : prior.information.block.WellConditioned) (pose : Pose ℝ) :
    (prior.condition pose.theta).penalty pose.x pose.y = prior.penalty pose := by
  obtain ⟨shiftX, shiftY, hx, hy, hcondition⟩ := condition_cases h hw pose.theta
  rw [hcondition, penalty_eq, h.yx, h.tx, h.ty, ConditionedPrior.penalty, SymMat.quadratic_eq]
  dsimp only [Mat3.block]
  generalize Angle.normalize (pose.theta - prior.mean.theta) = turn
  linear_combination (2 * turn * (pose.x - prior.mean.x) + turn ^ 2 * shiftX) * hx +
    (2 * turn * (pose.y - prior.mean.y) + turn ^ 2 * shiftY) * hy

/-- What is left for the rotation once the translation is best is not negative. -/
theorem rotationPenalty_nonneg (h : prior.information.PosSemidef)
    (hw : prior.information.block.WellConditioned) (theta : ℝ) :
    0 ≤ (prior.condition theta).rotationPenalty := by
  obtain ⟨shiftX, shiftY, hx, hy, hcondition⟩ := condition_cases h hw theta
  rw [hcondition]
  dsimp only
  generalize Angle.normalize (theta - prior.mean.theta) = turn
  have hform := h.form_nonneg (-turn * shiftX) (-turn * shiftY) turn
  rw [h.yx, h.tx, h.ty] at hform
  linear_combination hform + turn ^ 2 * shiftX * hx + turn ^ 2 * shiftY * hy

end Prior

end ScanMatch
