import Mathlib.LinearAlgebra.Matrix.Symmetric
import ScanMatch.Proofs.PseudoInverse

/-! # The pseudo-inverse by eigenvalues

In exact arithmetic no step of the pseudo-inverse divides by zero. It inverts a matrix along both
eigenvectors, except that a lesser eigenvalue that counts as zero stays zero.
-/
namespace ScanMatch

open Matrix

/-- The conditions of Moore and Penrose, which at most one matrix meets. -/
structure IsPseudoInverse (a p : Matrix (Fin 2) (Fin 2) ℝ) : Prop where
  mul_inverse_mul : a * p * a = a
  inverse_mul_inverse : p * a * p = p
  mul_inverse_symm : (a * p).IsSymm
  inverse_mul_symm : (p * a).IsSymm

section

variable {v u : Fin 2 → ℝ}

/-- Sums of products of orthonormal vectors multiply factor by factor. -/
theorem sum_vecMulVec_mul (hv : v ⬝ᵥ v = 1) (hu : u ⬝ᵥ u = 1) (hvu : v ⬝ᵥ u = 0) (a b c d : ℝ) :
    (a • vecMulVec v v + b • vecMulVec u u) * (c • vecMulVec v v + d • vecMulVec u u) =
      (a * c) • vecMulVec v v + (b * d) • vecMulVec u u := by
  have huv : u ⬝ᵥ v = 0 := (dotProduct_comm u v).trans hvu
  simp only [add_mul, mul_add, smul_mul_smul_comm, vecMulVec_mul_vecMulVec, hv, hu, hvu, huv,
    one_smul, zero_smul, vecMulVec_zero, smul_zero, add_zero, zero_add]

/-- Along orthonormal vectors each factor is inverted by itself, and zero stays zero. -/
theorem isPseudoInverse_sum (hv : v ⬝ᵥ v = 1) (hu : u ⬝ᵥ u = 1) (hvu : v ⬝ᵥ u = 0) (a b : ℝ) :
    IsPseudoInverse (a • vecMulVec v v + b • vecMulVec u u)
      (a⁻¹ • vecMulVec v v + b⁻¹ • vecMulVec u u) := by
  have hmul := sum_vecMulVec_mul hv hu hvu
  have hinv (c : ℝ) : c⁻¹ * c * c⁻¹ = c⁻¹ := by simpa using mul_inv_mul_cancel c⁻¹
  have hsymm (c d : ℝ) : (c • vecMulVec v v + d • vecMulVec u u).IsSymm := by
    rw [IsSymm, transpose_add, transpose_smul, transpose_smul, transpose_vecMulVec,
      transpose_vecMulVec]
  constructor
  · rw [hmul, hmul, mul_inv_mul_cancel, mul_inv_mul_cancel]
  · rw [hmul, hmul, hinv, hinv]
  · rw [hmul]
    exact hsymm _ _
  · rw [hmul]
    exact hsymm _ _

end

namespace SymMat

def toMatrix (m : SymMat ℝ) : Matrix (Fin 2) (Fin 2) ℝ := !![m.xx, m.xy; m.xy, m.yy]

/-- A sum of two symmetric products, entry by entry. -/
theorem toMatrix_eq_iff (m : SymMat ℝ) (a b : ℝ) (v u : Fin 2 → ℝ) :
    m.toMatrix = a • vecMulVec v v + b • vecMulVec u u ↔
      m.xx = a * v 0 ^ 2 + b * u 0 ^ 2 ∧ m.xy = a * (v 0 * v 1) + b * (u 0 * u 1) ∧
        m.yy = a * v 1 ^ 2 + b * u 1 ^ 2 := by
  rw [← Matrix.ext_iff]
  simp only [Fin.forall_fin_two, toMatrix, Matrix.add_apply, Matrix.smul_apply, vecMulVec_apply,
    smul_eq_mul, of_apply, cons_val', cons_val_zero, cons_val_one, cons_val_fin_one, sq]
  constructor
  · rintro ⟨⟨hxx, hxy⟩, -, hyy⟩
    exact ⟨hxx, hxy, hyy⟩
  · rintro ⟨hxx, hxy, hyy⟩
    exact ⟨⟨hxx, hxy⟩, by rw [hxy, mul_comm (v 0), mul_comm (u 0)], hyy⟩

theorem posSemidef_of_sum {m : SymMat ℝ} {a b : ℝ} {v u : Fin 2 → ℝ}
    (h : m.toMatrix = a • vecMulVec v v + b • vecMulVec u u) (ha : 0 ≤ a) (hb : 0 ≤ b) :
    m.PosSemidef := by
  obtain ⟨hxx, hxy, hyy⟩ := (toMatrix_eq_iff ..).mp h
  intro x y
  have hsquares : m.quadratic x y =
      a * (v 0 * x + v 1 * y) ^ 2 + b * (u 0 * x + u 1 * y) ^ 2 := by
    rw [quadratic_eq, hxx, hxy, hyy]
    ring
  rw [hsquares]
  positivity

/-- The eigenvalues of a matrix, the lesser one first, and orthonormal eigenvectors for them. -/
structure Spectrum (m : SymMat ℝ) (low high : ℝ) (v u : Fin 2 → ℝ) : Prop where
  le : low ≤ high
  unit_low : v ⬝ᵥ v = 1
  unit_high : u ⬝ᵥ u = 1
  orthogonal : v ⬝ᵥ u = 0
  sum : m.toMatrix = low • vecMulVec v v + high • vecMulVec u u

/-- Every matrix has a spectrum. Its part without trace turns vectors by twice the angle of an
eigenvector. -/
theorem exists_spectrum (m : SymMat ℝ) : ∃ v u, m.Spectrum m.lesser m.greater v u := by
  let z : ℂ := ⟨(m.xx - m.yy) / 2, m.xy⟩
  let phi := z.arg / 2
  have hnorm : ‖z‖ = m.spread := by
    rw [Complex.norm_def, Complex.normSq_apply, spread]
    congr 1
    ring
  have hdouble : 2 * phi = z.arg := mul_div_cancel₀ _ two_ne_zero
  have hcos : m.spread * Real.cos (2 * phi) = (m.xx - m.yy) / 2 := by
    rw [← hnorm, hdouble]
    exact Complex.norm_mul_cos_arg z
  have hsin : m.spread * Real.sin (2 * phi) = m.xy := by
    rw [← hnorm, hdouble]
    exact Complex.norm_mul_sin_arg z
  rw [Real.cos_two_mul'] at hcos
  rw [Real.sin_two_mul] at hsin
  have hunit := Real.sin_sq_add_cos_sq phi
  refine ⟨![-Real.sin phi, Real.cos phi], ![Real.cos phi, Real.sin phi],
    m.lesser_le_greater, ?_, ?_, ?_, (toMatrix_eq_iff ..).mpr ⟨?_, ?_, ?_⟩⟩
  all_goals simp only [vec2_dotProduct, cons_val_zero, cons_val_one, lesser, greater]
  · linear_combination hunit
  · linear_combination hunit
  · ring
  · linear_combination -hcos - (m.xx + m.yy) / 2 * hunit
  · linear_combination -hsin
  · linear_combination hcos - (m.xx + m.yy) / 2 * hunit

variable {m : SymMat ℝ} {low high : ℝ} {v u : Fin 2 → ℝ}

namespace Spectrum

theorem coordinates (h : m.Spectrum low high v u) :
    v 0 * v 0 + v 1 * v 1 = 1 ∧ u 0 * u 0 + u 1 * u 1 = 1 ∧ v 0 * u 0 + v 1 * u 1 = 0 :=
  ⟨(vec2_dotProduct v v).symm.trans h.unit_low, (vec2_dotProduct u u).symm.trans h.unit_high,
    (vec2_dotProduct v u).symm.trans h.orthogonal⟩

/-- In the plane one unit vector determines the other, but for its sign. -/
theorem complement (h : m.Spectrum low high v u) :
    v 0 ^ 2 = u 1 ^ 2 ∧ v 1 ^ 2 = u 0 ^ 2 ∧ v 0 * v 1 = -(u 0 * u 1) := by
  obtain ⟨hv, hu, hvu⟩ := h.coordinates
  refine ⟨?_, ?_, ?_⟩
  · linear_combination (v 0 * u 0 - v 1 * u 1) * hvu - v 0 ^ 2 * hu + u 1 ^ 2 * hv
  · linear_combination (v 1 * u 1 - v 0 * u 0) * hvu - v 1 ^ 2 * hu + u 0 ^ 2 * hv
  · linear_combination (v 0 * u 1 + v 1 * u 0) * hvu - v 0 * v 1 * hu - u 0 * u 1 * hv

/-- The lesser eigenvalue, and what the greater one adds to it along its eigenvector. -/
theorem entries (h : m.Spectrum low high v u) :
    m.xx = low + (high - low) * u 0 ^ 2 ∧ m.xy = (high - low) * (u 0 * u 1) ∧
      m.yy = low + (high - low) * u 1 ^ 2 := by
  obtain ⟨hv0, hv1, hv01⟩ := h.complement
  obtain ⟨-, hu, -⟩ := h.coordinates
  obtain ⟨hxx, hxy, hyy⟩ := (toMatrix_eq_iff ..).mp h.sum
  rw [hxx, hxy, hyy, hv0, hv1, hv01]
  refine ⟨?_, ?_, ?_⟩
  · linear_combination low * hu
  · ring
  · linear_combination low * hu

theorem eigenvalues (h : m.Spectrum low high v u) : m.lesser = low ∧ m.greater = high := by
  obtain ⟨hxx, hxy, hyy⟩ := h.entries
  obtain ⟨-, hu, -⟩ := h.coordinates
  have htrace : m.xx + m.yy = low + high := by
    rw [hxx, hyy]
    linear_combination (high - low) * hu
  have hnonneg : 0 ≤ (high - low) / 2 := by linarith [h.le]
  have hspread : m.spread = (high - low) / 2 := by
    rw [spread, Real.sqrt_eq_iff_eq_sq (by positivity) hnonneg, hxx, hxy, hyy]
    linear_combination ((high - low) / 2) ^ 2 * (1 + u 0 * u 0 + u 1 * u 1) * hu
  rw [lesser, greater, hspread, htrace]
  constructor <;> ring

theorem det_eq (h : m.Spectrum low high v u) : m.det = low * high := by
  obtain ⟨hlow, hhigh⟩ := h.eigenvalues
  rw [← lesser_mul_greater, hlow, hhigh]

theorem low_nonneg (h : m.Spectrum low high v u) (hm : m.PosSemidef) : 0 ≤ low := by
  obtain ⟨hxx, hxy, hyy⟩ := h.entries
  obtain ⟨-, hu, -⟩ := h.coordinates
  -- the quadratic takes this value at the eigenvector
  have hvalue : m.quadratic (-u 1) (u 0) = low := by
    rw [quadratic_eq, hxx, hxy, hyy]
    linear_combination low * hu
  rw [← hvalue]
  exact hm _ _

/-- The vector that a matrix is inverted along points along an eigenvector. -/
theorem exists_axis (h : m.Spectrum low high v u) (hlt : low < high) :
    ∃ s ≠ 0, m.axis = ⟨s * u 0, s * u 1⟩ := by
  obtain ⟨hxx, hxy, hyy⟩ := h.entries
  obtain ⟨-, hu, -⟩ := h.coordinates
  have hgap : 0 < high - low := by linarith
  have hx : high - m.xx = (high - low) * u 1 ^ 2 := by
    rw [hxx]
    linear_combination -(high - low) * hu
  have hy : high - m.yy = (high - low) * u 0 ^ 2 := by
    rw [hyy]
    linear_combination -(high - low) * hu
  rw [axis, h.eigenvalues.2, hx, hy, hxy, abs_of_nonneg (by positivity),
    abs_of_nonneg (by positivity)]
  by_cases hle : (high - low) * u 1 ^ 2 ≤ (high - low) * u 0 ^ 2
  · have hne : u 0 ≠ 0 := by
      intro hzero
      have hle := le_of_mul_le_mul_left hle hgap
      rw [hzero] at hle hu
      linarith
    refine ⟨(high - low) * u 0, mul_ne_zero hgap.ne' hne, ?_⟩
    rw [if_pos hle]
    congr 1 <;> ring
  · have hne : u 1 ≠ 0 := by
      intro hzero
      apply hle
      rw [hzero, zero_pow two_ne_zero, mul_zero]
      positivity
    refine ⟨(high - low) * u 1, mul_ne_zero hgap.ne' hne, ?_⟩
    rw [if_neg hle]
    congr 1 <;> ring

/-- A matrix whose eigenvalues both count is inverted along both eigenvectors. -/
theorem pseudoInverse_of_gap (h : m.Spectrum low high v u) (hm : m.PosSemidef)
    (hgap : 1e-12 * high < low) :
    m.pseudoInverse.toMatrix = low⁻¹ • vecMulVec v v + high⁻¹ • vecMulVec u u := by
  obtain ⟨hlow, hhigh⟩ := h.eigenvalues
  obtain ⟨hv0, hv1, hv01⟩ := h.complement
  obtain ⟨hxx, hxy, hyy⟩ := (toMatrix_eq_iff ..).mp h.sum
  obtain ⟨hdet, hinv⟩ := SymMat.pseudoInverse_of_gap hm (by rwa [hlow, hhigh])
  rw [h.det_eq] at hdet hinv
  have hlow' : low ≠ 0 := left_ne_zero_of_mul hdet.ne'
  have hhigh' : high ≠ 0 := right_ne_zero_of_mul hdet.ne'
  rw [toMatrix_eq_iff, hinv, hxx, hxy, hyy]
  refine ⟨?_, ?_, ?_⟩
  · field_simp
    linear_combination low * hv1 - high * hv0
  · field_simp
    linear_combination (-low - high) * hv01
  · field_simp
    linear_combination low * hv0 - high * hv1

/-- A matrix whose lesser eigenvalue counts as zero is inverted along one eigenvector. -/
theorem pseudoInverse_of_weak (h : m.Spectrum low high v u) (hm : m.PosSemidef)
    (hweak : low ≤ 1e-12 * high) :
    m.pseudoInverse.toMatrix = (0 : ℝ)⁻¹ • vecMulVec v v + high⁻¹ • vecMulVec u u := by
  obtain ⟨-, hhigh⟩ := h.eigenvalues
  have hnonneg := h.low_nonneg hm
  rw [toMatrix_eq_iff, pseudoInverse_eq, hhigh, h.det_eq]
  by_cases hzero : high ≤ 0
  · have hhigh0 : high = 0 := le_antisymm hzero (hnonneg.trans h.le)
    simp [hhigh0, zero]
  have hpos : 0 < high := not_le.mp hzero
  obtain ⟨s, hs, haxis⟩ := h.exists_axis (by linarith)
  obtain ⟨-, hu, -⟩ := h.coordinates
  have hnorm : s * u 0 * (s * u 0) + s * u 1 * (s * u 1) = s ^ 2 := by
    linear_combination s ^ 2 * hu
  rw [if_neg hzero, mul_div_cancel_right₀ _ hpos.ne', if_neg hweak.not_gt, haxis]
  simp only [hnorm, if_neg (not_le.mpr (sq_pos_of_ne_zero hs))]
  refine ⟨?_, ?_, ?_⟩ <;> field_simp <;> ring

end Spectrum

/-! ### Divisions -/

/-- The quotient, unless the divisor is zero. -/
noncomputable def divide? (a b : ℝ) : Option ℝ := if b = 0 then none else some (a / b)

theorem divide?_of_ne_zero (a : ℝ) {b : ℝ} (h : b ≠ 0) : divide? a b = some (a / b) := if_neg h

/-- The steps of the pseudo-inverse, without an answer where one of them divides by zero. -/
noncomputable def pseudoInverse? (m : SymMat ℝ) : Option (SymMat ℝ) := do
  if m.greater ≤ 0 then return zero
  let smaller ← divide? m.det m.greater
  if 1e-12 * m.greater < smaller then
    return ⟨← divide? m.yy m.det, ← divide? (-m.xy) m.det, ← divide? m.xx m.det⟩
  let norm2 := m.axis.x * m.axis.x + m.axis.y * m.axis.y
  if norm2 ≤ 0 then return zero
  let k ← divide? 1 (m.greater * norm2)
  return ⟨k * m.axis.x * m.axis.x, k * m.axis.x * m.axis.y, k * m.axis.y * m.axis.y⟩

/-- No divisor is zero, whatever the matrix. -/
theorem pseudoInverse?_eq (m : SymMat ℝ) : m.pseudoInverse? = some m.pseudoInverse := by
  rw [pseudoInverse_eq, pseudoInverse?]
  by_cases hgreater : m.greater ≤ 0
  · simp [hgreater]
  have hpos : 0 < m.greater := not_le.mp hgreater
  simp only [if_neg hgreater, divide?_of_ne_zero m.det hpos.ne']
  by_cases hgap : 1e-12 * m.greater < m.det / m.greater
  · have hdet : m.det ≠ 0 := by
      intro h
      rw [h, zero_div] at hgap
      linarith
    simp [hgap, divide?_of_ne_zero _ hdet]
  by_cases hnorm : m.axis.x * m.axis.x + m.axis.y * m.axis.y ≤ 0
  · simp [hgap, hnorm]
  · have hproduct := mul_pos hpos (not_le.mp hnorm)
    simp [hgap, hnorm, divide?_of_ne_zero _ hproduct.ne']

/-! ### The inverse of Moore and Penrose -/

theorem PosSemidef.pseudoInverse (hm : m.PosSemidef) : m.pseudoInverse.PosSemidef := by
  obtain ⟨v, u, h⟩ := m.exists_spectrum
  have hlow := h.low_nonneg hm
  have hhigh := hlow.trans h.le
  rcases lt_or_ge (1e-12 * m.greater) m.lesser with hgap | hweak
  · exact posSemidef_of_sum (h.pseudoInverse_of_gap hm hgap) (inv_nonneg.mpr hlow)
      (inv_nonneg.mpr hhigh)
  · exact posSemidef_of_sum (h.pseudoInverse_of_weak hm hweak) (inv_nonneg.mpr le_rfl)
      (inv_nonneg.mpr hhigh)

/-- The pseudo-inverse of a matrix that is singular or has no eigenvalue that counts as zero is its
inverse in the sense of Moore and Penrose. Else it is that of the matrix with its lesser eigenvalue
replaced by zero. -/
theorem pseudoInverse_moorePenrose (hm : m.PosSemidef) :
    m.pseudoInverse? = some m.pseudoInverse ∧ m.pseudoInverse.PosSemidef ∧
    (∃ low high v u, m.Spectrum low high v u) ∧
    ∀ low high v u, m.Spectrum low high v u →
      (m.toMatrix.det = 0 ∨ 1e-12 * high < low →
        IsPseudoInverse m.toMatrix m.pseudoInverse.toMatrix) ∧
      (low ≤ 1e-12 * high → IsPseudoInverse (high • vecMulVec u u) m.pseudoInverse.toMatrix) := by
  refine ⟨m.pseudoInverse?_eq, hm.pseudoInverse, ⟨_, _, m.exists_spectrum⟩, ?_⟩
  intro low high v u h
  have hsum := isPseudoInverse_sum h.unit_low h.unit_high h.orthogonal
  have hweak (hle : low ≤ 1e-12 * high) :
      IsPseudoInverse (high • vecMulVec u u) m.pseudoInverse.toMatrix := by
    rw [h.pseudoInverse_of_weak hm hle]
    simpa only [zero_smul, zero_add] using hsum 0 high
  refine ⟨?_, hweak⟩
  rintro (hdet | hgap)
  · have hproduct : low * high = 0 := by
      rw [← h.det_eq, ← hdet, toMatrix, det_fin_two_of, det]
    have hlow : low = 0 := by
      rcases mul_eq_zero.mp hproduct with hzero | hzero
      · exact hzero
      · linarith [h.le, h.low_nonneg hm]
    rw [h.sum, hlow, zero_smul, zero_add]
    exact hweak (by linarith [h.le])
  · rw [h.sum, h.pseudoInverse_of_gap hm hgap]
    exact hsum low high

/-- A slanted matrix whose lesser eigenvalue is positive and yet counts as zero. -/
theorem pseudoInverse_moorePenrose_weak :
    let m : SymMat ℝ := ⟨9 + 16e-14, 12 - 12e-14, 16 + 9e-14⟩
    let v : Fin 2 → ℝ := ![-4 / 5, 3 / 5]
    let u : Fin 2 → ℝ := ![3 / 5, 4 / 5]
    m.PosSemidef ∧ m.Spectrum 25e-14 25 v u ∧ m.pseudoInverse? = some m.pseudoInverse ∧
      m.pseudoInverse.PosSemidef ∧
      IsPseudoInverse ((25 : ℝ) • vecMulVec u u) m.pseudoInverse.toMatrix := by
  intro m v u
  have hspectrum : m.Spectrum 25e-14 25 v u := by
    refine ⟨?_, ?_, ?_, ?_, (toMatrix_eq_iff ..).mpr ⟨?_, ?_, ?_⟩⟩ <;>
      norm_num [m, v, u, vec2_dotProduct]
  have hm : m.PosSemidef := posSemidef_of_sum hspectrum.sum (by norm_num) (by norm_num)
  obtain ⟨hdefined, hinverse, -, hmoorePenrose⟩ := pseudoInverse_moorePenrose hm
  exact ⟨hm, hspectrum, hdefined, hinverse, (hmoorePenrose _ _ _ _ hspectrum).2 (by norm_num)⟩

end SymMat

end ScanMatch
