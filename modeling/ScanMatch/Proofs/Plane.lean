import ScanMatch.Proofs.Wrapping
import ScanMatch.Refine.Alignment

/-! # The plane as complex numbers

In exact arithmetic a pose turns points by a unit complex number and then shifts them by another
one. Poses are the same rigid motion if both numbers agree, which leaves the angle open by whole
turns. -/
namespace ScanMatch

open Complex (I)
open scoped ComplexConjugate

namespace Point

def toComplex (p : Point ℝ) : ℂ := ⟨p.x, p.y⟩

theorem toComplex_injective : Function.Injective toComplex := by
  rintro ⟨x, y⟩ ⟨x', y'⟩ h
  simpa [toComplex] using h

theorem distanceSq_eq (p q : Point ℝ) :
    p.distanceSq q = Complex.normSq (p.toComplex - q.toComplex) := by
  simp [distanceSq, toComplex, Complex.normSq_apply]

theorem distanceSq_nonneg (p q : Point ℝ) : 0 ≤ p.distanceSq q := by
  rw [distanceSq_eq]
  exact Complex.normSq_nonneg _

theorem distanceSq_comm (p q : Point ℝ) : p.distanceSq q = q.distanceSq p := by
  rw [distanceSq_eq, distanceSq_eq, ← Complex.normSq_neg, neg_sub]

theorem distanceSq_eq_zero {p q : Point ℝ} : p.distanceSq q = 0 ↔ p = q := by
  rw [distanceSq_eq, Complex.normSq_eq_zero, sub_eq_zero, toComplex_injective.eq_iff]

end Point

namespace Pose

/-- The same translation, and angles that differ by whole turns. -/
structure Congruent (p q : Pose ℝ) : Prop where
  x : p.x = q.x
  y : p.y = q.y
  theta : ∃ k : ℤ, p.theta = q.theta + k * (2 * Real.pi)

def shift (p : Pose ℝ) : ℂ := ⟨p.x, p.y⟩

noncomputable def turn (p : Pose ℝ) : ℂ := Complex.exp (p.theta * I)

theorem eq_of_shift {p q : Pose ℝ} (htheta : p.theta = q.theta) (hshift : p.shift = q.shift) :
    p = q := by
  cases p
  cases q
  simp_all [shift]

@[simp] theorem turn_re (p : Pose ℝ) : p.turn.re = Real.cos p.theta :=
  Complex.exp_ofReal_mul_I_re p.theta

@[simp] theorem turn_im (p : Pose ℝ) : p.turn.im = Real.sin p.theta :=
  Complex.exp_ofReal_mul_I_im p.theta

theorem norm_turn (p : Pose ℝ) : ‖p.turn‖ = 1 := Complex.norm_exp_ofReal_mul_I p.theta

@[simp] theorem conj_turn_mul_turn (p : Pose ℝ) : conj p.turn * p.turn = 1 := by
  rw [← Complex.normSq_eq_conj_mul_self, Complex.normSq_eq_norm_sq, norm_turn]
  simp

theorem turn_eq_iff {p q : Pose ℝ} :
    p.turn = q.turn ↔ ∃ k : ℤ, p.theta = q.theta + k * (2 * Real.pi) := by
  unfold turn
  rw [Complex.exp_eq_exp_iff_exists_int]
  refine exists_congr fun k => ?_
  rw [← sub_eq_zero, ← sub_eq_zero (a := p.theta)]
  have hfactor : (p.theta * I - (q.theta * I + k * (2 * Real.pi * I)) : ℂ) =
      ((p.theta - (q.theta + k * (2 * Real.pi)) : ℝ) : ℂ) * I := by
    push_cast
    ring
  rw [hfactor, mul_eq_zero, or_iff_left Complex.I_ne_zero, Complex.ofReal_eq_zero]

theorem congruent_iff {p q : Pose ℝ} : p.Congruent q ↔ p.turn = q.turn ∧ p.shift = q.shift := by
  rw [turn_eq_iff]
  constructor
  · rintro ⟨hx, hy, htheta⟩
    exact ⟨htheta, Complex.ext hx hy⟩
  · rintro ⟨htheta, hshift⟩
    exact ⟨congrArg Complex.re hshift, congrArg Complex.im hshift, htheta⟩

@[simp] theorem turn_inverse (p : Pose ℝ) : p.inverse.turn = conj p.turn := by
  apply Complex.ext
  · rw [turn_re, Complex.conj_re, turn_re]
    exact (Angle.cos_normalize _).trans (Real.cos_neg _)
  · rw [turn_im, Complex.conj_im, turn_im]
    exact (Angle.sin_normalize _).trans (Real.sin_neg _)

@[simp] theorem shift_inverse (p : Pose ℝ) : p.inverse.shift = -(conj p.turn * p.shift) := by
  apply Complex.ext
  · simp only [Complex.neg_re, Complex.mul_re, Complex.conj_re, Complex.conj_im, turn_re, turn_im]
    change -p.x * Real.cos p.theta - p.y * Real.sin p.theta = -(Real.cos p.theta * p.x -
      -Real.sin p.theta * p.y)
    ring
  · simp only [Complex.neg_im, Complex.mul_im, Complex.conj_re, Complex.conj_im, turn_re, turn_im]
    change p.x * Real.sin p.theta - p.y * Real.cos p.theta = -(Real.cos p.theta * p.y +
      -Real.sin p.theta * p.x)
    ring

@[simp] theorem turn_compose (p q : Pose ℝ) : (p.compose q).turn = p.turn * q.turn := by
  have hnormalize : (p.compose q).turn = (⟨0, 0, p.theta + q.theta⟩ : Pose ℝ).turn := by
    rw [turn_eq_iff]
    obtain ⟨k, hk⟩ := Angle.normalize_eq_sub (p.theta + q.theta)
    refine ⟨-k, ?_⟩
    change Angle.normalize (p.theta + q.theta) = _
    rw [hk]
    push_cast
    ring
  rw [hnormalize, turn, turn, turn, ← Complex.exp_add, Complex.ofReal_add, add_mul]

@[simp] theorem shift_compose (p q : Pose ℝ) :
    (p.compose q).shift = p.turn * q.shift + p.shift := by
  apply Complex.ext
  · simp only [Complex.add_re, Complex.mul_re, turn_re, turn_im]
    change p.x + q.x * Real.cos p.theta - q.y * Real.sin p.theta =
      Real.cos p.theta * q.x - Real.sin p.theta * q.y + p.x
    ring
  · simp only [Complex.add_im, Complex.mul_im, turn_re, turn_im]
    change p.y + q.x * Real.sin p.theta + q.y * Real.cos p.theta =
      Real.cos p.theta * q.y + Real.sin p.theta * q.x + p.y
    ring

/-- Being inverse to each other is symmetric, though wrapped angles need not be. -/
theorem Congruent.inverse_symm {p q : Pose ℝ} (h : p.Congruent q.inverse) :
    q.Congruent p.inverse := by
  rw [congruent_iff, turn_inverse, shift_inverse] at h ⊢
  obtain ⟨hturn, hshift⟩ := h
  rw [hturn, hshift, Complex.conj_conj]
  refine ⟨rfl, ?_⟩
  linear_combination -q.shift * q.conj_turn_mul_turn

end Pose

namespace Alignment

theorem toComplex_move (pose : Pose ℝ) (q : Point ℝ) :
    (move pose q).toComplex = pose.turn * q.toComplex + pose.shift := by
  apply Complex.ext
  · rw [Complex.add_re, Complex.mul_re, Pose.turn_re, Pose.turn_im]
    change q.x * Real.cos pose.theta - q.y * Real.sin pose.theta + pose.x =
      Real.cos pose.theta * q.x - Real.sin pose.theta * q.y + pose.x
    ring
  · rw [Complex.add_im, Complex.mul_im, Pose.turn_re, Pose.turn_im]
    change q.x * Real.sin pose.theta + q.y * Real.cos pose.theta + pose.y =
      Real.cos pose.theta * q.y + Real.sin pose.theta * q.x + pose.y
    ring

/-- Both ways to apply a motion agree where nothing is rounded. -/
theorem transform_eq_move (pose : Pose ℝ) (q : Point ℝ) : pose.transform q = move pose q := by
  refine congrArg₂ Point.mk ?_ ?_
  · change pose.x + q.x * Real.cos pose.theta - q.y * Real.sin pose.theta =
      q.x * Real.cos pose.theta - q.y * Real.sin pose.theta + pose.x
    ring
  · change pose.y + q.x * Real.sin pose.theta + q.y * Real.cos pose.theta =
      q.x * Real.sin pose.theta + q.y * Real.cos pose.theta + pose.y
    ring

/-- A moved point is as far from another as that one, moved back, is from it. -/
theorem distanceSq_move {p q : Pose ℝ} (h : q.Congruent p.inverse) (s t : Point ℝ) :
    (move p s).distanceSq t = (move q t).distanceSq s := by
  obtain ⟨hturn, hshift⟩ := Pose.congruent_iff.mp h
  rw [Pose.turn_inverse] at hturn
  rw [Pose.shift_inverse] at hshift
  rw [Point.distanceSq_eq, Point.distanceSq_eq, toComplex_move, toComplex_move, hturn, hshift]
  have hback : p.turn * s.toComplex + p.shift - t.toComplex =
      -(p.turn * (conj p.turn * t.toComplex + -(conj p.turn * p.shift) - s.toComplex)) := by
    linear_combination (t.toComplex - p.shift) * p.conj_turn_mul_turn
  rw [hback, Complex.normSq_neg, Complex.normSq_mul, Complex.normSq_eq_norm_sq p.turn,
    Pose.norm_turn, one_pow, one_mul]

end Alignment

end ScanMatch
