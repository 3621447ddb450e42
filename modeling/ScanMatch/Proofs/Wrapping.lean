import ScanMatch.Proofs.Exact
import ScanMatch.Geometry.Pose

/-! # Wrapped angles

In exact arithmetic an angle is wrapped to the only one in the turn from `-π` to `π` that differs
from it by whole turns. Its sine and cosine stay, and wrapping it before a difference is wrapped
changes nothing.
-/
namespace ScanMatch

theorem abs_sub_integerPart_lt (x : ℝ) : |x - integerPart x| < 1 := by
  unfold integerPart
  rw [abs_lt]
  split
  · constructor <;> linarith [Int.floor_le x, Int.lt_floor_add_one x]
  · constructor <;> linarith [Int.le_ceil x, Int.ceil_lt_add_one x]

namespace Angle

theorem tau_eq : (Scalar.tau : ℝ) = 2 * Real.pi := by
  rw [Scalar.tau, Exact.ofNat_eq]
  rfl

theorem pi_eq : (Scalar.pi : ℝ) = Real.pi := rfl

/-- Whole turns are taken away until less than one is left. -/
theorem rem_turn (a : ℝ) : ∃ k : ℤ, Scalar.rem a (2 * Real.pi) = a - k * (2 * Real.pi) ∧
    |a - k * (2 * Real.pi)| < 2 * Real.pi := by
  have hpos := Real.two_pi_pos
  refine ⟨integerPart (a / (2 * Real.pi)), ?_, ?_⟩
  · change a - 2 * Real.pi * integerPart (a / (2 * Real.pi)) = _
    ring
  · have hpart := abs_sub_integerPart_lt (a / (2 * Real.pi))
    have h := mul_lt_mul_of_pos_right hpart hpos
    have hcancel : a / (2 * Real.pi) * (2 * Real.pi) = a := div_mul_cancel₀ a hpos.ne'
    rwa [← abs_of_pos hpos, ← abs_mul, abs_of_pos hpos, sub_mul, hcancel, one_mul] at h

theorem normalize_eq_toIcoMod (a : ℝ) :
    normalize a = toIcoMod Real.two_pi_pos (-Real.pi) a := by
  obtain ⟨k, hrem, hlt⟩ := rem_turn a
  rw [abs_lt] at hlt
  symm
  rw [toIcoMod_eq_iff]
  simp only [normalize, tau_eq, pi_eq, hrem, zsmul_eq_mul]
  -- what is left of the angle lies above the turn, below it or in it
  split_ifs with hhigh hlow
  · refine ⟨⟨by linarith, by linarith⟩, k + 1, ?_⟩
    push_cast
    ring
  · refine ⟨⟨by linarith, by linarith⟩, k - 1, ?_⟩
    push_cast
    ring
  · refine ⟨⟨by linarith, by linarith⟩, k, ?_⟩
    ring

theorem normalize_eq_sub (a : ℝ) : ∃ k : ℤ, normalize a = a - k * (2 * Real.pi) := by
  refine ⟨toIcoDiv Real.two_pi_pos (-Real.pi) a, ?_⟩
  rw [normalize_eq_toIcoMod, toIcoMod, zsmul_eq_mul]

theorem normalize_sub_turns (a : ℝ) (k : ℤ) :
    normalize (a - k * (2 * Real.pi)) = normalize a := by
  rw [normalize_eq_toIcoMod, normalize_eq_toIcoMod, ← zsmul_eq_mul, toIcoMod_sub_zsmul]

/-- A difference from a wrapped angle is wrapped to the same as one from the angle itself. -/
theorem normalize_normalize_sub (a b : ℝ) : normalize (normalize a - b) = normalize (a - b) := by
  obtain ⟨k, hk⟩ := normalize_eq_sub a
  have h : normalize a - b = a - b - k * (2 * Real.pi) := by
    rw [hk]
    ring
  rw [h, normalize_sub_turns]

theorem sin_normalize (a : ℝ) : Real.sin (normalize a) = Real.sin a := by
  obtain ⟨k, hk⟩ := normalize_eq_sub a
  rw [hk, Real.sin_sub_int_mul_two_pi]

theorem cos_normalize (a : ℝ) : Real.cos (normalize a) = Real.cos a := by
  obtain ⟨k, hk⟩ := normalize_eq_sub a
  rw [hk, Real.cos_sub_int_mul_two_pi]

end Angle

end ScanMatch
