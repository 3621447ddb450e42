import ScanMatch.Proofs.Plane

/-! # The group of motions

Wrapped angles stand for the classes of angles that differ by whole turns. So poses compose as the
rigid motions do that they stand for, and it does not matter where angles are wrapped on the way.
-/
namespace ScanMatch

namespace Angle

/-- A wrapped angle is the only one of its turn that differs from the angle by whole turns. -/
theorem normalize_eq_iff (a b : ℝ) :
    normalize a = b ↔ b ∈ Set.Ico (-Real.pi) Real.pi ∧ ∃ k : ℤ, b = a + k * (2 * Real.pi) := by
  have hturn : -Real.pi + 2 * Real.pi = Real.pi := by ring
  rw [normalize_eq_toIcoMod, toIcoMod_eq_iff, hturn]
  refine and_congr_right fun _ => ⟨?_, ?_⟩
  · rintro ⟨k, hk⟩
    refine ⟨-k, ?_⟩
    rw [hk, zsmul_eq_mul]
    push_cast
    ring
  · rintro ⟨k, hk⟩
    refine ⟨-k, ?_⟩
    rw [hk, zsmul_eq_mul]
    push_cast
    ring

theorem normalize_zero : normalize (0 : ℝ) = 0 := by
  rw [normalize_eq_iff]
  refine ⟨⟨?_, Real.pi_pos⟩, 0, ?_⟩
  · linarith [Real.pi_pos]
  · simp

/-- Wrapping one angle before a sum is wrapped changes nothing. -/
theorem normalize_normalize_add (a b : ℝ) : normalize (normalize a + b) = normalize (a + b) := by
  have h := normalize_normalize_sub a (-b)
  rwa [sub_neg_eq_add, sub_neg_eq_add] at h

theorem normalize_add_normalize (a b : ℝ) : normalize (a + normalize b) = normalize (a + b) := by
  rw [add_comm, normalize_normalize_add, add_comm]

end Angle

namespace Pose

variable (p q r : Pose ℝ)

theorem theta_compose : (p.compose q).theta = Angle.normalize (p.theta + q.theta) := rfl

theorem theta_inverse : p.inverse.theta = Angle.normalize (-p.theta) := rfl

theorem theta_identity : (identity : Pose ℝ).theta = 0 := Exact.zero_eq

@[simp] theorem turn_identity : (identity : Pose ℝ).turn = 1 := by
  rw [turn, theta_identity, Complex.ofReal_zero, zero_mul, Complex.exp_zero]

@[simp] theorem shift_identity : (identity : Pose ℝ).shift = 0 :=
  Complex.ext Exact.zero_eq Exact.zero_eq

@[simp] theorem shift_normalized : p.normalized.shift = p.shift := rfl

theorem compose_assoc : (p.compose q).compose r = p.compose (q.compose r) := by
  apply eq_of_shift
  · simp only [theta_compose, Angle.normalize_normalize_add, Angle.normalize_add_normalize,
      add_assoc]
  · simp only [shift_compose, turn_compose]
    ring

theorem identity_compose : identity.compose p = p.normalized := by
  apply eq_of_shift
  · rw [theta_compose, theta_identity, zero_add]
    rfl
  · simp

theorem compose_identity : p.compose identity = p.normalized := by
  apply eq_of_shift
  · rw [theta_compose, theta_identity, add_zero]
    rfl
  · simp

theorem compose_inverse : p.compose p.inverse = identity := by
  apply eq_of_shift
  · rw [theta_compose, theta_inverse, Angle.normalize_add_normalize, add_neg_cancel,
      Angle.normalize_zero, theta_identity]
  · rw [shift_compose, shift_inverse, shift_identity]
    linear_combination -p.shift * p.conj_turn_mul_turn

theorem inverse_compose : p.inverse.compose p = identity := by
  apply eq_of_shift
  · rw [theta_compose, theta_inverse, Angle.normalize_normalize_add, neg_add_cancel,
      Angle.normalize_zero, theta_identity]
  · rw [shift_compose, shift_inverse, turn_inverse, shift_identity]
    ring

/-- A composed motion moves a point by one motion after the other. -/
theorem transform_compose (s : Point ℝ) :
    (p.compose q).transform s = p.transform (q.transform s) := by
  apply Point.toComplex_injective
  simp only [Alignment.transform_eq_move, Alignment.toComplex_move, turn_compose, shift_compose]
  ring

/-- Poses act on points as a group, in which a pose and its wrapped form are the same. -/
theorem group_laws (s : Point ℝ) :
    (∀ a b : ℝ, Angle.normalize a = b ↔
      b ∈ Set.Ico (-Real.pi) Real.pi ∧ ∃ k : ℤ, b = a + k * (2 * Real.pi)) ∧
    (p.compose q).compose r = p.compose (q.compose r) ∧
    p.compose p.inverse = identity ∧ p.inverse.compose p = identity ∧
    identity.compose p = p.normalized ∧ p.compose identity = p.normalized ∧
    (p.compose q).transform s = p.transform (q.transform s) :=
  ⟨Angle.normalize_eq_iff, compose_assoc p q r, compose_inverse p, inverse_compose p,
    identity_compose p, compose_identity p, transform_compose p q s⟩

end Pose

end ScanMatch
