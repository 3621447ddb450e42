import ScanMatch.Proofs.Fitting

/-! # Rigid fits as least squares

What a motion leaves between moved sources and their targets splits into a part that no motion
changes, a part that only the turn changes, and the distance of the moved center of the sources from
that of the targets. A fit makes the second part least and the third one zero. -/
namespace ScanMatch

open Complex (I normSq)
open scoped ComplexConjugate

section Sums

variable {α : Type} (l : List α) (c : ℂ) (f g : α → ℂ)

theorem sum_re_mul : (l.map fun x => (c * f x).re).sum = (c * (l.map f).sum).re := by
  have h := map_list_sum Complex.reAddGroupHom (l.map fun x => c * f x)
  rw [List.sum_map_mul_left, List.map_map] at h
  exact h.symm

theorem sum_mul_sub :
    (l.map fun x => c * f x - g x).sum = c * (l.map f).sum - (l.map g).sum := by
  have h := Multiset.sum_map_sub (m := (l : Multiset α)) (f := fun x => c * f x) (g := g)
  simp only [Multiset.map_coe, Multiset.sum_coe] at h
  rw [h, List.sum_map_mul_left]

variable {l}

theorem sum_sub_mean (hl : l ≠ []) :
    (l.map fun x => f x - (l.map f).sum / l.length).sum = 0 := by
  have hlength : (l.length : ℂ) ≠ 0 := by simpa using hl
  have h := sum_mul_sub l 1 f fun _ => (l.map f).sum / l.length
  simp only [one_mul, List.map_const', List.sum_replicate, nsmul_eq_mul] at h
  rw [h, mul_div_cancel₀ _ hlength, sub_self]

end Sums

theorem normSq_turned_sub {u : ℂ} (hu : ‖u‖ = 1) (a b : ℂ) :
    normSq (u * a - b) = normSq a + normSq b - 2 * (conj u * (conj a * b)).re := by
  have hproduct : (u * a * conj b).re = (conj u * (conj a * b)).re := by
    rw [← Complex.conj_re]
    simp only [map_mul, Complex.conj_conj, mul_assoc]
  rw [Complex.normSq_sub, hproduct, Complex.normSq_mul, Complex.normSq_eq_norm_sq u, hu]
  simp

namespace RigidFit

/-- How far a motion leaves the sources from their targets, in squares. -/
noncomputable def squaredError (pairs : List (Point ℝ × Point ℝ)) (p : Pose ℝ) : ℝ :=
  (pairs.map fun m => (Alignment.move p m.1).distanceSq m.2).sum

/-- How far a motion leaves the center of the sources from that of the targets. -/
noncomputable def drift (pairs : List (Point ℝ × Point ℝ)) (p : Pose ℝ) : ℂ :=
  p.turn * sourceMean pairs + p.shift - targetMean pairs

variable {pairs : List (Point ℝ × Point ℝ)}

theorem distanceSq_centered (pairs : List (Point ℝ × Point ℝ)) (p : Pose ℝ)
    (m : Point ℝ × Point ℝ) :
    (Alignment.move p m.1).distanceSq m.2 =
      normSq (m.1.toComplex - sourceMean pairs) + normSq (m.2.toComplex - targetMean pairs) +
        -2 * (conj p.turn * (conj (m.1.toComplex - sourceMean pairs) *
          (m.2.toComplex - targetMean pairs))).re +
        (normSq (drift pairs p) + 2 * (conj (drift pairs p) *
          (p.turn * (m.1.toComplex - sourceMean pairs) -
            (m.2.toComplex - targetMean pairs))).re) := by
  have hsplit : (Alignment.move p m.1).toComplex - m.2.toComplex =
      p.turn * (m.1.toComplex - sourceMean pairs) - (m.2.toComplex - targetMean pairs) +
        drift pairs p := by
    rw [Alignment.toComplex_move, drift]
    ring
  rw [Point.distanceSq_eq, hsplit, Complex.normSq_add, normSq_turned_sub p.norm_turn,
    mul_comm _ (conj (drift pairs p))]
  ring

/-- Neither spread depends on the motion. -/
theorem squaredError_eq (hne : pairs ≠ []) (p : Pose ℝ) :
    squaredError pairs p = spread pairs + spread (pairs.map Prod.swap) -
      2 * (conj p.turn * moment pairs).re + pairs.length * normSq (drift pairs p) := by
  have hcross : (pairs.map fun m => p.turn * (m.1.toComplex - sourceMean pairs) -
      (m.2.toComplex - targetMean pairs)).sum = 0 := by
    rw [sum_mul_sub, sourceMean, targetMean, sum_sub_mean _ hne, sum_sub_mean _ hne]
    simp
  have hspread : spread (pairs.map Prod.swap) =
      (pairs.map fun m => normSq (m.2.toComplex - targetMean pairs)).sum := by
    rw [spread, sourceMean_swap, List.map_map]
    rfl
  simp only [squaredError, distanceSq_centered pairs, List.sum_map_add, List.sum_map_mul_left,
    sum_re_mul, hcross, List.map_const', List.sum_replicate, nsmul_eq_mul]
  rw [hspread, spread, moment]
  simp only [mul_zero, Complex.zero_re, add_zero]
  ring

/-- A turn gets out of the moment at most its length. -/
theorem re_turn_mul_moment_le (pairs : List (Point ℝ × Point ℝ)) (p : Pose ℝ) :
    (conj p.turn * moment pairs).re ≤ ‖moment pairs‖ := by
  have h := Complex.re_le_norm (conj p.turn * moment pairs)
  rwa [norm_mul, Complex.norm_conj, p.norm_turn, one_mul] at h

/-- The turn of the fit gets all of it out, also where the moment is zero and has no direction. -/
theorem re_turn_motion_mul_moment (pairs : List (Point ℝ × Point ℝ)) :
    (conj (motion pairs).turn * moment pairs).re = ‖moment pairs‖ := by
  have hmoment : moment pairs = ‖moment pairs‖ * (motion pairs).turn :=
    (Complex.norm_mul_exp_arg_mul_I _).symm
  have hproduct : conj (motion pairs).turn * moment pairs = ‖moment pairs‖ := by
    calc conj (motion pairs).turn * moment pairs
        = ‖moment pairs‖ * (conj (motion pairs).turn * (motion pairs).turn) := by
          conv_lhs => rw [hmoment]
          ring
      _ = ‖moment pairs‖ := by rw [Pose.conj_turn_mul_turn, mul_one]
  rw [hproduct, Complex.ofReal_re]

theorem drift_motion (pairs : List (Point ℝ × Point ℝ)) : drift pairs (motion pairs) = 0 := by
  rw [drift, shift_motion]
  ring

theorem squaredError_motion_le (pairs : List (Point ℝ × Point ℝ)) (p : Pose ℝ) :
    squaredError pairs (motion pairs) ≤ squaredError pairs p := by
  by_cases hne : pairs = []
  · simp [hne, squaredError]
  · have hturn := re_turn_mul_moment_le pairs p
    have hdrift : 0 ≤ pairs.length * normSq (drift pairs p) :=
      mul_nonneg (Nat.cast_nonneg _) (Complex.normSq_nonneg _)
    rw [squaredError_eq hne, squaredError_eq hne, re_turn_motion_mul_moment, drift_motion,
      Complex.normSq_zero]
    linarith

theorem solve_perm {added : List (Point ℝ × Point ℝ)} (h : added.Perm pairs) :
    (ofPairs added).solve = (ofPairs pairs).solve := by
  have hempty : added = [] ↔ pairs = [] := by
    rw [← List.length_eq_zero_iff, h.length_eq, List.length_eq_zero_iff]
  simp only [solve_ofPairs, motion_perm h, hempty]

/-- Pairs added in any order have a solution if there are any, and no motion leaves the sources
closer to their targets, in squares, than the solution does. -/
theorem solve_isLeast {added : List (Point ℝ × Point ℝ)} (hadded : added.Perm pairs) :
    ((ofPairs added).solve = none ↔ pairs = []) ∧
      ∀ p, (ofPairs added).solve = some p →
        IsLeast (Set.range (squaredError pairs)) (squaredError pairs p) := by
  rw [solve_perm hadded, solve_ofPairs]
  by_cases hne : pairs = []
  · simp [hne]
  · rw [if_neg hne]
    refine ⟨by simp [hne], ?_⟩
    intro p hp
    obtain rfl := Option.some.inj hp
    refine ⟨Set.mem_range_self _, ?_⟩
    rintro _ ⟨q, rfl⟩
    exact squaredError_motion_le pairs q

/-- Pairs that no motion joins. -/
theorem solve_isLeast_apart :
    let pairs : List (Point ℝ × Point ℝ) :=
      [(⟨0, 0⟩, ⟨1, 1⟩), (⟨1, 0⟩, ⟨1, 3⟩), (⟨0, 2⟩, ⟨0, 1⟩)]
    pairs.reverse.Perm pairs ∧ ∃ p, (ofPairs pairs.reverse).solve = some p ∧
      IsLeast (Set.range (squaredError pairs)) (squaredError pairs p) := by
  intro pairs
  have hperm : pairs.reverse.Perm pairs := pairs.reverse_perm
  obtain ⟨hnone, hleast⟩ := solve_isLeast hperm
  obtain ⟨p, hp⟩ := Option.ne_none_iff_exists'.mp (mt hnone.mp (List.cons_ne_nil _ _))
  exact ⟨hperm, p, hp, hleast p hp⟩

end RigidFit

end ScanMatch
