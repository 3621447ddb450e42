import ScanMatch.Proofs.Bounds
import ScanMatch.Proofs.PseudoInverse

/-! # Penalties of blocks and of poses

The least penalty over a block bounds what the full prior charges the poses of the block, and is
exact for a single translation. At each rotation the conditioned prior charges what the full one
does, and its constant part is what the best translation is charged.
-/
namespace ScanMatch

theorem minQuadratic_nonneg {m : SymMat ℝ} (hm : m.PosSemidef) (mean : Vec2 ℝ) {rect : Rect ℝ}
    (hrect : rect.Ordered) : 0 ≤ minQuadratic mean m rect := by
  obtain ⟨x, y, -, e⟩ := minQuadratic_attained m mean hrect
  rw [e]
  exact hm _ _

namespace Registration

variable {S : Type} [Precision S ℝ] {r : Registration S ℝ} {prior : Prior ℝ}

theorem charge_nonneg (hprior : r.request.prior = some prior) (h : prior.information.PosSemidef)
    (hw : prior.information.block.WellConditioned) (hm : 0 < r.resolution) (theta : ℝ)
    (level : Nat) (x y : Int) : 0 ≤ r.charge theta level x y := by
  simp only [charge, hprior]
  exact add_nonneg (prior.rotationPenalty_nonneg h hw theta)
    (minQuadratic_nonneg h.block _ (poses_ordered hm level x y))

theorem poseCharge_eq (hprior : r.request.prior = some prior) (h : prior.information.PosSemidef)
    (hw : prior.information.block.WellConditioned) (theta : ℝ) (x y : Int) :
    r.poseCharge theta x y = prior.penalty (r.reportedPose theta x y) := by
  simp only [poseCharge, hprior]
  exact prior.penalty_condition h hw (r.reportedPose theta x y)

/-- The least penalty over a block is answered, is not negative and bounds what the full prior
charges any pose of the block and what is answered for its quarters. For a single translation it is
what the full prior charges. -/
theorem minPenalty_bounds (hr : r.Formed) (hm : 0 < r.resolution)
    (hprior : r.request.prior = some prior) (h : prior.Admissible)
    (hw : prior.information.block.WellConditioned) {i : Nat} {theta : ℝ}
    (htheta : r.rotations[i]? = some theta) (level : Nat) (x y : Int) :
    ∃ v, r.minPenalty i level x y = .ok v ∧ 0 ≤ v ∧
      (∀ tx ty : Int, x * 2 ^ level ≤ tx → tx < (x + 1) * 2 ^ level →
        y * 2 ^ level ≤ ty → ty < (y + 1) * 2 ^ level →
          v ≤ prior.penalty (r.reportedPose theta tx ty)) ∧
      (∀ below, level = below + 1 → ∀ q ∈ Block.quarters,
        ∃ w, r.minPenalty i below (2 * x + q.1) (2 * y + q.2) = .ok w ∧ v ≤ w) ∧
      (level = 0 → v = prior.penalty (r.reportedPose theta x y)) := by
  have hadmissible (prior' : Prior ℝ) (he : r.request.prior = some prior') :
      prior'.Admissible := by
    obtain rfl := Option.some.inj (hprior.symm.trans he)
    exact h
  have hpose (tx ty : Int) := poseCharge_eq hprior h.information hw theta tx ty
  refine ⟨_, minPenalty_eq_ok hr hm htheta level x y, ?_, ?_, ?_, ?_⟩
  · exact charge_nonneg hprior h.information hw hm theta level x y
  · intro tx ty hx hx' hy hy'
    obtain rfl := (Block.between_iff x tx level).mp ⟨hx, hx'⟩
    obtain rfl := (Block.between_iff y ty level).mp ⟨hy, hy'⟩
    rw [← hpose, ← charge_zero hm]
    exact charge_mono hadmissible hm theta (Nat.zero_le level) tx ty
  · rintro below rfl q hq
    refine ⟨_, minPenalty_eq_ok hr hm htheta below _ _, ?_⟩
    have hmono := charge_mono hadmissible hm theta (Nat.le_succ below) (2 * x + q.1) (2 * y + q.2)
    obtain ⟨hx, hy⟩ := Block.quarter_ediv hq x y
    rwa [Nat.succ_eq_add_one, Nat.add_sub_cancel_left, pow_one, hx, hy] at hmono
  · rintro rfl
    rw [charge_zero hm, hpose]

/-- Its mean lies outside most blocks. The sum of both translations is tied to the rotation, and
their difference is free. -/
noncomputable def slantedPrior : Prior ℝ := ⟨⟨3, 0, 0⟩, ⟨1, 1, 1, 1, 1, 1, 1, 1, 2⟩⟩

theorem slantedPrior_admissible :
    slantedPrior.Admissible ∧ slantedPrior.information.block.WellConditioned := by
  refine ⟨⟨⟨rfl, rfl, rfl, ?_⟩, Or.inr ?_, Or.inr ?_⟩, Or.inl ?_⟩
  · intro x y t
    simp only [slantedPrior]
    nlinarith [sq_nonneg (x + y + t), sq_nonneg t]
  · norm_num [slantedPrior]
  · norm_num [slantedPrior]
  · norm_num [slantedPrior, Mat3.block, SymMat.det]

/-- The small request under the slanted prior, at a resolution of one half. -/
noncomputable def slanted : Registration ℝ ℝ :=
  { cache := 0
    pyramid := ⟨#[], 1 / 2⟩
    request := { Request.small with prior := some slantedPrior }
    rotations := #[0, 1]
    priors := some (#[0, 1].map slantedPrior.condition) }

/-- A block left of the mean, with one of its poses and the quarter that this pose is in. -/
theorem minPenalty_bounds_slanted : ∃ v w, slanted.minPenalty 1 1 (-1) 0 = .ok v ∧ 0 ≤ v ∧
    v ≤ slantedPrior.penalty (slanted.reportedPose 1 (-2) 1) ∧
    slanted.minPenalty 1 0 (-2) 1 = .ok w ∧ v ≤ w := by
  have hformed : slanted.Formed := ⟨Request.small_rotations, rfl⟩
  have hm : 0 < slanted.resolution := by
    change (0 : ℝ) < 1 / 2
    norm_num
  obtain ⟨hadmissible, hconditioned⟩ := slantedPrior_admissible
  obtain ⟨v, hv, hnonneg, hposes, hquarters, -⟩ :=
    minPenalty_bounds hformed hm rfl hadmissible hconditioned (i := 1) rfl 1 (-1) 0
  obtain ⟨w, hw, hle⟩ := hquarters 0 rfl (0, 1) (by decide)
  exact ⟨v, w, hv, hnonneg, hposes (-2) 1 (by decide) (by decide) (by decide) (by decide), hw, hle⟩

end Registration

namespace Prior

variable {prior : Prior ℝ}

/-- At every rotation the charge is a constant and a quadratic around the conditioned mean. The
constant is the least charge at that rotation, and not negative. -/
theorem condition_lossless (h : prior.information.PosSemidef)
    (hw : prior.information.block.WellConditioned) (theta : ℝ) :
    let c := prior.condition theta
    (∀ x y, c.rotationPenalty + c.information.quadratic (x - c.mean.x) (y - c.mean.y) =
      prior.penalty ⟨x, y, theta⟩) ∧
    IsLeast (Set.range fun p : Vec2 ℝ => prior.penalty ⟨p.x, p.y, theta⟩) c.rotationPenalty ∧
    0 ≤ c.rotationPenalty := by
  intro c
  have hsplit (x y : ℝ) : c.rotationPenalty +
      c.information.quadratic (x - c.mean.x) (y - c.mean.y) = prior.penalty ⟨x, y, theta⟩ :=
    prior.penalty_condition h hw ⟨x, y, theta⟩
  refine ⟨hsplit, ⟨⟨c.mean, ?_⟩, ?_⟩, prior.rotationPenalty_nonneg h hw theta⟩
  · dsimp only
    rw [← hsplit, sub_self, sub_self, SymMat.quadratic_zero, add_zero]
  · rintro _ ⟨p, rfl⟩
    dsimp only
    rw [← hsplit]
    exact le_add_of_nonneg_right (h.block _ _)

/-- The slanted prior at a rotation that wraps to a negative one. -/
theorem condition_lossless_slanted :
    let prior := Registration.slantedPrior
    let c := prior.condition 4
    prior.information.PosSemidef ∧ prior.information.block.WellConditioned ∧
      (∀ x y, c.rotationPenalty + c.information.quadratic (x - c.mean.x) (y - c.mean.y) =
        prior.penalty ⟨x, y, 4⟩) ∧
      IsLeast (Set.range fun p : Vec2 ℝ => prior.penalty ⟨p.x, p.y, 4⟩) c.rotationPenalty ∧
      0 ≤ c.rotationPenalty := by
  obtain ⟨hadmissible, hconditioned⟩ := Registration.slantedPrior_admissible
  exact ⟨hadmissible.information, hconditioned,
    condition_lossless hadmissible.information hconditioned 4⟩

end Prior

end ScanMatch
