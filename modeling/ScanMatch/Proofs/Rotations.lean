import ScanMatch.Proofs.Exact
import ScanMatch.Search.Request

/-! # Rotation samples in exact arithmetic

The samples of a range begin at its lower end and go up by whole steps, so that each rotation of the
range has one less than a step below it. None lies past the upper end by more than the slack. -/
namespace ScanMatch.Request

/-- How many steps a span has, where a little less than a whole step counts as one. -/
noncomputable def stepsIn (span step : ℝ) : ℤ := ⌊span / step + 1e-9⌋

theorem rotationSlack_eq : (rotationSlack : ℝ) = 1e-9 := by
  norm_num [rotationSlack]

theorem rotationCount_eq {span step : ℝ} (h : stepsIn span step < 18446744073709551615) :
    rotationCount span step = .ok ((stepsIn span step).toNat + 1) := by
  have hcount : Scalar.toNat64 (Scalar.floor (span / step + rotationSlack)) =
      (stepsIn span step).toNat := by
    rw [rotationSlack_eq]
    change (max 0 (min 18446744073709551615 (integerPart (stepsIn span step)))).toNat = _
    rw [Exact.integerPart_intCast]
    omega
  rw [rotationCount, hcount]
  exact if_pos (by omega)

/-- The sample below a rotation of the range is counted. -/
theorem exists_step_below {first last step theta : ℝ} (hstep : 0 < step) (hfirst : first ≤ theta)
    (hlast : theta ≤ last) :
    ∃ i : ℕ, i ≤ stepsIn (last - first) step ∧ 0 ≤ theta - (first + i * step) ∧
      theta - (first + i * step) < step := by
  have hsteps : 0 ≤ (theta - first) / step := div_nonneg (by linarith) hstep.le
  obtain ⟨i, hi⟩ := Int.eq_ofNat_of_zero_le (Int.floor_nonneg.mpr hsteps)
  have hle : ⌊(theta - first) / step⌋ ≤ stepsIn (last - first) step := by
    apply Int.floor_mono
    have : (theta - first) / step ≤ (last - first) / step := by gcongr
    linarith
  have hlow := Int.floor_le ((theta - first) / step)
  have hhigh := Int.lt_floor_add_one ((theta - first) / step)
  rw [hi] at hle
  rw [hi, Int.cast_natCast, le_div_iff₀ hstep] at hlow
  rw [hi, Int.cast_natCast, div_lt_iff₀ hstep] at hhigh
  exact ⟨i, hle, by linarith, by linarith⟩

theorem step_le_last {first last step : ℝ} (hstep : 0 < step) {i : ℕ}
    (hi : i ≤ stepsIn (last - first) step) : first + i * step ≤ last + 1e-9 * step := by
  have hle : (i : ℝ) ≤ (last - first) / step + 1e-9 := by exact_mod_cast Int.le_floor.mp hi
  rw [← sub_le_iff_le_add, le_div_iff₀ hstep] at hle
  linarith

theorem stepsIn_nonneg {span step : ℝ} (hspan : 0 ≤ span) (hstep : 0 < step) :
    0 ≤ stepsIn span step :=
  Int.floor_nonneg.mpr (add_nonneg (div_nonneg hspan hstep.le) (by norm_num))

theorem stepsIn_lt {span step : ℝ} (h : span / step ≤ 2 ^ 32) :
    stepsIn span step < 18446744073709551615 := by
  rw [stepsIn, Int.floor_lt]
  push_cast
  linarith

variable {request : Request ℝ}

theorem rotations_single (h : request.rotationMin = request.rotationMax) :
    request.rotations = .ok #[request.rotationMin] := by
  rw [rotations, if_neg (not_not.mpr h.le)]
  exact if_pos (by simp [Arith.isZero, h])

theorem rotations_eq (h : request.rotationMin < request.rotationMax)
    (hstep : 0 < request.rotationStep)
    (hcount : stepsIn (request.rotationMax - request.rotationMin) request.rotationStep <
      18446744073709551615) :
    request.rotations = .ok (Array.ofFn fun i : Fin ((stepsIn
      (request.rotationMax - request.rotationMin) request.rotationStep).toNat + 1) =>
        request.rotationMin + (i : ℕ) * request.rotationStep) := by
  have hspan : ¬ Arith.isZero (request.rotationMax - request.rotationMin) = true := by
    simp [Arith.isZero, h]
  rw [rotations, if_neg (not_not.mpr h.le)]
  dsimp only
  rw [if_neg hspan, if_neg (not_not.mpr (by simpa using hstep)), rotationCount_eq hcount]
  rfl

/-- Samples that leave no gap of a step below any rotation of the range, and none above it but for
the slack. A single rotation is met exactly. -/
structure Samples (request : Request ℝ) (rotations : Array ℝ) : Prop where
  covers : ∀ theta, request.rotationMin ≤ theta → theta ≤ request.rotationMax →
    ∃ s ∈ rotations, 0 ≤ theta - s ∧ theta - s < request.rotationStep ∧
      (request.rotationMin = request.rotationMax → s = theta)
  mem_range : ∀ s ∈ rotations, request.rotationMin ≤ s ∧
    s ≤ request.rotationMax + 1e-9 * request.rotationStep

theorem samples_single (h : request.rotationMin = request.rotationMax)
    (hstep : 0 < request.rotationStep) : request.Samples #[request.rotationMin] := by
  refine ⟨?_, ?_⟩
  · intro theta hmin hmax
    obtain rfl : request.rotationMin = theta := le_antisymm hmin (h ▸ hmax)
    exact ⟨_, Array.mem_singleton.mpr rfl, by simp, by simpa using hstep, fun _ => rfl⟩
  · intro s hs
    obtain rfl := Array.mem_singleton.mp hs
    exact ⟨le_refl _, by nlinarith⟩

theorem exists_samples (request : Request ℝ) (hordered : request.rotationMin ≤ request.rotationMax)
    (hstep : 0 < request.rotationStep)
    (hcount : (request.rotationMax - request.rotationMin) / request.rotationStep ≤ 2 ^ 32) :
    ∃ rotations, request.rotations = .ok rotations ∧ request.Samples rotations := by
  obtain hsingle | hrange := hordered.eq_or_lt
  · exact ⟨_, rotations_single hsingle, samples_single hsingle hstep⟩
  · refine ⟨_, rotations_eq hrange hstep (stepsIn_lt hcount), ?_, ?_⟩
    · intro theta hmin hmax
      obtain ⟨i, hi, hlow, hhigh⟩ := exists_step_below hstep hmin hmax
      exact ⟨_, Array.mem_ofFn.mpr ⟨⟨i, by omega⟩, rfl⟩, hlow, hhigh,
        fun hsingle => absurd hsingle hrange.ne⟩
    · intro s hs
      obtain ⟨⟨i, hlt⟩, rfl⟩ := Array.mem_ofFn.mp hs
      have hnonneg := stepsIn_nonneg (sub_nonneg.mpr hordered) hstep
      have hpos : 0 ≤ (i : ℝ) * request.rotationStep := by positivity
      exact ⟨by linarith, step_le_last hstep (by omega)⟩

end ScanMatch.Request
