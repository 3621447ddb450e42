import ScanMatch.Proofs.Binary64
import ScanMatch.Proofs.Ranges
import ScanMatch.Config.MatchConfig

/-! # Usable configurations

What the checks of a configuration leave open, and what keeps the searches made from it from
failing: not too many levels, and windows that floating point and 32-bit pixels can hold.
-/
namespace ScanMatch

theorem refuse_eq_ok {ε α : Type} {p : Prop} [Decidable p] {e : ε} {x : Except ε α} {a : α} :
    (if p then .error e else x) = .ok a ↔ ¬ p ∧ x = .ok a := by
  by_cases h : p
  · simp [h]
  · simp [h]

namespace MatchConfig

variable {R : Type} [Scalar R]

/-- What is checked of a configuration. None of it is an upper limit but that of the factor, and
what is not a number mostly passes. -/
structure Valid (c : MatchConfig R) : Prop where
  levels : 2 ≤ c.pyramid.levels
  windows : ¬ (c.search.translationWindow < 0 ∨ c.search.rotationWindow < 0)
  step : ¬ c.search.rotationStep ≤ 0
  shrink : 0 < c.hillClimb.shrinkFactor ∧ c.hillClimb.shrinkFactor < 1
  climb : ¬ (c.hillClimb.stepX ≤ 0 ∨ c.hillClimb.stepY ≤ 0 ∨ c.hillClimb.stepTheta ≤ 0)
  ratio : ¬ c.icp.maxDistRatio ≤ 0
  thresholds : ¬ (c.icp.transThresh < 0 ∨ c.icp.radThresh < 0)

theorem validate_eq_ok {c c' : MatchConfig R} : c.validate = .ok c' ↔ c' = c ∧ c.Valid := by
  simp only [validate, bind, Except.bind, pure, Except.pure, throw, throwThe, MonadExceptOf.throw,
    refuse_eq_ok, not_lt, not_not, Except.ok.injEq]
  constructor
  · rintro ⟨hlevels, hwindows, hstep, hshrink, hclimb, hratio, hthresholds, rfl⟩
    exact ⟨rfl, hlevels, hwindows, hstep, hshrink, hclimb, hratio, hthresholds⟩
  · rintro ⟨rfl, hlevels, hwindows, hstep, hshrink, hclimb, hratio, hthresholds⟩
    exact ⟨hlevels, hwindows, hstep, hshrink, hclimb, hratio, hthresholds, rfl⟩

theorem valid_of_parse {codec : Codec R} {text : String} {c : MatchConfig R}
    (h : parse codec text = .ok c) : c.Valid := by
  rw [parse] at h
  split at h
  · obtain ⟨rfl, hvalid⟩ := validate_eq_ok.mp h
    exact hvalid
  · cases h

end MatchConfig

/-! ### Windows in pixels -/

namespace Binary64

theorem abs_nearest_sub_self_le_of_le {x : ℝ} (h : |x| ≤ 2 ^ 31) :
    |nearest x - x| ≤ 1 / 2 ^ 20 := by
  have herror := abs_nearest_sub_self_le x
  have hleast := least_le
  norm_num at herror hleast h ⊢
  linarith

/-- A distance below 1075 km, in pixels of a millimeter or more, is rounded by far less than one
pixel. -/
theorem Reads.pixels {w r : Float} {a d : ℝ} (hw : |a| < overflow → Reads w (nearest a))
    (hr : Reads r d) (ha : |a| ≤ 1074742) (hd : 1 / 1000 ≤ d) :
    Reads (w / r) (nearest (nearest a / d)) ∧ |nearest (nearest a / d)| ≤ 1074742000 ∧
      |nearest (nearest a / d) - a / d| ≤ 1 / 2 ^ 9 := by
  have hdpos : 0 < d := by linarith
  have hmeters : |nearest a| ≤ 1074742 := by
    have h := abs_nearest_le_natCast (x := a) (n := 1074742) (by decide) (by exact_mod_cast ha)
    exact_mod_cast h
  have hpixels : |nearest a / d| ≤ 1074742000 := by
    rw [abs_div, abs_of_pos hdpos, div_le_iff₀ hdpos]
    linarith
  refine ⟨?_, ?_, ?_⟩
  · exact (hw (lt_overflow (by linarith))).div hr hdpos.ne' (lt_overflow (by linarith))
  · have h := abs_nearest_le_natCast (x := nearest a / d) (n := 1074742000) (by decide)
      (by exact_mod_cast hpixels)
    exact_mod_cast h
  · have hround := abs_nearest_sub_self_le_of_le (x := a) (by linarith)
    have hround' := abs_nearest_sub_self_le_of_le (x := nearest a / d) (by linarith)
    have hscaled : |nearest a / d - a / d| ≤ 1 / 2 ^ 10 := by
      rw [← sub_div, abs_div, abs_of_pos hdpos, div_le_iff₀ hdpos]
      norm_num at hround hd ⊢
      linarith
    have htriangle := abs_sub_le (nearest (nearest a / d)) (nearest a / d) (a / d)
    norm_num at hround' hscaled ⊢
    linarith

theorem pixels_ok {c w r : Float} {a b d : ℝ} (hc : Reads c a) (hw : Reads w b) (hr : Reads r d)
    (ha : |a| ≤ 1000) (hb : 0 ≤ b) (hb' : b ≤ 1073741.81) (hd : 1 / 1000 ≤ d) :
    ∃ lo hi : ℤ, Scalar.toInt32 (Scalar.floor ((c - w) / r)) = lo ∧
      Scalar.toInt32 (Scalar.ceil ((c + w) / r)) = hi ∧
      -1074742000 ≤ lo ∧ lo ≤ hi ∧ hi ≤ 1074742000 ∧ hi - lo ≤ 2147483647 := by
  obtain ⟨halow, hahigh⟩ := abs_le.mp ha
  have hdpos : 0 < d := by linarith
  obtain ⟨hlow, hlowEnd, hlowNear⟩ :=
    Reads.pixels (hc.sub hw) hr (abs_le.mpr ⟨by linarith, by linarith⟩) hd
  obtain ⟨hhigh, hhighEnd, hhighNear⟩ :=
    Reads.pixels (hc.add hw) hr (abs_le.mpr ⟨by linarith, by linarith⟩) hd
  have hordered : nearest (nearest (a - b) / d) ≤ nearest (nearest (a + b) / d) := by
    apply nearest_mono
    have := nearest_mono (by linarith : a - b ≤ a + b)
    gcongr
  generalize nearest (nearest (a - b) / d) = first at *
  generalize nearest (nearest (a + b) / d) = last at *
  rw [abs_le] at hlowEnd hlowNear hhighEnd hhighNear
  have hlo : -1074742000 ≤ ⌊first⌋ := Int.le_floor.mpr (by exact_mod_cast hlowEnd.1)
  have hhi : ⌈last⌉ ≤ 1074742000 := Int.ceil_le.mpr (by exact_mod_cast hhighEnd.2)
  have hle : ⌊first⌋ ≤ ⌈last⌉ := (Int.floor_mono hordered).trans (Int.floor_le_ceil _)
  have hwidth : ⌈last⌉ - ⌊first⌋ ≤ 2147483647 := by
    have hspan : (a + b) / d - (a - b) / d ≤ 2147483620 := by
      rw [← sub_div, div_le_iff₀ hdpos]
      norm_num at hb' ⊢
      linarith
    have hceil := Int.ceil_lt_add_one last
    have hfloor := Int.lt_floor_add_one first
    have hlt : ((⌈last⌉ - ⌊first⌋ : ℤ) : ℝ) < (2147483648 : ℤ) := by
      norm_num at hlowNear hhighNear ⊢
      linarith
    exact Int.lt_add_one_iff.mp (Int.cast_lt.mp hlt)
  refine ⟨_, _, hlow.floor.truncate ?_ (by omega) (by omega),
    hhigh.ceil.truncate ?_ (by omega) (by omega), hlo, hle, hhi, hwidth⟩
  · rw [abs_lt]
    constructor <;> omega
  · rw [abs_lt]
    constructor <;> omega

theorem pixel_of_notANumber {x : Float} (h : NotANumber x) :
    Scalar.toInt32 (Scalar.floor x) = 0 ∧ Scalar.toInt32 (Scalar.ceil x) = 0 :=
  ⟨h.floor.truncate _ _, h.ceil.truncate _ _⟩

/-! ### Rotations -/

theorem reads_slack : ∃ a : ℝ, Reads Request.rotationSlack a ∧ 0 ≤ a ∧ a ≤ 1 / 32 := by
  have hunpack : (Request.rotationSlack : Float).toModel.unpack =
      .finite .positive 4835703278458517 (-82) (by decide) := rfl
  refine ⟨4835703278458517 * 2 ^ (-82 : ℤ), by rw [Reads, hunpack]; rfl, by positivity, ?_⟩
  norm_num

/-- A second sample shows that the step is not much longer than the span. -/
theorem count_le {quotient slack : ℝ} (hquotient : 0 ≤ quotient) (hslack0 : 0 ≤ slack)
    (hslack1 : slack ≤ 1 / 32) (hone : 1 ≤ nearest (nearest quotient + slack)) :
    nearest (nearest quotient + slack) ≤ 9 / 8 * quotient := by
  have hnonneg := nearest_nonneg hquotient
  have hhalf : 1 / 2 ≤ nearest quotient := by
    by_contra! hlt
    have hrep : Representable (3 * 2 ^ (-2 : ℤ)) := ⟨3, -2, by decide, by decide, by norm_num⟩
    have hle := nearest_le hrep (x := nearest quotient + slack) (by norm_num; linarith)
    norm_num at hle
    linarith
  have hleast := least_le
  have hdivided := (abs_le.mp (abs_nearest_sub_self_le quotient)).2
  have hsum := (abs_le.mp (abs_nearest_sub_self_le (nearest quotient + slack))).2
  rw [abs_of_nonneg hquotient] at hdivided
  rw [abs_of_nonneg (by positivity)] at hsum
  norm_num at hleast hdivided hsum ⊢
  linarith

/-- The count does not overflow, and no rotation counted leads much further than the span. -/
theorem rotationCount_ok {span step : Float} {a c : ℝ} (hspan : Reads span a) (ha : 0 ≤ a)
    (hstep : Reads step c) (hc : 0 < c) (hratio : a ≤ 2 ^ 61 * c) :
    ∃ n, Request.rotationCount span step = .ok n ∧ n ≤ 2 ^ 62 ∧
      ∀ i < n, nearest i * c ≤ 9 / 8 * a := by
  obtain ⟨slack, hslack, hslack0, hslack1⟩ := reads_slack
  have hquotient : a / c ≤ 2 ^ 61 := by rwa [div_le_iff₀ hc]
  have hquotient0 : 0 ≤ a / c := by positivity
  have hdiv := hspan.div hstep hc.ne' (lt_overflow (by rw [abs_of_nonneg hquotient0]; linarith))
  have hdiv0 := nearest_nonneg hquotient0
  have hdiv1 := nearest_le (representable_pow 61) hquotient
  have hsum := hdiv.add hslack
    (lt_overflow (by rw [abs_of_nonneg (by positivity)]; linarith))
  set q := nearest (nearest (a / c) + slack)
  have hq0 : 0 ≤ q := nearest_nonneg (by positivity)
  have hq1 : q ≤ 3 * 2 ^ 60 :=
    nearest_le ⟨3, 60, by decide, by decide, by norm_num⟩ (by linarith)
  have hfloor : 0 ≤ ⌊q⌋ ∧ ⌊q⌋ ≤ 3 * 2 ^ 60 :=
    ⟨Int.floor_nonneg.mpr hq0, by exact_mod_cast (Int.floor_le q).trans hq1⟩
  have htruncate : Scalar.toNat64 (Scalar.floor (span / step + Request.rotationSlack)) =
      ⌊q⌋.toNat := by
    have h : Scalar.truncate 0 18446744073709551615
        (Scalar.floor (span / step + Request.rotationSlack)) = ⌊q⌋ :=
      hsum.floor.truncate (by rw [abs_of_nonneg hfloor.1]; omega) hfloor.1 (by omega)
    exact congrArg Int.toNat h
  refine ⟨⌊q⌋.toNat + 1, ?_, by omega, ?_⟩
  · rw [Request.rotationCount, htruncate]
    exact Checked.nat64_of_le (by omega)
  · intro i hi
    have hiq : (i : ℝ) ≤ q := by
      have hcast : ((i : ℤ) : ℝ) ≤ ⌊q⌋ := by exact_mod_cast (by omega : (i : ℤ) ≤ ⌊q⌋)
      exact (by exact_mod_cast hcast : (i : ℝ) ≤ ⌊q⌋).trans (Int.floor_le q)
    have hnear := nearest_le hsum.representable hiq
    have hnear0 := nearest_nonneg (x := i) (by positivity)
    rcases Nat.eq_zero_or_pos i with rfl | hpos
    · rw [Nat.cast_zero, nearest_zero, zero_mul]
      positivity
    · have hone : (1 : ℝ) ≤ i := by exact_mod_cast hpos
      have hbound := hnear.trans (count_le hquotient0 hslack0 hslack1 (hone.trans hiq))
      calc nearest i * c ≤ 9 / 8 * (a / c) * c := by gcongr
        _ = 9 / 8 * a := by field_simp

/-- Rounding makes a window no more than twice as wide. -/
theorem nearest_add_sub_nearest_sub_le {t b : ℝ} (ht : Representable t) (hb : 0 ≤ b) :
    nearest (t + b) - nearest (t - b) ≤ 4 * b := by
  have hup := (abs_le.mp (abs_nearest_sub_le (t + b) ht)).2
  have hdown := (abs_le.mp (abs_nearest_sub_le (t - b) ht)).1
  rw [add_sub_cancel_left, abs_of_nonneg hb] at hup
  rw [sub_sub_cancel_left, abs_neg, abs_of_nonneg hb] at hdown
  linarith

/-- In a range no longer than two last places of the greatest numbers, what is added to the lower
end leads past the upper one by less than half of such a place. -/
theorem sample_lt_overflow {lo hi s : ℝ} (hlo : |lo| ≤ largest) (hhi : |hi| ≤ largest)
    (hle : lo ≤ hi) (hlength : hi - lo ≤ 2 * top) (hs : 0 ≤ s)
    (hsample : s ≤ 9 / 8 * nearest (hi - lo)) : |s| < overflow ∧ |lo + nearest s| < overflow := by
  have htop := one_le_top
  have hleast := least_le
  have hspan := (abs_le.mp (abs_nearest_sub_self_le (hi - lo))).2
  have hrounded := (abs_le.mp (abs_nearest_sub_self_le s)).2
  have hrounded0 := nearest_nonneg hs
  rw [abs_of_nonneg (by linarith : 0 ≤ hi - lo)] at hspan
  rw [abs_of_nonneg hs] at hrounded
  rw [largest, abs_le] at hlo hhi
  rw [overflow, abs_of_nonneg hs, abs_lt]
  norm_num at hleast hspan hrounded hlo hhi ⊢
  refine ⟨?_, ?_, ?_⟩ <;> linarith

/-- A range of rotations that is no longer than two last places of the greatest numbers, and not too
long for its step, is sampled at finite rotations only. -/
theorem rotations_ok {request : Request Float} {lo hi : ℝ} (hlo : Reads request.rotationMin lo)
    (hhi : Reads request.rotationMax hi) (hle : lo ≤ hi) (hlength : hi - lo ≤ 2 * top)
    (hstep : lo < hi → ∃ c, Reads request.rotationStep c ∧ 0 < c ∧ hi - lo ≤ 2 ^ 60 * c) :
    ∃ rotations, request.rotations = .ok rotations ∧
      ∀ theta ∈ rotations, theta.isFinite = true := by
  have htop := top_pos
  have hspan0 : 0 ≤ hi - lo := by linarith
  have hspan := hhi.sub hlo (by
    rw [abs_of_nonneg hspan0, overflow]
    linarith)
  have hnear0 := nearest_nonneg hspan0
  have hnear := abs_nearest_le (hi - lo)
  rw [abs_of_nonneg hspan0, abs_of_nonneg hnear0] at hnear
  rw [Request.rotations, if_neg (not_not.mpr ((hlo.le_iff hhi).mpr hle))]
  dsimp only
  split
  · refine ⟨_, rfl, ?_⟩
    intro theta htheta
    rw [Array.mem_singleton] at htheta
    rw [htheta]
    exact hlo.isFinite
  · next hzero =>
    have hlt : lo < hi := by
      apply hle.lt_of_ne
      rintro rfl
      rw [sub_self, nearest_zero] at hspan
      apply hzero
      rw [Arith.isZero, Bool.and_eq_true, decide_eq_true_iff, decide_eq_true_iff]
      exact ⟨(hspan.le_iff reads_zero).mpr le_rfl, (reads_zero.le_iff hspan).mpr le_rfl⟩
    obtain ⟨c, hc, hcpos, hratio⟩ := hstep hlt
    obtain ⟨n, hn, hn62, hsamples⟩ := rotationCount_ok hspan hnear0 hc hcpos (by linarith)
    rw [if_neg (not_not.mpr ((reads_zero.lt_iff hc).mpr hcpos)), hn]
    refine ⟨_, rfl, ?_⟩
    intro theta htheta
    obtain ⟨i, rfl⟩ := Array.mem_ofFn.mp htheta
    have hi62 : (i : ℕ) < 2 ^ 64 := by omega
    have hproduct : 0 ≤ nearest (i : ℕ) * c :=
      mul_nonneg (nearest_nonneg (Nat.cast_nonneg _)) hcpos.le
    obtain ⟨hlarge, hsum⟩ := sample_lt_overflow hlo.abs_le_largest hhi.abs_le_largest hle hlength
      hproduct (hsamples i i.isLt)
    exact (hlo.add ((reads_ofInt_natCast hi62).mul hc hlarge) hsum).isFinite

end Binary64

open Binary64

/-! ### Configurations -/

/-- Windows that requests can be made of. A window of meters that is not a number counts as none;
one of angles leads from every finite angle to finite ones, and to each side it has at most
2.88 * 10^17 finite steps unless it is empty. -/
structure SearchSection.Bounded (c : SearchSection Float) : Prop where
  translation : ¬ 1073741.8 < c.translationWindow
  rotation : c.rotationWindow ≤ 9.97e291
  step : 0 < c.rotationWindow →
    c.rotationStep.isFinite = true ∧ c.rotationWindow ≤ 2.88e17 * c.rotationStep

/-- Within a thousand meters of the origin. -/
structure Pose.Moderate (p : Pose Float) : Prop where
  x : -1000 ≤ p.x ∧ p.x ≤ 1000
  y : -1000 ≤ p.y ∧ p.y ≤ 1000
  theta : p.theta.isFinite = true

namespace Binary64

theorem reads_of_unpack {x : Float} {m : ℕ} {e : ℤ} {hm : 0 < m} {a : ℝ}
    (h : x.toModel.unpack = .finite .positive m e hm) (ha : (m : ℝ) * 2 ^ e = a) : Reads x a := by
  rw [Reads, h, ← ha]
  rfl

theorem reads_one : Reads 1 1 := by
  have hunpack : (1 : Float).toModel.unpack = .finite .positive (2 ^ 52) (-52) (by decide) := rfl
  exact reads_of_unpack hunpack (by norm_num)

theorem reads_thousand : Reads 1000 1000 := by
  have hunpack : (1000 : Float).toModel.unpack =
      .finite .positive 8796093022208000 (-43) (by decide) := rfl
  exact reads_of_unpack hunpack (by norm_num)

theorem exists_widest : ∃ b : ℝ, Reads 1073741.8 b ∧ b ≤ 1073741.81 := by
  have hunpack : (1073741.8 : Float).toModel.unpack =
      .finite .positive 4611685915348173 (-32) (by decide) := rfl
  refine ⟨_, reads_of_unpack hunpack rfl, ?_⟩
  norm_num

theorem reads_mostSteps : Reads 2.88e17 (288 * 10 ^ 15) := by
  have hunpack : (2.88e17 : Float).toModel.unpack =
      .finite .positive 9000000000000000 5 (by decide) := rfl
  exact reads_of_unpack hunpack (by norm_num)

theorem le_of_le_mostSteps {w step : Float} {b s : ℝ} (hw : Reads w b) (hstep : Reads step s)
    (hs : 0 < s) (h : w ≤ 2.88e17 * step) : b ≤ (288 * 10 ^ 15 + 64) * s := by
  by_cases hlarge : 288 * 10 ^ 15 * s < overflow
  · have hpos : 0 < 288 * 10 ^ 15 * s := by positivity
    have hproduct := reads_mostSteps.mul hstep (by rwa [abs_of_pos hpos])
    have hle := (hw.le_iff hproduct).mp h
    have hnear := (abs_le.mp (abs_nearest_sub_self_le (288 * 10 ^ 15 * s))).2
    have hleast := hstep.representable.least_le hs
    rw [abs_of_pos hpos] at hnear
    norm_num at hnear hle ⊢
    linarith
  · have := (le_abs_self b).trans hw.abs_le_largest
    linarith [largest_lt_overflow]

theorem exists_finest : ∃ d : ℝ, Reads 0.001 d ∧ 1 / 1000 ≤ d := by
  have hunpack : (0.001 : Float).toModel.unpack =
      .finite .positive 4611686018427388 (-62) (by decide) := rfl
  refine ⟨_, reads_of_unpack hunpack rfl, ?_⟩
  norm_num

theorem exists_greatestWindow : ∃ b : ℝ, Reads 9.97e291 b ∧ 2 * b < top := by
  -- the decimal is too long to be evaluated but by the kernel
  have hbits : (9.97e291 : Float).toModel.toBits = 8975665752058343711 := by decide +kernel
  have hunpack : (9.97e291 : Float).toModel.unpack =
      .finite .positive 8998893963686175 917 (by decide) := by
    rw [Float.Model.unpack, hbits]
    rfl
  refine ⟨_, reads_of_unpack hunpack rfl, ?_⟩
  calc (2 : ℝ) * ((8998893963686175 : ℕ) * 2 ^ (917 : ℤ)) < 2 ^ (54 : ℤ) * 2 ^ (917 : ℤ) := by
        rw [← mul_assoc]
        gcongr
        norm_num
    _ = top := by rw [← zpow_add₀ (by norm_num)]; rfl

theorem exists_within {x : Float} (h : -1000 ≤ x ∧ x ≤ 1000) : ∃ a, Reads x a ∧ |a| ≤ 1000 := by
  have hlow := reads_thousand.neg
  obtain ⟨a, ha⟩ := reads_of_le hlow reads_thousand (not_gt_of_le h.1) h.2
  exact ⟨a, ha, abs_le.mpr ⟨(hlow.le_iff ha).mp h.1, (ha.le_iff reads_thousand).mp h.2⟩⟩

end Binary64

/-- Along one axis, a window around a pose is not inverted and fits into pixels. -/
theorem SearchSection.Bounded.pixels {c : SearchSection Float} (h : c.Bounded)
    (hwindow : ¬ c.translationWindow < @OfNat.ofNat Float 0 (Arith.instOfNat 0)) {x r : Float}
    (hx : -1000 ≤ x ∧ x ≤ 1000) (hr : 0.001 ≤ r ∧ r ≤ 1) :
    ∃ lo hi : ℤ, Scalar.toInt32 (Scalar.floor ((x - c.translationWindow) / r)) = lo ∧
      Scalar.toInt32 (Scalar.ceil ((x + c.translationWindow) / r)) = hi ∧
      -1074742000 ≤ lo ∧ lo ≤ hi ∧ hi ≤ 1074742000 ∧ hi - lo ≤ 2147483647 := by
  obtain ⟨a, hxread, ha⟩ := exists_within hx
  obtain ⟨widest, hwidest, hwidest'⟩ := exists_widest
  obtain ⟨finest, hfinest, hfinest'⟩ := exists_finest
  obtain ⟨d, hd⟩ := reads_of_le hfinest reads_one (not_gt_of_le hr.1) hr.2
  have hdlow := (hfinest.le_iff hd).mp hr.1
  rcases reads_of_not_lt reads_zero hwidest hwindow h.translation with hnan | ⟨b, hb⟩
  · have hlow := pixel_of_notANumber ((hnan.sub_right x).div_left r)
    have hhigh := pixel_of_notANumber ((hnan.add_right x).div_left r)
    exact ⟨0, 0, hlow.1, hhigh.2, by decide, le_rfl, by decide, by decide⟩
  · have hb0 := not_lt.mp (mt (hb.lt_iff reads_zero).mpr hwindow)
    have hb1 := not_lt.mp (mt (hwidest.lt_iff hb).mpr h.translation)
    exact pixels_ok hxread hb hd ha hb0 (hb1.trans hwidest') (by linarith)

theorem SearchSection.Bounded.rotations {c : SearchSection Float} (h : c.Bounded)
    (hwindow : ¬ c.rotationWindow < @OfNat.ofNat Float 0 (Arith.instOfNat 0))
    (hstep : ¬ c.rotationStep ≤ @OfNat.ofNat Float 0 (Arith.instOfNat 0)) {request : Request Float}
    {theta : Float} (htheta : theta.isFinite = true)
    (hmin : request.rotationMin = theta - c.rotationWindow)
    (hmax : request.rotationMax = theta + c.rotationWindow)
    (hrequest : request.rotationStep = c.rotationStep) :
    ∃ rotations, request.rotations = .ok rotations ∧
      ∀ angle ∈ rotations, angle.isFinite = true := by
  have htop := top_pos
  obtain ⟨greatest, hgreatest, hgreatest'⟩ := exists_greatestWindow
  obtain ⟨b, hb⟩ := reads_of_le reads_zero hgreatest hwindow h.rotation
  have hb0 := not_lt.mp (mt (hb.lt_iff reads_zero).mpr hwindow)
  have hb1 := (hb.le_iff hgreatest).mp h.rotation
  obtain ⟨t, ht⟩ := (isFinite_iff theta).mp htheta
  have htlarge := ht.abs_le_largest
  rw [largest] at htlarge
  have hfar : |t - b| < overflow ∧ |t + b| < overflow := by
    have := abs_sub t b
    have := abs_add_le t b
    rw [abs_of_nonneg hb0] at *
    rw [overflow]
    constructor <;> linarith
  have hlo := ht.sub hb hfar.1
  have hhi := ht.add hb hfar.2
  rw [← hmin] at hlo
  rw [← hmax] at hhi
  have hlength := nearest_add_sub_nearest_sub_le ht.representable hb0
  apply rotations_ok hlo hhi (nearest_mono (by linarith)) (by linarith)
  intro hlt
  have hbpos : 0 < b := by
    rcases hb0.eq_or_lt with rfl | hpos
    · rw [sub_zero, add_zero] at hlt
      exact absurd hlt (lt_irrefl _)
    · exact hpos
  have hzero : Reads 0 0 := rfl
  obtain ⟨hfinite, hsteps⟩ := h.step ((hzero.lt_iff hb).mpr hbpos)
  obtain ⟨s, hs⟩ := (isFinite_iff _).mp hfinite
  have hspos : 0 < s := not_le.mp (mt (hs.le_iff reads_zero).mpr hstep)
  have hratio := le_of_le_mostSteps hb hs hspos hsteps
  refine ⟨s, by rwa [hrequest], hspos, ?_⟩
  linarith

/-- An accepted configuration is usable if it asks for no more than thirty levels and its windows
are bounded: pyramids can be built with it, and every request made of it is sampled at finite
rotations and accepted. -/
theorem MatchConfig.usable {S : Type} [Precision S Float] {codec : Codec Float} {text : String}
    {config : MatchConfig Float} (hread : parse codec text = .ok config)
    (hlevels : config.pyramid.levels ≤ 30) (hsearch : config.search.Bounded)
    {estimate : Pose Float} (hestimate : estimate.Moderate) {metersPerPixel : S}
    (hresolution : 0.001 ≤ (widen metersPerPixel : Float) ∧ (widen metersPerPixel : Float) ≤ 1)
    {base : Grid} (hbase : base.Moderate) (numPoints : ℕ) :
    ∃ pyramid rotations,
      Pyramid.build base metersPerPixel config.pyramid.levels = .ok pyramid ∧
      pyramid.numLevels = config.pyramid.levels ∧
      (config.search.requestAround estimate metersPerPixel numPoints).rotations = .ok rotations ∧
      (∀ theta ∈ rotations, theta.isFinite = true) ∧
      ∀ (e : Engine S Float) (i : ℕ), ∃ e', e.add i pyramid
        (config.search.requestAround estimate metersPerPixel numPoints) = .ok e' := by
  have hvalid := valid_of_parse hread
  have hlevels2 := hvalid.levels
  obtain ⟨htranslation, hrotation⟩ := not_or.mp hvalid.windows
  obtain ⟨pyramid, hbuild, hcount, -⟩ :=
    Pyramid.build_ok hbase metersPerPixel (show 1 ≤ config.pyramid.levels by omega) hlevels
  obtain ⟨x0, x1, hx0, hx1, hxlow, hx, hxhigh, hxwidth⟩ :=
    hsearch.pixels htranslation hestimate.x hresolution
  obtain ⟨y0, y1, hy0, hy1, hylow, hy, hyhigh, hywidth⟩ :=
    hsearch.pixels htranslation hestimate.y hresolution
  set request := config.search.requestAround estimate metersPerPixel numPoints
  have hmin : request.rotationMin = estimate.theta - config.search.rotationWindow := rfl
  have hmax : request.rotationMax = estimate.theta + config.search.rotationWindow := rfl
  obtain ⟨rotations, hrotations, hfinite⟩ :=
    hsearch.rotations hrotation hvalid.step hestimate.theta hmin hmax rfl
  have hleft : request.tx0 = x0 := hx0
  have hright : request.tx1 = x1 := hx1
  have hlower : request.ty0 = y0 := hy0
  have hupper : request.ty1 = y1 := hy1
  have hwithin : request.Within 1610612735 := by constructor <;> omega
  refine ⟨pyramid, rotations, hbuild, hcount, hrotations, hfinite, ?_⟩
  intro e i
  exact e.add_ok i (by omega) (by omega) hwithin (by omega) (by omega) hrotations

/-! Documents with one setting read as the defaults with that setting. -/

/-- The tokens of a document with one setting. -/
def settingTokens (name key value : String) : List Yaml.Token :=
  [.blockMapping, .key, .plain name, .value, .blockMapping, .key, .plain key, .value,
    .plain value, .blockEnd, .blockEnd]

theorem MatchConfig.ofYaml_setting {text : String} (name key value : String)
    {config : MatchConfig Float}
    (htokens : (Yaml.characters? text).bind Yaml.tokens? = some (settingTokens name key value))
    (hread : ofNode? Yaml.codec (.mapping [(.plain name, .mapping [(.plain key, .plain value)])]) =
      some config) (hvalid : config.validate = .ok config) : ofYaml text = .ok config := by
  have htext : Yaml.ofText? text =
      some (.mapping [(.plain name, .mapping [(.plain key, .plain value)])]) := by
    rw [Yaml.ofText?_eq, htokens]
    rfl
  rw [ofYaml, parse_eq htext hread, hvalid]

/-- Scans in double precision are used as they are. -/
instance : Precision Float Float where
  widen x := x
  narrow x := x

/-- Thirty levels over a single cell. -/
theorem MatchConfig.usable_thirty : ∃ config : MatchConfig Float,
    ofYaml "pyramid:\n  levels: 30\n" = .ok config ∧ config.pyramid.levels ≤ 30 ∧
    config.search.Bounded ∧ (⟨0, 0, 0⟩ : Pose Float).Moderate ∧
    ((0.001 : Float) ≤ 0.0625 ∧ (0.0625 : Float) ≤ 1) ∧
    ∃ pyramid, Pyramid.build (Grid.ofFn ⟨1, 1, 0, 0⟩ fun _ _ => 255) (0.0625 : Float)
      config.pyramid.levels = .ok pyramid ∧ pyramid.numLevels = 30 ∧
      ∃ e, (Engine.ofCaches #[] : Engine Float Float).add 0 pyramid
        (config.search.requestAround ⟨0, 0, 0⟩ (0.0625 : Float) 1) = .ok e := by
  have hread : ofYaml "pyramid:\n  levels: 30\n" =
      .ok ({ standard with pyramid := ⟨30⟩ } : MatchConfig Float) :=
    ofYaml_setting "pyramid" "levels" "30" (by decide +kernel) (by decide +kernel)
      (by decide +kernel)
  have hsearch : (SearchSection.standard : SearchSection Float).Bounded := by
    constructor <;> decide +kernel
  have hestimate : (⟨0, 0, 0⟩ : Pose Float).Moderate := by
    constructor <;> decide +kernel
  have hresolution : 0.001 ≤ (widen (0.0625 : Float) : Float) ∧
      (widen (0.0625 : Float) : Float) ≤ 1 := by decide +kernel
  have hbase : (Grid.ofFn ⟨1, 1, 0, 0⟩ fun _ _ => 255).Moderate := by constructor <;> decide
  obtain ⟨pyramid, rotations, hbuild, hcount, -, -, hadd⟩ :=
    usable hread le_rfl hsearch hestimate hresolution hbase 1
  exact ⟨_, hread, le_rfl, hsearch, hestimate, hresolution, pyramid, hbuild, hcount,
    hadd (Engine.ofCaches #[]) 0⟩

/-- None of the bounds is checked: an accepted configuration may ask for too many levels, for a
window that no request can hold, for more rotations than can be counted or for rotations that are
no numbers. -/
theorem MatchConfig.accepted_unusable :
    (∃ config : MatchConfig Float, ofYaml "pyramid:\n  levels: 31\n" = .ok config ∧
      Pyramid.build (Grid.ofFn ⟨1, 1, 0, 0⟩ fun _ _ => 255) (0.0625 : Float)
        config.pyramid.levels = .error .overflow) ∧
    (∃ config : MatchConfig Float, ofYaml "search:\n  translation_window: .inf\n" = .ok config ∧
      ∀ pyramid : Pyramid Float, 2 ≤ pyramid.numLevels →
        (Engine.ofCaches #[] : Engine Float Float).add 0 pyramid
          (config.search.requestAround ⟨0, 0, 0⟩ (0.0625 : Float) 1) =
            .error (.fault .overflow)) ∧
    (∃ config : MatchConfig Float, ofYaml "search:\n  rotation_window: .inf\n" = .ok config ∧
      (config.search.requestAround ⟨0, 0, 0⟩ (0.0625 : Float) 1).rotations =
        .error (.fault .overflow)) ∧
    ∃ config : MatchConfig Float, ofYaml "search:\n  rotation_step: .inf\n" = .ok config ∧
      ∃ rotations,
        (config.search.requestAround ⟨0, 0, 0⟩ (0.0625 : Float) 1).rotations = .ok rotations ∧
        ∃ theta ∈ rotations, theta.isFinite = false := by
  have hlevels : ofYaml "pyramid:\n  levels: 31\n" =
      .ok ({ standard with pyramid := ⟨31⟩ } : MatchConfig Float) :=
    ofYaml_setting "pyramid" "levels" "31" (by decide +kernel) (by decide +kernel)
      (by decide +kernel)
  have htranslation : ofYaml "search:\n  translation_window: .inf\n" =
      .ok ({ standard with search.translationWindow := 1 / 0 } : MatchConfig Float) :=
    ofYaml_setting "search" "translation_window" ".inf" (by decide +kernel) (by decide +kernel)
      (by decide +kernel)
  have hrotation : ofYaml "search:\n  rotation_window: .inf\n" =
      .ok ({ standard with search.rotationWindow := 1 / 0 } : MatchConfig Float) :=
    ofYaml_setting "search" "rotation_window" ".inf" (by decide +kernel) (by decide +kernel)
      (by decide +kernel)
  have hstep : ofYaml "search:\n  rotation_step: .inf\n" =
      .ok ({ standard with search.rotationStep := 1 / 0 } : MatchConfig Float) :=
    ofYaml_setting "search" "rotation_step" ".inf" (by decide +kernel) (by decide +kernel)
      (by decide +kernel)
  refine ⟨⟨_, hlevels, Pyramid.build_overflow _ _ le_rfl⟩, ⟨_, htranslation, ?_⟩,
    ⟨_, hrotation, ?_⟩, ⟨_, hstep, ?_⟩⟩
  · intro pyramid hn
    exact Engine.add_overflow _ _ hn (by decide +kernel) (by decide +kernel) (by decide +kernel)
  · decide +kernel
  · exact ⟨#[0 / 0], by decide +kernel, 0 / 0, by simp, by decide +kernel⟩

end ScanMatch
