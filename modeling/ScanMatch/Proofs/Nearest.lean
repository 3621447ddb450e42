import ScanMatch.Proofs.Literals

/-! # Rounding to 53 bits

The real numbers that 53 bits and an exponent from -1074 on can hold, and rounding to the nearest
of them, with ties to even. The exponent has no upper limit here, so nothing is infinite.
-/
namespace ScanMatch.Binary64

noncomputable section

/-- The nearest integer, the even one of two. -/
def roundEven (x : ℝ) : ℤ :=
  if x - ⌊x⌋ < 1 / 2 then ⌊x⌋
  else if 1 / 2 < x - ⌊x⌋ then ⌊x⌋ + 1
  else ⌊x⌋ + ⌊x⌋ % 2

theorem roundEven_error (x : ℝ) : |(roundEven x : ℝ) - x| ≤ 1 / 2 := by
  have hfloor := Int.floor_le x
  have hlt := Int.lt_floor_add_one x
  rw [roundEven, abs_le]
  split_ifs with hlow hhigh
  · constructor <;> linarith
  · push_cast
    constructor <;> linarith
  · have hhalf : x = ⌊x⌋ + 1 / 2 := by linarith
    rcases Int.emod_two_eq_zero_or_one ⌊x⌋ with h | h
    · rw [h]
      push_cast
      constructor <;> linarith
    · rw [h]
      push_cast
      constructor <;> linarith

theorem roundEven_intCast (k : ℤ) : roundEven (k : ℝ) = k := by simp [roundEven]

theorem roundEven_nearest (x : ℝ) (k : ℤ) : |(roundEven x : ℝ) - x| ≤ |(k : ℝ) - x| := by
  by_cases hk : roundEven x = k
  · rw [hk]
  · have hone : (1 : ℝ) ≤ |(roundEven x : ℝ) - k| := by
      exact_mod_cast Int.one_le_abs (sub_ne_zero.mpr hk)
    have htriangle := abs_sub_le (roundEven x : ℝ) x k
    have herror := roundEven_error x
    rw [abs_sub_comm x] at htriangle
    linarith

/-- Rounding does not lead past an integer. -/
theorem le_roundEven {k : ℤ} {x : ℝ} (h : k ≤ x) : k ≤ roundEven x := by
  by_contra! hlt
  have hcast : (roundEven x : ℝ) + 1 ≤ k := by exact_mod_cast hlt
  have := (abs_le.mp (roundEven_error x)).1
  linarith

theorem roundEven_le {k : ℤ} {x : ℝ} (h : x ≤ k) : roundEven x ≤ k := by
  by_contra! hlt
  have hcast : (k : ℝ) + 1 ≤ roundEven x := by exact_mod_cast hlt
  have := (abs_le.mp (roundEven_error x)).2
  linarith

/-- The exponent of the last of 53 bits. -/
def place (x : ℝ) : ℤ := max (Int.log 2 x - 52) (-1074)

/-- The nearest number of 53 bits, for numbers that are not negative. -/
def nearestAbs (x : ℝ) : ℝ := roundEven (x / 2 ^ place x) * 2 ^ place x

def nearest (x : ℝ) : ℝ := if x < 0 then -nearestAbs (-x) else nearestAbs x

/-- Some integer of at most 53 bits, times a power of two from 2^-1074 on. -/
def Representable (x : ℝ) : Prop :=
  ∃ k e : ℤ, |k| ≤ 2 ^ 53 ∧ -1074 ≤ e ∧ x = k * 2 ^ e

theorem Representable.neg {x : ℝ} (h : Representable x) : Representable (-x) := by
  obtain ⟨k, e, hk, he, rfl⟩ := h
  refine ⟨-k, e, by rwa [abs_neg], he, ?_⟩
  push_cast
  ring

theorem representable_intCast {k : ℤ} (h : |k| ≤ 2 ^ 53) : Representable k :=
  ⟨k, 0, h, by decide, by simp⟩

theorem representable_zero : Representable 0 := by
  simpa using representable_intCast (k := 0) (by decide)

theorem representable_pow (n : ℕ) : Representable (2 ^ n) :=
  ⟨1, n, by decide, by omega, by simp⟩

/-- The least number above zero. -/
def least : ℝ := 2 ^ (-1074 : ℤ)

theorem least_pos : 0 < least := zpow_pos (by norm_num) _

theorem least_le : least ≤ 1 / 2 ^ 60 := by
  have hpow : (2 : ℝ) ^ (-1074 : ℤ) ≤ 2 ^ (-60 : ℤ) := zpow_le_zpow_right₀ (by norm_num) (by decide)
  rw [least]
  norm_num at hpow ⊢
  exact hpow

theorem Representable.least_le {x : ℝ} (h : Representable x) (hx : 0 < x) : least ≤ x := by
  obtain ⟨k, e, -, he, rfl⟩ := h
  have hk : (1 : ℝ) ≤ k := by
    have hk : 0 < (k : ℝ) := pos_of_mul_pos_left hx (by positivity)
    exact_mod_cast Int.add_one_le_of_lt (Int.cast_pos.mp hk)
  have hpow : least ≤ 2 ^ e := zpow_le_zpow_right₀ (by norm_num) he
  calc least ≤ 1 * 2 ^ e := by rwa [one_mul]
    _ ≤ k * 2 ^ e := by gcongr

/-- The last place of the greatest finite numbers. -/
def top : ℝ := 2 ^ (971 : ℤ)

theorem one_le_top : 1 ≤ top := one_le_zpow₀ (by norm_num) (by decide)

theorem top_pos : 0 < top := zero_lt_one.trans_le one_le_top

/-- The greatest finite number. -/
def largest : ℝ := (2 ^ 53 - 1) * top

/-- Half a place above the greatest finite number. From here on results are infinite. -/
def overflow : ℝ := (2 ^ 53 - 1 / 2) * top

theorem representable_largest : Representable largest :=
  ⟨2 ^ 53 - 1, 971, by decide, by decide,
    by rw [largest, top, Int.cast_sub, Int.cast_pow, Int.cast_ofNat, Int.cast_one]⟩

theorem div_place_lt {x : ℝ} : x / 2 ^ place x < 2 ^ 53 := by
  have hlog := Int.lt_zpow_succ_log_self (b := 2) (by decide) x
  have hpow : (2 : ℝ) ^ (Int.log 2 x + 1) ≤ 2 ^ (53 + place x) := by
    apply zpow_le_zpow_right₀ (by norm_num)
    have := le_max_left (Int.log 2 x - 52) (-1074)
    rw [place]
    omega
  rw [zpow_add₀ (by norm_num) 53] at hpow
  rw [div_lt_iff₀ (by positivity)]
  exact hlog.trans_le hpow

/-- Above the least exponent all 53 bits are needed. -/
theorem le_div_place {x : ℝ} (hx : 0 < x) (h : place x ≠ -1074) : 2 ^ 52 ≤ x / 2 ^ place x := by
  have hlog := Int.zpow_log_le_self (b := 2) (by decide) hx
  have hplace : Int.log 2 x = 52 + place x := by
    rw [place] at h ⊢
    omega
  push_cast at hlog
  rw [hplace, zpow_add₀ (by norm_num)] at hlog
  rw [le_div_iff₀ (by positivity)]
  exact hlog

theorem representable_nearestAbs {x : ℝ} (hx : 0 ≤ x) : Representable (nearestAbs x) := by
  refine ⟨roundEven (x / 2 ^ place x), place x, ?_, le_max_right _ _, rfl⟩
  have hlow : (0 : ℤ) ≤ roundEven (x / 2 ^ place x) := by
    apply le_roundEven
    push_cast
    positivity
  rw [abs_of_nonneg hlow]
  apply roundEven_le
  exact_mod_cast div_place_lt.le

theorem nearestAbs_nearest {x w : ℝ} (hx : 0 < x) (hw : Representable w) :
    |nearestAbs x - x| ≤ |w - x| := by
  have hpos : (0 : ℝ) < 2 ^ place x := by positivity
  -- Among the multiples of the last place, by the nearest integer.
  have hmultiple (k : ℤ) : |nearestAbs x - x| ≤ |k * 2 ^ place x - x| := by
    have h := mul_le_mul_of_nonneg_right (roundEven_nearest (x / 2 ^ place x) k) hpos.le
    rw [← abs_of_pos hpos, ← abs_mul, ← abs_mul, abs_of_pos hpos, sub_mul, sub_mul,
      div_mul_cancel₀ _ hpos.ne'] at h
    exact h
  obtain ⟨k, e, hk, he, rfl⟩ := hw
  by_cases hplace : place x ≤ e
  · obtain ⟨n, hn⟩ := Int.le.dest hplace
    have heq : (k : ℝ) * 2 ^ e = (k * 2 ^ n : ℤ) * 2 ^ place x := by
      rw [← hn, zpow_add₀ (by norm_num), zpow_natCast]
      push_cast
      ring
    rw [heq]
    exact hmultiple _
  · -- A finer number is below 2^52 last places, which is not above `x`.
    have hcoarse := (le_div_iff₀ hpos).mp (le_div_place hx (by omega))
    have hfine : (k : ℝ) * 2 ^ e ≤ 2 ^ 52 * 2 ^ place x := by
      have hkR : (k : ℝ) ≤ 2 ^ 53 := by exact_mod_cast (le_abs_self k).trans hk
      have hpow : (2 : ℝ) ^ (e + 1) ≤ 2 ^ place x :=
        zpow_le_zpow_right₀ (by norm_num) (by omega)
      rw [zpow_add₀ (by norm_num), zpow_one] at hpow
      have hmul := mul_le_mul_of_nonneg_right hkR (by positivity : (0 : ℝ) ≤ 2 ^ e)
      linarith
    have h := hmultiple (2 ^ 52)
    rw [Int.cast_pow, Int.cast_ofNat] at h
    rw [abs_of_nonpos (by linarith : (2 : ℝ) ^ 52 * 2 ^ place x - x ≤ 0)] at h
    rw [abs_of_nonpos (by linarith : (k : ℝ) * 2 ^ e - x ≤ 0)]
    linarith

theorem nearest_of_nonneg {x : ℝ} (hx : 0 ≤ x) : nearest x = nearestAbs x :=
  if_neg hx.not_gt

theorem nearest_zero : nearest 0 = 0 := by
  rw [nearest_of_nonneg le_rfl, nearestAbs, zero_div]
  have := roundEven_intCast 0
  push_cast at this
  rw [this]
  simp

theorem nearest_neg (x : ℝ) : nearest (-x) = -nearest x := by
  rcases lt_trichotomy x 0 with hx | rfl | hx
  · rw [nearest_of_nonneg (by linarith), nearest, if_pos hx, neg_neg]
  · rw [neg_zero, nearest_zero, neg_zero]
  · rw [nearest, if_pos (by linarith), neg_neg, nearest_of_nonneg hx.le]

theorem representable_nearest (x : ℝ) : Representable (nearest x) := by
  rw [nearest]
  split_ifs with hx
  · exact (representable_nearestAbs (by linarith)).neg
  · exact representable_nearestAbs (not_lt.mp hx)

/-- No number of 53 bits is nearer. -/
theorem nearest_nearest {w : ℝ} (x : ℝ) (hw : Representable w) : |nearest x - x| ≤ |w - x| := by
  rcases lt_trichotomy x 0 with hx | rfl | hx
  · have h := nearestAbs_nearest (neg_pos.mpr hx) hw.neg
    rw [nearest, if_pos hx]
    rw [← abs_neg, ← abs_neg (w - x)]
    convert h using 2 <;> ring
  · simp [nearest_zero]
  · rw [nearest_of_nonneg hx.le]
    exact nearestAbs_nearest hx hw

theorem nearest_eq {x : ℝ} (hx : Representable x) : nearest x = x := by
  have h := nearest_nearest x hx
  rw [sub_self, abs_zero] at h
  linarith [abs_nonpos_iff.mp h]

theorem nearest_mono {x y : ℝ} (h : x ≤ y) : nearest x ≤ nearest y := by
  rcases h.eq_or_lt with rfl | hlt
  · exact le_rfl
  · by_contra! hgt
    have hx := sq_le_sq.mpr (nearest_nearest x (representable_nearest y))
    have hy := sq_le_sq.mpr (nearest_nearest y (representable_nearest x))
    nlinarith

theorem nearest_le {x w : ℝ} (hw : Representable w) (h : x ≤ w) : nearest x ≤ w := by
  simpa [nearest_eq hw] using nearest_mono h

theorem le_nearest {x w : ℝ} (hw : Representable w) (h : w ≤ x) : w ≤ nearest x := by
  simpa [nearest_eq hw] using nearest_mono h

theorem nearest_nonneg {x : ℝ} (h : 0 ≤ x) : 0 ≤ nearest x := le_nearest representable_zero h

theorem abs_nearest_le_natCast {x : ℝ} {n : ℕ} (hn : n ≤ 2 ^ 53) (h : |x| ≤ n) :
    |nearest x| ≤ n := by
  have hrep : Representable n := by
    simpa using representable_intCast (k := n) (by rw [Nat.abs_cast]; exact_mod_cast hn)
  rw [abs_le] at h ⊢
  exact ⟨le_nearest hrep.neg h.1, nearest_le hrep h.2⟩

/-- Rounding leads at most as far from a number of 53 bits as the exact value was away. -/
theorem abs_nearest_sub_le {w : ℝ} (x : ℝ) (hw : Representable w) :
    |nearest x - w| ≤ 2 * |x - w| := by
  have htriangle := abs_sub_le (nearest x) x w
  have hnear := nearest_nearest x hw
  rw [abs_sub_comm w] at hnear
  linarith

theorem abs_nearest_le (x : ℝ) : |nearest x| ≤ 2 * |x| := by
  simpa using abs_nearest_sub_le x representable_zero

theorem nearestAbs_error (x : ℝ) : |nearestAbs x - x| ≤ 2 ^ place x / 2 := by
  have hpos : (0 : ℝ) < 2 ^ place x := by positivity
  have herror := mul_le_mul_of_nonneg_right (roundEven_error (x / 2 ^ place x)) hpos.le
  rw [← abs_of_pos hpos, ← abs_mul, abs_of_pos hpos, sub_mul, div_mul_cancel₀ _ hpos.ne'] at herror
  rw [nearestAbs]
  linarith

/-- Rounding moves a number by half of its last place at most. -/
theorem abs_nearest_sub_self_le (x : ℝ) : |nearest x - x| ≤ |x| / 2 ^ 53 + least / 2 := by
  have hleast := least_pos
  have hpos (y : ℝ) (hy : 0 < y) : |nearest y - y| ≤ y / 2 ^ 53 + least / 2 := by
    have herror := nearestAbs_error y
    rw [nearest_of_nonneg hy.le]
    by_cases hplace : place y = -1074
    · rw [hplace, ← least] at herror
      have : 0 ≤ y / 2 ^ 53 := by positivity
      linarith
    · have hcoarse := (le_div_iff₀ (by positivity)).mp (le_div_place hy hplace)
      norm_num at hcoarse ⊢
      linarith
  rcases lt_trichotomy x 0 with hx | rfl | hx
  · have h := hpos (-x) (neg_pos.mpr hx)
    rw [nearest_neg, ← neg_sub', abs_neg] at h
    rwa [abs_of_neg hx]
  · rw [nearest_zero, sub_self, abs_zero]
    positivity
  · rw [abs_of_pos hx]
    exact hpos x hx

theorem abs_nearest_lt {x : ℝ} (h : |x| < overflow) : |nearest x| < 2 ^ 53 * top := by
  have hpos := top_pos
  have hmax (y : ℝ) (hy : y < overflow) : nearest y < 2 ^ 53 * top := by
    rw [overflow] at hy
    by_cases hle : y ≤ largest
    · have hlargest := nearest_le representable_largest hle
      rw [largest] at hlargest
      linarith
    · have hnear := nearest_nearest y representable_largest
      rw [abs_of_nonpos (by linarith : largest - y ≤ 0)] at hnear
      have := (abs_le.mp hnear).2
      rw [largest] at this
      linarith
  rw [abs_lt] at h ⊢
  have hneg := hmax (-x) (by linarith)
  rw [nearest_neg] at hneg
  exact ⟨by linarith, hmax x h.2⟩

end

end ScanMatch.Binary64
