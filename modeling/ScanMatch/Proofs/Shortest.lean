import ScanMatch.Proofs.Exact
import ScanMatch.Proofs.Nearest
import ScanMatch.Proofs.Decimals
import ScanMatch.Decimal.Shortest

/-!
# Shortest decimals

The search for a shortest decimal ends on a grid with a point among the reals that round to the
value, so what it finds rounds to the value.
-/
namespace ScanMatch

open Binary64

namespace Binary64

theorem roundEven_eq {x : ℝ} {n : ℤ} (h : |x - n| ≤ 1 / 2) (hodd : n % 2 = 1 → |x - n| < 1 / 2) :
    roundEven x = n := by
  rw [abs_le] at h
  have hodd' : n % 2 = 1 → -(1 / 2) < x - n ∧ x - n < 1 / 2 := fun h => abs_lt.1 (hodd h)
  rcases le_or_gt (n : ℝ) x with hx | hx
  · have hfloor : ⌊x⌋ = n := Int.floor_eq_iff.2 ⟨hx, by linarith⟩
    rw [roundEven, hfloor]
    split_ifs with hlow hhigh
    · rfl
    · linarith
    · rcases Int.emod_two_eq_zero_or_one n with heven | hodd
      · rw [heven, add_zero]
      · exact absurd (hodd' hodd).2 hlow
  · have hfloor : ⌊x⌋ = n - 1 := Int.floor_eq_iff.2 ⟨by push_cast; linarith, by push_cast; linarith⟩
    rw [roundEven, hfloor]
    push_cast
    split_ifs with hlow hhigh
    · linarith
    · ring
    · rcases Int.emod_two_eq_zero_or_one n with heven | hodd
      · omega
      · have := (hodd' hodd).1
        exact absurd (by linarith) hhigh

theorem place_eq {x : ℝ} {p : ℤ} (hx : 0 < x) (hp : -1074 ≤ p) (hhigh : x < 2 ^ 53 * 2 ^ p)
    (hlow : 2 ^ 52 * 2 ^ p ≤ x ∨ p = -1074) : place x = p := by
  have hlog : Int.log 2 x < 53 + p := by
    rw [← Int.lt_zpow_iff_log_lt (by decide) hx]
    push_cast
    rwa [zpow_add₀ (by norm_num)]
  rw [place]
  rcases hlow with hlow | rfl
  · have hlog' : 52 + p ≤ Int.log 2 x := by
      rw [← Int.zpow_le_iff_le_log (by decide) hx]
      push_cast
      rwa [zpow_add₀ (by norm_num)]
    omega
  · omega

theorem nearest_eq_mul {x : ℝ} {n p : ℤ} (hx : 0 < x) (hp : place x = p)
    (h : |x / 2 ^ p - n| ≤ 1 / 2) (hodd : n % 2 = 1 → |x / 2 ^ p - n| < 1 / 2) :
    nearest x = n * 2 ^ p := by
  rw [nearest_of_nonneg hx.le, nearestAbs, hp, roundEven_eq h hodd]

/-- Powers of ten are compared with powers of two by `10 ^ 3 ≤ 2 ^ 10` and `2 ^ 33 ≤ 10 ^ 10`. -/
theorem ten_zpow_le {k t : ℤ} (h : 10 * k ≤ 3 * t) (h' : 33 * k ≤ 10 * t) :
    (10 : ℝ) ^ k ≤ 2 ^ t := by
  have hten : (0 : ℝ) ≤ 10 ^ k := by positivity
  have htwo : (0 : ℝ) ≤ 2 ^ t := by positivity
  rcases le_or_gt 0 k with hk | hk
  · rw [← pow_le_pow_iff_left₀ hten htwo (by decide : 3 ≠ 0)]
    calc ((10 : ℝ) ^ k) ^ 3 = (10 ^ 3) ^ k := by rw [← zpow_natCast, zpow_comm, zpow_natCast]
      _ ≤ (2 ^ 10) ^ k := zpow_le_zpow_left₀ hk (by norm_num) (by norm_num)
      _ = 2 ^ (10 * k) := by rw [zpow_mul]; norm_cast
      _ ≤ 2 ^ (3 * t) := zpow_le_zpow_right₀ (by norm_num) h
      _ = (2 ^ t) ^ 3 := by rw [mul_comm, zpow_mul]; norm_cast
  · rw [← pow_le_pow_iff_left₀ hten htwo (by decide : 10 ≠ 0)]
    calc ((10 : ℝ) ^ k) ^ 10 = (10 ^ 10) ^ k := by rw [← zpow_natCast, zpow_comm, zpow_natCast]
      _ ≤ (2 ^ 33) ^ k := by
        rw [← inv_le_inv₀ (by positivity) (by positivity), ← zpow_neg, ← zpow_neg]
        exact zpow_le_zpow_left₀ (by omega) (by norm_num) (by norm_num)
      _ = 2 ^ (33 * k) := by rw [zpow_mul]; norm_cast
      _ ≤ 2 ^ (10 * t) := zpow_le_zpow_right₀ (by norm_num) h'
      _ = (2 ^ t) ^ 10 := by rw [mul_comm, zpow_mul]; norm_cast

end Binary64

namespace Magnitude

/-- A positive magnitude in canonical form. -/
structure Canonical (m : Magnitude) : Prop where
  pos : 0 < m.significand
  lt : m.significand < 2 ^ 53
  least : -1074 ≤ m.exponent
  greatest : m.exponent ≤ 971
  full : 2 ^ 52 ≤ m.significand ∨ m.exponent = -1074

noncomputable def value (m : Magnitude) : ℝ := m.significand * 2 ^ m.exponent

/-- The reals that round to a magnitude, in quarters of its last place. Of an even significand
the ends belong to them. -/
structure Covers (m : Magnitude) (x : ℝ) : Prop where
  low : (4 * m.significand - m.gapBelow : ℝ) * 2 ^ (m.exponent - 2) ≤ x
  high : x ≤ (4 * m.significand + 2 : ℝ) * 2 ^ (m.exponent - 2)
  odd : m.significand % 2 = 1 → (4 * m.significand - m.gapBelow : ℝ) * 2 ^ (m.exponent - 2) < x ∧
    x < (4 * m.significand + 2 : ℝ) * 2 ^ (m.exponent - 2)

theorem gapBelow_cases (m : Magnitude) :
    m.gapBelow = 1 ∧ m.significand = 2 ^ 52 ∧ -1074 < m.exponent ∨
      m.gapBelow = 2 ∧ ¬ (m.significand = 2 ^ 52 ∧ -1074 < m.exponent) := by
  rw [gapBelow, Nat.one_shiftLeft]
  split_ifs with h
  · exact .inl ⟨rfl, h⟩
  · exact .inr ⟨rfl, h⟩

variable {m : Magnitude} {x : ℝ}

/-- The same in last places. -/
theorem Covers.div (h : m.Covers x) :
    m.significand - m.gapBelow / 4 ≤ x / 2 ^ m.exponent ∧
      x / 2 ^ m.exponent ≤ m.significand + 1 / 2 ∧
      (m.significand % 2 = 1 → m.significand - m.gapBelow / 4 < x / 2 ^ m.exponent ∧
        x / 2 ^ m.exponent < m.significand + 1 / 2) := by
  have hquarter : (2 : ℝ) ^ (m.exponent - 2) = 2 ^ m.exponent / 4 := by
    rw [zpow_sub₀ (by norm_num)]
    norm_num
  have hpos : (0 : ℝ) < 2 ^ m.exponent := by positivity
  obtain ⟨hlow, hhigh, hodd⟩ := h
  rw [hquarter] at hlow hhigh hodd
  rw [le_div_iff₀ hpos, div_le_iff₀ hpos, lt_div_iff₀ hpos, div_lt_iff₀ hpos]
  refine ⟨by linarith, by linarith, fun hs => ?_⟩
  have := hodd hs
  constructor <;> linarith

theorem gapBelow_le (m : Magnitude) : (m.gapBelow : ℝ) ≤ 2 := by
  rcases m.gapBelow_cases with ⟨h, -⟩ | ⟨h, -⟩ <;> rw [h] <;> norm_num

theorem Covers.half_le (h : m.Covers x) (hm : m.Canonical) : 2 ^ (-1075 : ℤ) ≤ x := by
  have hone : (1 : ℝ) ≤ m.significand := by exact_mod_cast hm.pos
  have hgap := m.gapBelow_le
  have hpow : (2 : ℝ) ^ (-1074 : ℤ) ≤ 2 ^ m.exponent :=
    zpow_le_zpow_right₀ (by norm_num) hm.least
  have hhalf : (2 : ℝ) ^ (-1075 : ℤ) = 1 / 2 * 2 ^ (-1074 : ℤ) := by
    rw [show (-1075 : ℤ) = -1 + -1074 by norm_num, zpow_add₀ (by norm_num)]
    norm_num
  have hdiv : 1 / 2 ≤ x / 2 ^ m.exponent := by linarith [h.div.1]
  rw [le_div_iff₀ (by positivity)] at hdiv
  rw [hhalf]
  linarith

theorem Covers.pos (h : m.Covers x) (hm : m.Canonical) : 0 < x :=
  lt_of_lt_of_le (by positivity) (h.half_le hm)

theorem Covers.nearest_eq (h : m.Covers x) (hm : m.Canonical) : nearest x = m.value := by
  have hx := h.pos hm
  have hpos : (0 : ℝ) < 2 ^ m.exponent := by positivity
  obtain ⟨hlow, hhigh, hodd⟩ := h.div
  have hgap := m.gapBelow_le
  have hlt : (m.significand : ℝ) ≤ 2 ^ 53 - 1 := by
    have : (m.significand : ℝ) + 1 ≤ 2 ^ 53 := by exact_mod_cast hm.lt
    linarith
  by_cases hbinade : 2 ^ 52 * 2 ^ m.exponent ≤ x ∨ m.exponent = -1074
  · have hplace := place_eq hx hm.least (by rw [← div_lt_iff₀ hpos]; linarith) hbinade
    have hnearest := nearest_eq_mul (n := m.significand) hx hplace
      (by rw [abs_le]; push_cast; constructor <;> linarith) (by
        intro hs
        have := hodd (by omega)
        rw [abs_lt]
        push_cast
        constructor <;> linarith)
    rw [hnearest, value, Int.cast_natCast]
  · -- Below a power of two the last place is half as great.
    obtain ⟨hbelow, hexponent⟩ := not_or.1 hbinade
    rw [not_le, ← div_lt_iff₀ hpos] at hbelow
    have hs : m.significand = 2 ^ 52 := by
      have hfull := hm.full.resolve_right hexponent
      have hle : (m.significand : ℝ) < 2 ^ 52 + 1 := by linarith
      have : m.significand < 2 ^ 52 + 1 := by exact_mod_cast hle
      omega
    have hquarter : m.gapBelow = 1 := by
      rcases m.gapBelow_cases with ⟨h, -⟩ | ⟨-, h⟩
      · exact h
      · exact absurd ⟨hs, lt_of_le_of_ne hm.least (Ne.symm hexponent)⟩ h
    have hhalf : x / 2 ^ (m.exponent - 1) = 2 * (x / 2 ^ m.exponent) := by
      rw [zpow_sub_one₀ (by norm_num)]
      field_simp
    rw [hs, hquarter] at hlow
    push_cast at hlow
    have hpos' : (0 : ℝ) < 2 ^ (m.exponent - 1) := by positivity
    have hplace : place x = m.exponent - 1 := by
      apply place_eq hx (by have := hm.least; omega)
      · rw [← div_lt_iff₀ hpos', hhalf]
        linarith
      · left
        rw [← le_div_iff₀ hpos', hhalf]
        linarith
    have hnearest := nearest_eq_mul (n := 2 ^ 53) hx hplace
      (by rw [hhalf, abs_le]; push_cast; constructor <;> linarith)
      (fun hone => absurd hone (by decide))
    rw [hnearest, value, hs, zpow_sub_one₀ (by norm_num)]
    push_cast
    ring

theorem Covers.lt_overflow (h : m.Covers x) (hm : m.Canonical) : x < overflow := by
  obtain ⟨-, hhigh, hodd⟩ := h.div
  have hpos : (0 : ℝ) < 2 ^ m.exponent := by positivity
  have hpow : (2 : ℝ) ^ m.exponent ≤ top := zpow_le_zpow_right₀ (by norm_num) hm.greatest
  have hlt : x / 2 ^ m.exponent < 2 ^ 53 - 1 / 2 := by
    rcases Nat.mod_two_eq_zero_or_one m.significand with heven | hone
    · have hle : m.significand + 2 ≤ 2 ^ 53 := by have := hm.lt; omega
      have : (m.significand : ℝ) + 2 ≤ 2 ^ 53 := by exact_mod_cast hle
      linarith
    · have hle : (m.significand : ℝ) + 1 ≤ 2 ^ 53 := by exact_mod_cast hm.lt
      linarith [(hodd hone).2]
  rw [div_lt_iff₀ hpos] at hlt
  rw [overflow]
  exact hlt.trans_le (mul_le_mul_of_nonneg_left hpow (by norm_num))

/-! ### Grids -/

/-- What the search counts in: `unit` times `2 ^ (exponent - 2)` is `scale` times `10 ^ k`. -/
def scale (m : Magnitude) (k : ℤ) : ℕ := Nat.pow 10 (-k).toNat <<< (m.exponent - 2).toNat

def unit (m : Magnitude) (k : ℤ) : ℕ := Nat.pow 10 k.toNat <<< (-(m.exponent - 2)).toNat

theorem scale_pos (m : Magnitude) (k : ℤ) : 0 < m.scale k := by
  rw [scale, Nat.shiftLeft_eq]
  exact Nat.mul_pos (Nat.pow_pos (by decide)) (Nat.two_pow_pos _)

theorem unit_pos (m : Magnitude) (k : ℤ) : 0 < m.unit k := by
  rw [unit, Nat.shiftLeft_eq]
  exact Nat.mul_pos (Nat.pow_pos (by decide)) (Nat.two_pow_pos _)

theorem pow_toNat {b : ℝ} (hb : b ≠ 0) (k : ℤ) : b ^ k.toNat = b ^ (-k).toNat * b ^ k := by
  rw [← zpow_natCast, ← zpow_natCast, ← zpow_add₀ hb]
  congr 1
  omega

/-- Both are counted in the same measure. -/
theorem exists_measure (m : Magnitude) (k : ℤ) :
    ∃ t : ℝ, 0 < t ∧ (m.scale k : ℝ) = 2 ^ (m.exponent - 2) * t ∧ (m.unit k : ℝ) = 10 ^ k * t := by
  refine ⟨10 ^ (-k).toNat * 2 ^ (-(m.exponent - 2)).toNat, by positivity, ?_, ?_⟩
  · rw [scale, Nat.shiftLeft_eq, Nat.pow_eq]
    push_cast
    rw [pow_toNat (by norm_num : (2 : ℝ) ≠ 0) (m.exponent - 2)]
    ring
  · rw [unit, Nat.shiftLeft_eq, Nat.pow_eq]
    push_cast
    rw [pow_toNat (by norm_num : (10 : ℝ) ≠ 0) k]
    ring

theorem scale_le_unit_iff {k : ℤ} {a b : ℕ} :
    a * m.scale k ≤ b * m.unit k ↔ (a : ℝ) * 2 ^ (m.exponent - 2) ≤ b * 10 ^ k := by
  obtain ⟨t, ht, hscale, hunit⟩ := m.exists_measure k
  rw [← Nat.cast_le (α := ℝ), Nat.cast_mul, Nat.cast_mul, hscale, hunit, ← mul_assoc, ← mul_assoc,
    mul_le_mul_iff_left₀ ht]

theorem unit_le_scale_iff {k : ℤ} {a b : ℕ} :
    b * m.unit k ≤ a * m.scale k ↔ (b : ℝ) * 10 ^ k ≤ a * 2 ^ (m.exponent - 2) := by
  obtain ⟨t, ht, hscale, hunit⟩ := m.exists_measure k
  rw [← Nat.cast_le (α := ℝ), Nat.cast_mul, Nat.cast_mul, hscale, hunit, ← mul_assoc, ← mul_assoc,
    mul_le_mul_iff_left₀ ht]

theorem covers_of_roundsFrom {k : ℤ} {c : ℕ} (hm : m.Canonical)
    (h : m.roundsFrom (m.scale k) (m.unit k) c = true) : m.Covers (c * 10 ^ k) := by
  have hgap : m.gapBelow ≤ 4 * m.significand := by
    have := hm.pos
    rcases m.gapBelow_cases with ⟨h, -⟩ | ⟨h, -⟩ <;> omega
  rw [roundsFrom] at h
  split_ifs at h with heven
  · rw [Bool.and_eq_true, decide_eq_true_eq, decide_eq_true_eq, scale_le_unit_iff,
      unit_le_scale_iff] at h
    push_cast [Nat.cast_sub hgap] at h
    exact ⟨h.1, h.2, fun hodd => by omega⟩
  · rw [Bool.and_eq_true, decide_eq_true_eq, decide_eq_true_eq,
      lt_iff_lt_of_le_iff_le unit_le_scale_iff, lt_iff_lt_of_le_iff_le scale_le_unit_iff] at h
    push_cast [Nat.cast_sub hgap] at h
    exact ⟨h.1.le, h.2.le, fun _ => h⟩

theorem roundsFrom_of_onGrid? {tie : Tie} {k : ℤ} {c : ℕ} (h : onGrid? tie m k = some c) :
    m.roundsFrom (m.scale k) (m.unit k) c = true := by
  unfold onGrid? at h
  dsimp only at h
  split at h
  · cases h
  · next hbelow _ =>
    cases h
    exact hbelow
  · next _ habove =>
    cases h
    exact habove
  · next hbelow habove =>
    split at h
    · cases h
      exact hbelow
    · cases h
      exact habove
    · cases tie with
      | up =>
        cases h
        exact habove
      | even =>
        dsimp only at h
        split at h
        · cases h
          exact hbelow
        · cases h
          exact habove

theorem onGrid?_isSome (tie : Tie) {k : ℤ} (hm : m.Canonical) (hk : m.unit k ≤ m.scale k) :
    ∃ c, onGrid? tie m k = some c := by
  have hbelow : m.roundsFrom (m.scale k) (m.unit k)
      (4 * m.significand * m.scale k / m.unit k) = true := by
    have hscale := m.scale_pos k
    have hfloor := Nat.div_mul_le_self (4 * m.significand * m.scale k) (m.unit k)
    have hnext := Nat.lt_div_mul_add (a := 4 * m.significand * m.scale k) (m.unit_pos k)
    have hfour : 4 * m.scale k ≤ 4 * m.significand * m.scale k :=
      Nat.mul_le_mul_right _ (by have := hm.pos; omega)
    have hlow : (4 * m.significand - m.gapBelow) * m.scale k <
        4 * m.significand * m.scale k / m.unit k * m.unit k := by
      rw [Nat.sub_mul]
      rcases m.gapBelow_cases with ⟨h, -⟩ | ⟨h, -⟩ <;> rw [h] <;> omega
    have hhigh : 4 * m.significand * m.scale k / m.unit k * m.unit k <
        (4 * m.significand + 2) * m.scale k := by
      rw [Nat.add_mul]
      omega
    rw [roundsFrom]
    simp [hlow, hhigh, hlow.le, hhigh.le]
  unfold onGrid?
  dsimp only
  split
  · next h _ =>
    exact absurd (hbelow.symm.trans h) (by decide)
  · exact ⟨_, rfl⟩
  · exact ⟨_, rfl⟩
  · split
    · exact ⟨_, rfl⟩
    · exact ⟨_, rfl⟩
    · cases tie <;> exact ⟨_, rfl⟩

theorem shortestFrom_spec {tie : Tie} {fuel : ℕ} : ∀ {k : ℤ},
    (∃ c, onGrid? tie m (k - fuel) = some c) →
    ∃ c k', shortestFrom tie m k fuel = ⟨c, k'⟩ ∧ onGrid? tie m k' = some c := by
  induction fuel with
  | zero =>
    rintro k ⟨c, hc⟩
    rw [Nat.cast_zero, sub_zero] at hc
    exact ⟨c, k, by rw [shortestFrom, hc, Option.getD_some], hc⟩
  | succ fuel ih =>
    rintro k ⟨c, hc⟩
    rw [shortestFrom]
    cases hk : onGrid? tie m k with
    | some c' => exact ⟨c', k, rfl, hk⟩
    | none =>
      apply ih
      refine ⟨c, ?_⟩
      rw [← hc]
      congr 1
      push_cast
      ring

/-- The grids end where a unit is at most a quarter of the last place. -/
theorem covers_shortest (tie : Tie) (hm : m.Canonical) : m.Covers (m.shortest tie).value := by
  have hlog : m.significand.log2 ≤ 52 :=
    Nat.lt_succ_iff.1 ((Nat.log2_lt hm.pos.ne').2 hm.lt)
  have hleast := hm.least
  have hgreatest := hm.greatest
  rw [shortest]
  generalize hk : ((m.significand.log2 : ℤ) + m.exponent + 1) * 30103 / 100000 + 1 = k
  have hfine : (10 : ℝ) ^ (k - (24 : ℕ)) ≤ 2 ^ (m.exponent - 2) :=
    ten_zpow_le (by push_cast; omega) (by push_cast; omega)
  have hunit : m.unit (k - (24 : ℕ)) ≤ m.scale (k - (24 : ℕ)) := by
    have h := unit_le_scale_iff (m := m) (k := k - (24 : ℕ)) (a := 1) (b := 1)
    rw [one_mul, one_mul, Nat.cast_one, one_mul, one_mul] at h
    exact h.2 hfine
  obtain ⟨c, k', hshortest, hgrid⟩ := shortestFrom_spec (onGrid?_isSome tie hm hunit)
  simp only [hshortest]
  exact covers_of_roundsFrom hm (roundsFrom_of_onGrid? hgrid)

end Magnitude

end ScanMatch
