import Mathlib.Data.EReal.Basic
import ScanMatch.Proofs.Exact
import ScanMatch.Proofs.Unpacked
import ScanMatch.Scalar.Binary

/-! # Binary floating point as rounded real arithmetic

Every finite value of the 64-bit format stands for a real number. An operation on finite values
gives the number nearest to the exact result, if that is not too great.
-/
namespace ScanMatch.Binary64

open Float.Model Float.Model.UnpackedFloat

noncomputable section

/-! ### Values -/

/-- A finite value and its number. -/
def Reads (x : Float) (a : ℝ) : Prop := real? x.toModel.unpack = some a

theorem Reads.holds {x : Float} {a : ℝ} (h : Reads x a) : Holds x.toModel.unpack a :=
  ⟨canonical_unpack _, h⟩

theorem isFinite_iff (x : Float) : x.isFinite = true ↔ ∃ a, Reads x a := by
  change x.toModel.unpack.isFinite = true ↔ ∃ a, real? x.toModel.unpack = some a
  cases x.toModel.unpack <;> simp [UnpackedFloat.isFinite, real?]

theorem Reads.isFinite {x : Float} {a : ℝ} (h : Reads x a) : x.isFinite = true :=
  (isFinite_iff x).mpr ⟨a, h⟩

theorem exponent_unpack_le {b : BitVec 64} {s : Sign} {m : ℕ} {e : ℤ} {hm : 0 < m}
    (h : UnpackedFloat.unpack .binary64 b = .finite s m e hm) : e ≤ 971 := by
  have hlt : (@unpackExponent .binary64 b).toNat < 2 ^ 11 := (@unpackExponent .binary64 b).isLt
  rw [UnpackedFloat.unpack] at h
  dsimp only at h
  split_ifs at h with hones _ hexp
  · obtain ⟨-, -, rfl⟩ := h
    rw [hexp]
    decide
  · obtain ⟨-, -, rfl⟩ := h
    have hne : (@unpackExponent .binary64 b).toNat ≠ 2047 :=
      fun h1 => hones (BitVec.eq_of_toNat_eq h1)
    change ((@unpackExponent .binary64 b).toNat : ℤ) - 1075 ≤ 971
    omega

theorem Reads.abs_le_largest {x : Float} {a : ℝ} (h : Reads x a) : |a| ≤ largest := by
  rcases h.holds.cases with ⟨s, -, rfl⟩ | ⟨s, m, e, hm, hunpack, rfl⟩
  · rw [abs_zero]
    exact mul_nonneg (by norm_num) top_pos.le
  · have hcanonical := h.holds.canonical
    rw [hunpack] at hcanonical
    have hm53 : m + 1 ≤ 2 ^ 53 := hcanonical.1
    have hmR : (m : ℝ) ≤ 2 ^ 53 - 1 := by
      have : (m : ℝ) + 1 ≤ 2 ^ 53 := by exact_mod_cast hm53
      linarith
    have hpow : (2 : ℝ) ^ e ≤ top :=
      zpow_le_zpow_right₀ (by norm_num) (exponent_unpack_le hunpack)
    rw [abs_signed s (by positivity), largest]
    exact mul_le_mul hmR hpow (by positivity) (by norm_num)

theorem Reads.representable {x : Float} {a : ℝ} (h : Reads x a) : Representable a :=
  h.holds.representable

/-- What a computation gives is packed. -/
theorem reads_of_holds {x : Float} {f : UnpackedFloat} {a : ℝ}
    (hx : x.toModel.unpack = UnpackedFloat.unpack .binary64 (UnpackedFloat.pack .binary64 f))
    (hf : Holds f (nearest a)) (ha : |a| < overflow) : Reads x (nearest a) := by
  rw [Reads, hx, hf.unpack_pack (abs_nearest_lt ha)]
  exact hf.real

theorem Reads.add {x y : Float} {a b : ℝ} (hx : Reads x a) (hy : Reads y b)
    (h : |a + b| < overflow) : Reads (x + y) (nearest (a + b)) :=
  reads_of_holds rfl (hx.holds.add hy.holds) h

theorem Reads.sub {x y : Float} {a b : ℝ} (hx : Reads x a) (hy : Reads y b)
    (h : |a - b| < overflow) : Reads (x - y) (nearest (a - b)) :=
  reads_of_holds rfl (hx.holds.sub hy.holds) h

theorem Reads.mul {x y : Float} {a b : ℝ} (hx : Reads x a) (hy : Reads y b)
    (h : |a * b| < overflow) : Reads (x * y) (nearest (a * b)) :=
  reads_of_holds rfl (hx.holds.mul hy.holds) h

theorem Reads.div {x y : Float} {a b : ℝ} (hx : Reads x a) (hy : Reads y b) (hb : b ≠ 0)
    (h : |a / b| < overflow) : Reads (x / y) (nearest (a / b)) :=
  reads_of_holds rfl (hx.holds.div hy.holds hb) h

theorem largest_lt_overflow : largest < overflow := by
  have := top_pos
  rw [largest, overflow]
  linarith

theorem Reads.neg {x : Float} {a : ℝ} (h : Reads x a) : Reads (-x) (-a) := by
  have heq := nearest_eq h.representable.neg
  have hneg : Holds x.toModel.unpack.neg (nearest (-a)) := by
    rw [heq]
    exact h.holds.neg
  rw [← heq]
  refine reads_of_holds (x := -x) (f := x.toModel.unpack.neg) rfl hneg ?_
  rw [abs_neg]
  exact h.abs_le_largest.trans_lt largest_lt_overflow

theorem lt_iff (x y : Float) : x < y ↔ x.toModel.unpack.compare y.toModel.unpack = some .lt := by
  change decide (x.toModel < y.toModel) = true ↔ _
  rw [decide_eq_true_iff]
  change (x.toModel.unpack.compare y.toModel.unpack == some .lt) = true ↔ _
  rw [beq_iff_eq]

theorem le_iff (x y : Float) :
    x ≤ y ↔ (x.toModel.unpack.compare y.toModel.unpack).any Ordering.isLE = true := by
  change decide (x.toModel ≤ y.toModel) = true ↔ _
  rw [decide_eq_true_iff]
  rfl

theorem Reads.lt_iff {x y : Float} {a b : ℝ} (hx : Reads x a) (hy : Reads y b) :
    x < y ↔ a < b := by
  rw [Binary64.lt_iff, hx.holds.compare hy.holds, Option.some.injEq, compare_lt_iff_lt]

theorem Reads.le_iff {x y : Float} {a b : ℝ} (hx : Reads x a) (hy : Reads y b) :
    x ≤ y ↔ a ≤ b := by
  rw [Binary64.le_iff, hx.holds.compare hy.holds, Option.any_some, Ordering.isLE_iff_ne_gt,
    compare_gt_iff_gt, not_lt]

def NotANumber (x : Float) : Prop := x.toModel.unpack = .notANumber

theorem reads_cases (x : Float) :
    (∃ a, Reads x a) ∨ NotANumber x ∨ ∃ s, x.toModel.unpack = .infinity s := by
  cases hx : x.toModel.unpack with
  | zero s => exact Or.inl ⟨0, by rw [Reads, hx]; rfl⟩
  | finite s m e hm => exact Or.inl ⟨_, by rw [Reads, hx]; rfl⟩
  | notANumber => exact Or.inr (Or.inl hx)
  | infinity s => exact Or.inr (Or.inr ⟨s, rfl⟩)

theorem NotANumber.not_le {x : Float} (h : NotANumber x) (y : Float) : ¬ x ≤ y := by
  rw [Binary64.le_iff, h]
  exact Bool.false_ne_true

theorem NotANumber.not_lt {x : Float} (h : NotANumber x) (y : Float) : ¬ x < y := by
  rw [Binary64.lt_iff, h]
  nofun

/-- The extended real number that a value stands for. -/
def extended? (x : Float) : Option EReal :=
  match x.toModel.unpack with
  | .notANumber => none
  | .infinity .positive => some ⊤
  | .infinity .negative => some ⊥
  | f => (real? f).map fun a => (a : EReal)

theorem Reads.extended {x : Float} {a : ℝ} (h : Reads x a) : extended? x = some (a : EReal) := by
  rcases h.holds.cases with ⟨s, hx, -⟩ | ⟨s, m, e, hm, hx, -⟩
  all_goals
    rw [Reads, hx] at h
    rw [extended?, hx]
    exact congrArg (Option.map _) h

/-- Values are compared as extended real numbers. -/
theorem compare_unpack (x y : Float) : x.toModel.unpack.compare y.toModel.unpack =
    (extended? x).bind fun a => (extended? y).map (compare a) := by
  rcases reads_cases x with ⟨a, hx⟩ | hx | ⟨s, hx⟩
  · rw [hx.extended]
    rcases reads_cases y with ⟨b, hy⟩ | hy | ⟨t, hy⟩
    · rw [hx.holds.compare hy.holds, hy.extended]
      simp only [Option.bind_some, Option.map_some, ← cmp_eq_compare,
        EReal.coe_strictMono.cmp_map_eq]
    · rw [extended?, hy]
      cases x.toModel.unpack <;> rfl
    · rw [extended?, hy]
      cases t with
      | positive =>
        rw [hx.holds.compare_infinity.1]
        exact congrArg some (compare_lt_iff_lt.mpr (EReal.coe_lt_top a)).symm
      | negative =>
        rw [hx.holds.compare_infinity.2]
        exact congrArg some (compare_gt_iff_gt.mpr (EReal.bot_lt_coe a)).symm
  · rw [extended?, hx]
    cases y.toModel.unpack <;> rfl
  · rcases reads_cases y with ⟨b, hy⟩ | hy | ⟨t, hy⟩
    · rw [hy.extended, extended?, hx]
      cases s with
      | positive =>
        rw [hy.holds.infinity_compare.1]
        exact congrArg some (compare_gt_iff_gt.mpr (EReal.coe_lt_top b)).symm
      | negative =>
        rw [hy.holds.infinity_compare.2]
        exact congrArg some (compare_lt_iff_lt.mpr (EReal.bot_lt_coe b)).symm
    · rw [extended?, extended?, hx, hy]
      cases s <;> rfl
    · rw [extended?, extended?, hx, hy]
      have hsame (a : EReal) : some Ordering.eq = some (compare a a) :=
        congrArg some (compare_eq_iff_eq.mpr rfl).symm
      cases s with
      | positive =>
        cases t with
        | positive => exact hsame ⊤
        | negative => exact congrArg some (compare_gt_iff_gt.mpr bot_lt_top).symm
      | negative =>
        cases t with
        | positive => exact congrArg some (compare_lt_iff_lt.mpr bot_lt_top).symm
        | negative => exact hsame ⊥

theorem le_iff_extended {x y : Float} :
    x ≤ y ↔ ∃ a b, extended? x = some a ∧ extended? y = some b ∧ a ≤ b := by
  rw [Binary64.le_iff, compare_unpack]
  cases extended? x <;> cases extended? y <;> simp [Ordering.isLE_iff_ne_gt, compare_le_iff_le]

theorem lt_iff_extended {x y : Float} :
    x < y ↔ ∃ a b, extended? x = some a ∧ extended? y = some b ∧ a < b := by
  rw [Binary64.lt_iff, compare_unpack]
  cases extended? x <;> cases extended? y <;> simp [compare_lt_iff_lt]

theorem not_gt_of_le {x y : Float} (h : x ≤ y) : ¬ y < x := by
  rw [lt_iff_extended]
  rintro ⟨b, a, hy, hx, hba⟩
  obtain ⟨a', b', hx', hy', hab⟩ := le_iff_extended.mp h
  obtain rfl := Option.some.inj (hx.symm.trans hx')
  obtain rfl := Option.some.inj (hy.symm.trans hy')
  exact hab.not_gt hba

/-- A value between two finite ones is finite or not a number. -/
theorem reads_of_not_lt {x lo hi : Float} {a b : ℝ} (hlo : Reads lo a) (hhi : Reads hi b)
    (h : ¬ x < lo) (h' : ¬ hi < x) : NotANumber x ∨ ∃ c, Reads x c := by
  rcases reads_cases x with hread | hnan | ⟨s, hx⟩
  · exact Or.inr hread
  · exact Or.inl hnan
  · rw [Binary64.lt_iff, hx] at h h'
    cases s with
    | negative => exact absurd hlo.holds.infinity_compare.2 h
    | positive => exact absurd hhi.holds.compare_infinity.1 h'

theorem reads_of_le {x lo hi : Float} {a b : ℝ} (hlo : Reads lo a) (hhi : Reads hi b)
    (h : ¬ x < lo) (h' : x ≤ hi) : ∃ c, Reads x c :=
  (reads_of_not_lt hlo hhi h (not_gt_of_le h')).resolve_left fun hnan => hnan.not_le hi h'

theorem Reads.abs {x : Float} {a : ℝ} (h : Reads x a) : Reads x.abs |a| := by
  rw [Reads]
  change real? (UnpackedFloat.unpack .binary64 (UnpackedFloat.pack .binary64
    x.toModel.unpack.abs)) = some |a|
  have hholds : Holds x.toModel.unpack.abs |a| := by
    rcases h.holds.cases with ⟨s, hx, rfl⟩ | ⟨s, m, e, hm, hx, rfl⟩
    · rw [hx, abs_zero]
      exact holds_zero _
    · have hcanonical := h.holds.canonical
      rw [hx] at hcanonical ⊢
      refine ⟨hcanonical, congrArg some ?_⟩
      rw [abs_signed s (by positivity)]
      rfl
  have hlt : |(|a|)| < 2 ^ 53 * top := by
    rw [abs_abs]
    refine h.abs_le_largest.trans_lt ?_
    rw [largest]
    linarith [top_pos]
  rw [hholds.unpack_pack hlt]
  exact hholds.real

/-! ### Whole numbers -/

theorem lt_overflow {x : ℝ} (h : x ≤ 2 ^ 64) : x < overflow := by
  have hpow : (2 : ℝ) ^ (12 : ℤ) ≤ top := zpow_le_zpow_right₀ (by norm_num) (by decide)
  rw [overflow]
  norm_num at hpow h ⊢
  linarith

theorem reads_toFloat {n : ℕ} (h : n < 2 ^ 64) : Reads n.toUInt64.toFloat (nearest n) := by
  have hn : n.toUInt64.toNat = n := Nat.mod_eq_of_lt h
  have hholds := holds_ofUInt64 n.toUInt64
  rw [hn] at hholds
  refine reads_of_holds rfl hholds ?_
  rw [abs_of_nonneg (by positivity)]
  have hR : (n : ℝ) < 2 ^ 64 := by exact_mod_cast h
  exact lt_overflow hR.le

theorem reads_ofNat {n : ℕ} (h : n < 2 ^ 64) : Reads (ofNat n) (nearest n) := by
  have heq : ofNat n = n.toUInt64.toFloat := if_pos h
  rw [heq]
  exact reads_toFloat h

theorem reads_ofNat_exact {n : ℕ} (h : Representable n) (hlt : n < 2 ^ 64) :
    Reads (ofNat n) n := by
  have hread := reads_ofNat hlt
  rwa [nearest_eq h] at hread

theorem reads_ofInt {n : ℤ} (h : |n| ≤ 2 ^ 53) : Reads (ofInt n) n := by
  have hnat : (n.natAbs : ℤ) ≤ 2 ^ 53 := by rwa [Int.natCast_natAbs]
  have hcast : ((n.natAbs : ℤ) : ℝ) = n.natAbs := Int.cast_natCast _
  have hread := reads_ofNat (by omega : n.natAbs < 2 ^ 64)
  rw [← hcast, nearest_eq (representable_intCast (by rwa [Nat.abs_cast]))] at hread
  rw [ofInt]
  split_ifs with hneg
  · have heq : (n : ℝ) = -((n.natAbs : ℤ) : ℝ) := by
      rw [Int.natCast_natAbs, abs_of_neg hneg]
      push_cast
      ring
    rw [heq]
    exact hread.neg
  · have heq : (n : ℝ) = ((n.natAbs : ℤ) : ℝ) := by
      rw [Int.natCast_natAbs, abs_of_nonneg (not_lt.mp hneg)]
    rw [heq]
    exact hread

/-- Zero as the generic definitions spell it. -/
theorem reads_zero : Reads (@OfNat.ofNat Float 0 (Arith.instOfNat 0)) 0 := by
  have h := reads_ofInt (n := 0) (by decide)
  rwa [Int.cast_zero] at h

/-- The integer part, toward zero. -/
theorem Reads.smallPart {x : Float} {a : ℝ} (h : Reads x a) (ha : |a| < 2 ^ 63) :
    smallPart x = if a < 0 then -⌊-a⌋ else ⌊a⌋ := by
  have hzero : Reads (0 : Float) 0 := rfl
  rw [abs_lt] at ha
  have hlt : x < 0 ↔ a < 0 := h.lt_iff hzero
  rw [Binary64.smallPart]
  split_ifs with hx ha' ha'
  · have h64 := h.neg.holds.toUInt64 (by linarith) (by linarith)
    exact congrArg Neg.neg h64
  · exact absurd (hlt.mp hx) ha'
  · exact absurd (hlt.mpr ha') hx
  · exact h.holds.toUInt64 (by linarith) (by linarith)

/-- From 2^53 on all values are whole numbers. -/
theorem Representable.exists_int {a : ℝ} (h : Representable a) (ha : 2 ^ 53 ≤ |a|) :
    ∃ n : ℤ, a = n := by
  obtain ⟨k, e, hk, he, rfl⟩ := h
  have hkR : |(k : ℝ)| ≤ 2 ^ 53 := by exact_mod_cast hk
  have hpos : (0 : ℝ) < 2 ^ e := by positivity
  have hone : (1 : ℝ) ≤ 2 ^ e := by
    rw [abs_mul, abs_of_pos hpos] at ha
    by_contra! hlt
    nlinarith [abs_nonneg (k : ℝ)]
  have he0 : 0 ≤ e := by
    by_contra! hneg
    have hhalf : (2 : ℝ) ^ e ≤ 2 ^ (-1 : ℤ) := zpow_le_zpow_right₀ (by norm_num) (by omega)
    norm_num at hhalf
    linarith
  obtain ⟨n, rfl⟩ := Int.eq_ofNat_of_zero_le he0
  exact ⟨k * 2 ^ n, by push_cast; rw [zpow_natCast]⟩

theorem reads_two_pow (n : ℕ) (h : n < 64) : Reads (ofNat (2 ^ n)) (2 ^ n) := by
  have hrep : Representable ((2 ^ n : ℕ) : ℝ) := by
    push_cast
    exact representable_pow n
  have hread := reads_ofNat_exact hrep (Nat.pow_lt_pow_right (by decide) h)
  rwa [Nat.cast_pow, Nat.cast_ofNat] at hread

theorem Reads.floor {x : Float} {a : ℝ} (h : Reads x a) : Reads (floor x) ⌊a⌋ := by
  have hlimit : Reads (ofNat 9007199254740992) (2 ^ 53) := reads_two_pow 53 (by decide)
  by_cases hsmall : |a| < 2 ^ 53
  · obtain ⟨hlow, hhigh⟩ := abs_lt.mp hsmall
    have hbelow : -2 ^ 53 ≤ ⌊a⌋ := Int.le_floor.mpr (by exact_mod_cast hlow.le)
    have habove : ⌊a⌋ < 2 ^ 53 := Int.floor_lt.mpr (by exact_mod_cast hhigh)
    have hfloor : Reads (ofInt ⌊a⌋) ⌊a⌋ := reads_ofInt (by rw [abs_le]; constructor <;> omega)
    have hpart : Binary64.smallPart x = ⌊a⌋ ∨ Binary64.smallPart x = ⌊a⌋ + 1 := by
      rw [h.smallPart (hsmall.trans (by norm_num))]
      split_ifs
      · have hceil := Int.ceil_le_floor_add_one a
        have := Int.floor_le_ceil a
        rw [Int.floor_neg, neg_neg]
        omega
      · exact Or.inl rfl
    rw [Binary64.floor, if_pos ((h.abs.lt_iff hlimit).mpr hsmall)]
    rcases hpart with hpart | hpart
    · rw [hpart]
      dsimp only
      rw [if_neg (mt (h.lt_iff hfloor).mp (Int.floor_le a).not_gt)]
      by_cases hlt : (⌊a⌋ : ℝ) < a
      · rw [if_pos ((hfloor.lt_iff h).mpr hlt)]
        exact hfloor
      · have hwhole : a = ⌊a⌋ := le_antisymm (not_lt.mp hlt) (Int.floor_le a)
        rw [if_neg (mt (hfloor.lt_iff h).mp hlt), ← hwhole]
        exact h
    · have hnext : Reads (ofInt (⌊a⌋ + 1)) (⌊a⌋ + 1 : ℤ) :=
        reads_ofInt (by rw [abs_le]; constructor <;> omega)
      have hone : Reads (ofNat 1) 1 := by simpa using reads_two_pow 0 (by decide)
      have hvalue : ((⌊a⌋ + 1 : ℤ) : ℝ) - 1 = ⌊a⌋ := by
        push_cast
        ring
      rw [hpart]
      dsimp only
      rw [if_pos ((h.lt_iff hnext).mpr (by exact_mod_cast Int.lt_floor_add_one a))]
      have hread := hnext.sub hone (by
        rw [hvalue]
        exact hfloor.abs_le_largest.trans_lt largest_lt_overflow)
      rwa [hvalue, nearest_eq hfloor.representable] at hread
  · obtain ⟨n, rfl⟩ := h.representable.exists_int (not_lt.mp hsmall)
    rw [Binary64.floor, if_neg (mt (h.abs.lt_iff hlimit).mp hsmall), Int.floor_intCast]
    exact h

theorem Reads.ceil {x : Float} {a : ℝ} (h : Reads x a) : Reads (ceil x) ⌈a⌉ := by
  have hfloor := h.neg.floor.neg
  rwa [Int.floor_neg, Int.cast_neg, neg_neg] at hfloor

theorem Reads.isNaN {x : Float} {a : ℝ} (h : Reads x a) : x.isNaN = false := by
  change x.toModel.unpack.isNaN = false
  rcases h.holds.cases with ⟨s, hx, -⟩ | ⟨s, m, e, hm, hx, -⟩ <;> rw [hx] <;> rfl

theorem Reads.isInf {x : Float} {a : ℝ} (h : Reads x a) : x.isInf = false := by
  change x.toModel.unpack.isInf = false
  rcases h.holds.cases with ⟨s, hx, -⟩ | ⟨s, m, e, hm, hx, -⟩ <;> rw [hx] <;> rfl

theorem Reads.smallPart_intCast {x : Float} {k : ℤ} (h : Reads x k) (hk : |k| < 2 ^ 62) :
    Binary64.smallPart x = k := by
  have hkR : |(k : ℝ)| < 2 ^ 62 := by exact_mod_cast hk
  rw [h.smallPart (hkR.trans (by norm_num)), ← Int.cast_neg, Int.floor_intCast,
    Int.floor_intCast, neg_neg, ite_self]

/-- Whether a whole number is small enough for its integer part to be converted directly. -/
theorem Reads.abs_lt_limit_iff {x : Float} {k : ℤ} (h : Reads x k) :
    x.abs < ofNat 4611686018427387904 ↔ |k| < 2 ^ 62 := by
  have hlimit : Reads (ofNat 4611686018427387904) (2 ^ 62) := reads_two_pow 62 (by decide)
  rw [h.abs.lt_iff hlimit]
  exact_mod_cast Iff.rfl

theorem Reads.truncate {x : Float} {k : ℤ} (h : Reads x k) (hk : |k| < 2 ^ 62) {lo hi : ℤ}
    (hlo : lo ≤ k) (hhi : k ≤ hi) : truncate lo hi x = k := by
  rw [Binary64.truncate, h.isNaN, h.isInf, if_neg Bool.false_ne_true, if_neg Bool.false_ne_true,
    if_pos (h.abs_lt_limit_iff.mpr hk), h.smallPart_intCast hk]
  dsimp only
  rw [if_neg hlo.not_gt, if_neg hhi.not_gt]

theorem reads_ofInt_natCast {n : ℕ} (h : n < 2 ^ 64) : Reads (ofInt n) (nearest n) := by
  rw [ofInt, if_neg (by omega), Int.natAbs_natCast]
  exact reads_ofNat h

/-! ### What is not a number -/

theorem notANumber_of_eq {x : Float} {f : UnpackedFloat}
    (hx : x.toModel.unpack = UnpackedFloat.unpack .binary64 (UnpackedFloat.pack .binary64 f))
    (hf : f = .notANumber) : NotANumber x := by
  rw [NotANumber, hx, hf]
  rfl

theorem NotANumber.add_right {y : Float} (h : NotANumber y) (x : Float) : NotANumber (x + y) := by
  refine notANumber_of_eq rfl ?_
  rw [h]
  cases x.toModel.unpack <;> rfl

theorem NotANumber.sub_right {y : Float} (h : NotANumber y) (x : Float) : NotANumber (x - y) := by
  refine notANumber_of_eq rfl ?_
  rw [h]
  cases x.toModel.unpack <;> rfl

theorem NotANumber.div_left {x : Float} (h : NotANumber x) (y : Float) : NotANumber (x / y) := by
  refine notANumber_of_eq rfl ?_
  rw [h]
  cases y.toModel.unpack <;> rfl

theorem NotANumber.neg {x : Float} (h : NotANumber x) : NotANumber (-x) := by
  refine notANumber_of_eq (f := x.toModel.unpack.neg) rfl ?_
  rw [h]
  rfl

theorem NotANumber.abs {x : Float} (h : NotANumber x) : NotANumber x.abs := by
  refine notANumber_of_eq (f := x.toModel.unpack.abs) rfl ?_
  rw [h]
  rfl

theorem NotANumber.floor {x : Float} (h : NotANumber x) : NotANumber (floor x) := by
  rw [Binary64.floor, if_neg (h.abs.not_lt _)]
  exact h

theorem NotANumber.ceil {x : Float} (h : NotANumber x) : NotANumber (ceil x) := h.neg.floor.neg

theorem NotANumber.truncate {x : Float} (h : NotANumber x) (lo hi : ℤ) : truncate lo hi x = 0 := by
  have hnan : x.isNaN = true := by
    change x.toModel.unpack.isNaN = true
    rw [h]
    rfl
  rw [Binary64.truncate, if_pos hnan]

end

end ScanMatch.Binary64
