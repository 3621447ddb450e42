import ScanMatch.Proofs.Nearest

/-! # Floating-point computation on mantissas and exponents

A finite value in canonical form stands for a real number. The operations on such values round the
exact result to the nearest number, comparison follows the numbers, and packing into 64 bits loses
nothing of what fits.
-/
namespace ScanMatch.Binary64

open Float.Model Float.Model.UnpackedFloat

noncomputable section

/-! ### Mantissas -/

/-- What is known of the fraction that was cut off. -/
def Describes : Accuracy → ℝ → Prop
  | .exact, f => f = 0
  | .inexact .lt, f => 0 < f ∧ f < 1 / 2
  | .inexact .eq, f => f = 1 / 2
  | .inexact .gt, f => 1 / 2 < f ∧ f < 1

theorem Describes.mem {a : Accuracy} {f : ℝ} (h : Describes a f) : 0 ≤ f ∧ f < 1 := by
  rcases a with _ | (_ | _ | _)
  · simp only [Describes] at h
    rw [h]
    norm_num
  · exact ⟨h.1.le, h.2.trans (by norm_num)⟩
  · simp only [Describes] at h
    rw [h]
    norm_num
  · exact ⟨by linarith [h.1], h.2⟩

theorem Describes.roundToNearestEven {a : Accuracy} {m : ℕ} {x : ℝ} (h : Describes a (x - m)) :
    (a.roundToNearestEven m : ℤ) = roundEven x := by
  have hfloor : ⌊x⌋ = m := by
    rw [Int.floor_eq_iff]
    have := h.mem
    push_cast
    constructor <;> linarith
  rw [roundEven, hfloor]
  push_cast
  rcases a with _ | (_ | _ | _)
  · simp only [Describes] at h
    rw [if_pos (by linarith)]
    rfl
  · rw [if_pos h.2]
    rfl
  · simp only [Describes] at h
    rw [if_neg (by linarith), if_neg (by linarith)]
    rfl
  · rw [if_neg (by linarith [h.1]), if_pos h.1]
    rfl

/-- A mantissa with its round bit and its sticky bit stands for a number. -/
def Stands (em : ExtendedMantissa) (x : ℝ) : Prop := Describes em.accuracy (x - em.mantissa)

theorem stands_ofMantissaAndAccuracy {a : Accuracy} {m : ℕ} {x : ℝ} (h : Describes a (x - m)) :
    Stands (.ofMantissaAndAccuracy m a) x := by
  rcases a with _ | (_ | _ | _) <;> exact h

theorem Stands.shiftRightOne {em : ExtendedMantissa} {x : ℝ} (h : Stands em x) :
    Stands em.shiftRightOne (x / 2) := by
  obtain ⟨m, round, sticky⟩ := em
  have hm : (m : ℝ) = 2 * (m / 2 : ℕ) + (m % 2 : ℕ) := by exact_mod_cast (Nat.div_add_mod m 2).symm
  rcases Nat.mod_two_eq_zero_or_one m with hbit | hbit <;> cases round <;> cases sticky <;>
    simp only [Stands, ExtendedMantissa.accuracy, ExtendedMantissa.shiftRightOne, Describes, hbit,
      bne_self_eq_false, Bool.or_false, Bool.or_true, Bool.or_self, Nat.cast_zero, Nat.cast_one,
      add_zero, show (1 != 0) = true from rfl] at h hm ⊢ <;>
    first
    | linarith
    | constructor <;> linarith

theorem Stands.shiftRight {em : ExtendedMantissa} {x : ℝ} (h : Stands em x) (n : ℕ) :
    Stands (em >>> n) (x / 2 ^ n) := by
  change Stands (n.repeat ExtendedMantissa.shiftRightOne em) (x / 2 ^ n)
  induction n with
  | zero => simpa [Nat.repeat] using h
  | succ n ih =>
    rw [Nat.repeat, pow_succ, ← div_div]
    exact ih.shiftRightOne

theorem mantissa_shiftRight (em : ExtendedMantissa) (n : ℕ) :
    (em >>> n).mantissa = em.mantissa / 2 ^ n := by
  change (n.repeat ExtendedMantissa.shiftRightOne em).mantissa = _
  induction n with
  | zero =>
    rw [pow_zero, Nat.div_one]
    rfl
  | succ n ih =>
    rw [Nat.repeat, pow_succ, ← Nat.div_div_eq_div_mul, ← ih]
    rfl

/-! ### Rounding -/

theorem targetExponent_eq (z : ℤ) : Format.binary64.targetExponent z = max (z - 53) (-1074) := rfl

/-- The mantissa is the number without what comes after its last place. -/
theorem log_eq {m : ℕ} {e : ℤ} {x : ℝ} (hm : m ≠ 0) (h : m ≤ x / 2 ^ e ∧ x / 2 ^ e < m + 1) :
    Int.log 2 x = m.log2 + e := by
  have hpow : (0 : ℝ) < 2 ^ e := by positivity
  rw [le_div_iff₀ hpow, div_lt_iff₀ hpow] at h
  have hmpos : (0 : ℝ) < m := by exact_mod_cast Nat.pos_of_ne_zero hm
  have hx : 0 < x := (mul_pos hmpos hpow).trans_le h.1
  have hlow : (2 : ℝ) ^ m.log2 ≤ m := by exact_mod_cast Nat.log2_self_le hm
  have hhigh : (m : ℝ) + 1 ≤ 2 ^ (m.log2 + 1) := by exact_mod_cast Nat.lt_log2_self (n := m)
  apply le_antisymm
  · rw [← Int.lt_add_one_iff, ← Int.lt_zpow_iff_log_lt (by decide) hx]
    refine h.2.trans_le ?_
    calc ((m : ℝ) + 1) * 2 ^ e ≤ 2 ^ (m.log2 + 1) * 2 ^ e := by gcongr
      _ = ((2 : ℕ) : ℝ) ^ ((m.log2 : ℤ) + e + 1) := by
        push_cast
        rw [← zpow_natCast, ← zpow_add₀ (by norm_num)]
        congr 1
        push_cast
        ring
  · rw [← Int.zpow_le_iff_le_log (by decide) hx]
    refine le_trans ?_ h.1
    calc ((2 : ℕ) : ℝ) ^ ((m.log2 : ℤ) + e) = 2 ^ m.log2 * 2 ^ e := by
          push_cast
          rw [zpow_add₀ (by norm_num), zpow_natCast]
      _ ≤ m * 2 ^ e := by gcongr

theorem target_eq_place {m : ℕ} {e : ℤ} {a : Accuracy} {x : ℝ} (hx : 0 < x)
    (h : Describes a (x / 2 ^ e - m)) (he : e ≤ place x) :
    Format.binary64.targetExponent (totalExponent m e) = place x := by
  have hmem := h.mem
  rw [targetExponent_eq, totalExponent]
  by_cases hm : m = 0
  · have hlog : Int.log 2 x < e := by
      rw [← Int.lt_zpow_iff_log_lt (by decide) hx]
      rw [hm, Nat.cast_zero, sub_zero, div_lt_one (by positivity)] at hmem
      exact_mod_cast hmem.2
    rw [place] at he ⊢
    rw [hm]
    simp only [Nat.log2_zero, Nat.cast_zero]
    omega
  · rw [place, log_eq hm (by constructor <;> linarith : (m : ℝ) ≤ x / 2 ^ e ∧ x / 2 ^ e < m + 1)]
    congr 1
    ring

theorem shiftToTargetExponent_spec {m : ℕ} {e : ℤ} {a : Accuracy} {x : ℝ} (hx : 0 < x)
    (h : Describes a (x / 2 ^ e - m)) (he : e ≤ place x) :
    ∃ em, shiftToTargetExponent .binary64 m e a = (em, place x) ∧
      Stands em (x / 2 ^ place x) := by
  have hexponent : e + (place x - e).toNat = place x := by omega
  refine ⟨ExtendedMantissa.ofMantissaAndAccuracy m a >>> (place x - e).toNat, ?_, ?_⟩
  · rw [shiftToTargetExponent, target_eq_place hx h he, shiftToExponent, hexponent]
  · have hplace : (2 : ℝ) ^ place x = 2 ^ e * 2 ^ (place x - e).toNat := by
      rw [← zpow_natCast, ← zpow_add₀ (by norm_num)]
      congr 1
      omega
    rw [hplace, ← div_div]
    exact (stands_ofMantissaAndAccuracy h).shiftRight _

def signed : Sign → ℝ → ℝ
  | .positive, x => x
  | .negative, x => -x

theorem abs_signed (s : Sign) {x : ℝ} (hx : 0 ≤ x) : |signed s x| = x := by
  cases s
  · rw [signed, abs_neg, abs_of_nonneg hx]
  · rw [signed, abs_of_nonneg hx]

/-- The number that a finite value stands for. -/
def real? : UnpackedFloat → Option ℝ
  | .zero _ => some 0
  | .finite s m e _ => some (signed s (m * 2 ^ e))
  | _ => none

/-- All 53 bits are used, unless the exponent is the least. -/
def Canonical : UnpackedFloat → Prop
  | .finite _ m e _ => m < 2 ^ 53 ∧ -1074 ≤ e ∧ (2 ^ 52 ≤ m ∨ e = -1074)
  | _ => True

/-- A finite value in canonical form, and its number. -/
structure Holds (f : UnpackedFloat) (x : ℝ) : Prop where
  canonical : Canonical f
  real : real? f = some x

theorem holds_zero (s : Sign) : Holds (.zero s) 0 := ⟨trivial, rfl⟩

/-- A mantissa of at most 53 bits keeps its place; only 2^53 itself needs one shift, and loses
nothing. -/
theorem shiftToTargetExponent_small {m : ℕ} {e : ℤ} (he : -1074 ≤ e) (hm : m ≤ 2 ^ 53) :
    ∃ m' e', (shiftToTargetExponent .binary64 m e .exact).1.mantissa = m' ∧
      (shiftToTargetExponent .binary64 m e .exact).2 = e' ∧
      (m' = m ∧ e' = e ∧ m < 2 ^ 53 ∨ m = 2 ^ 53 ∧ m' = 2 ^ 52 ∧ e' = e + 1) := by
  rcases hm.lt_or_eq with hlt | rfl
  · have hlog : m.log2 ≤ 52 := by
      by_cases hm0 : m = 0
      · rw [hm0]
        decide
      · exact Nat.lt_succ_iff.mp ((Nat.log2_lt hm0).mpr hlt)
    have hshift : (Format.binary64.targetExponent (totalExponent m e) - e).toNat = 0 := by
      rw [targetExponent_eq, totalExponent]
      omega
    rw [shiftToTargetExponent, shiftToExponent, hshift]
    exact ⟨m, e, rfl, Int.add_zero e, Or.inl ⟨rfl, rfl, hlt⟩⟩
  · have hshift : (Format.binary64.targetExponent (totalExponent (2 ^ 53) e) - e).toNat = 1 := by
      rw [targetExponent_eq, totalExponent, Nat.log2_two_pow]
      omega
    rw [shiftToTargetExponent, shiftToExponent, hshift]
    exact ⟨2 ^ 52, e + 1, rfl, rfl, Or.inr ⟨rfl, rfl, rfl⟩⟩

theorem roundWithAccuracy_holds (s : Sign) {m : ℕ} {e : ℤ} {a : Accuracy} {x : ℝ} (hx : 0 < x)
    (h : Describes a (x / 2 ^ e - m)) (he : e ≤ place x) :
    Holds (roundWithAccuracy .binary64 s m e a) (signed s (nearest x)) := by
  obtain ⟨em, hfirst, hstands⟩ := shiftToTargetExponent_spec hx h he
  have hround : (em.roundedMantissa : ℤ) = roundEven (x / 2 ^ place x) :=
    hstands.roundToNearestEven
  have hle : em.roundedMantissa ≤ 2 ^ 53 := by
    have hround' : roundEven (x / 2 ^ place x) ≤ 2 ^ 53 :=
      roundEven_le (by exact_mod_cast div_place_lt.le)
    rw [← hround] at hround'
    exact_mod_cast hround'
  have hmin : -1074 ≤ place x := le_max_right _ _
  have hcanonical : place x ≠ -1074 → 2 ^ 52 ≤ em.roundedMantissa := by
    intro hplace
    have hround' : 2 ^ 52 ≤ roundEven (x / 2 ^ place x) :=
      le_roundEven (by exact_mod_cast le_div_place hx hplace)
    rw [← hround] at hround'
    exact_mod_cast hround'
  have hnearest : nearest x = em.roundedMantissa * 2 ^ place x := by
    rw [nearest_of_nonneg hx.le, nearestAbs, ← hround, Int.cast_natCast]
  obtain ⟨m', e', hm', he', hcases⟩ := shiftToTargetExponent_small hmin hle
  have hvalue : (m' : ℝ) * 2 ^ e' = em.roundedMantissa * 2 ^ place x := by
    rcases hcases with ⟨rfl, rfl, -⟩ | ⟨heq, rfl, rfl⟩
    · rfl
    · rw [heq, zpow_add₀ (by norm_num)]
      push_cast
      ring
  have heq : roundWithAccuracy .binary64 s m e a =
      if h : m' = 0 then .zero s else .finite s m' e' (Nat.pos_of_ne_zero h) := by
    subst hm' he'
    rw [roundWithAccuracy, hfirst]
  rw [heq, hnearest, ← hvalue]
  split_ifs with h0
  · rw [h0, Nat.cast_zero, zero_mul]
    cases s
    · simpa [signed] using holds_zero .negative
    · exact holds_zero .positive
  · refine ⟨?_, rfl⟩
    rcases hcases with ⟨rfl, rfl, hlt⟩ | ⟨-, rfl, rfl⟩
    · refine ⟨hlt, hmin, ?_⟩
      by_cases hplace : place x = -1074
      · exact Or.inr hplace
      · exact Or.inl (hcanonical hplace)
    · exact ⟨by decide, by omega, Or.inl le_rfl⟩

theorem exists_decreaseExponent (m : ℕ) (e t : ℤ) :
    ∃ m', decreaseExponent m e t = (m', min e t) ∧ (m' : ℝ) * 2 ^ min e t = m * 2 ^ e := by
  refine ⟨m <<< (e - t).toNat, ?_, ?_⟩
  · rw [decreaseExponent]
    congr 1
    omega
  · rw [Nat.shiftLeft_eq]
    push_cast
    rw [mul_assoc, ← zpow_natCast, ← zpow_add₀ (by norm_num)]
    congr 2
    omega

theorem round_holds (s : Sign) {m : ℕ} (e : ℤ) (hm : 0 < m) :
    Holds (round .binary64 s m e) (signed s (nearest (m * 2 ^ e))) := by
  have hx : (0 : ℝ) < m * 2 ^ e := by positivity
  have hplace : Format.binary64.targetExponent (totalExponent m e) =
      place ((m : ℝ) * 2 ^ e) := by
    have hlog := log_eq (x := (m : ℝ) * 2 ^ e) (e := e) hm.ne' (by
      rw [mul_div_cancel_right₀ _ (by positivity)]
      constructor <;> linarith)
    rw [targetExponent_eq, totalExponent, place, hlog]
    congr 1
    ring
  obtain ⟨m', hm', hvalue⟩ := exists_decreaseExponent m e (place ((m : ℝ) * 2 ^ e))
  have hexact : (m : ℝ) * 2 ^ e / 2 ^ min e (place ((m : ℝ) * 2 ^ e)) - m' = 0 := by
    rw [sub_eq_zero, div_eq_iff (by positivity), hvalue]
  rw [UnpackedFloat.round, hplace, hm']
  exact roundWithAccuracy_holds s hx hexact (min_le_right _ _)

theorem normalize_holds (n : ℤ) (e : ℤ) (s : Sign) :
    Holds (normalize .binary64 n e s) (nearest (n * 2 ^ e)) := by
  rw [UnpackedFloat.normalize]
  rcases lt_trichotomy n 0 with hn | rfl | hn
  · have hcast : ((-n).toNat : ℝ) = -n := by exact_mod_cast Int.toNat_of_nonneg (by omega : 0 ≤ -n)
    have h := round_holds .negative e (by omega : 0 < (-n).toNat)
    rw [hcast, signed, neg_mul, nearest_neg, neg_neg] at h
    rw [Int.compare_eq_lt.mpr hn]
    exact h
  · rw [Int.cast_zero, zero_mul, nearest_zero]
    exact holds_zero s
  · have hcast : (n.toNat : ℝ) = n := by exact_mod_cast Int.toNat_of_nonneg hn.le
    have h := round_holds .positive e (by omega : 0 < n.toNat)
    rw [hcast, signed] at h
    rw [Int.compare_eq_gt.mpr hn]
    exact h

/-! ### Operations -/

theorem Holds.cases {f : UnpackedFloat} {x : ℝ} (h : Holds f x) :
    (∃ s, f = .zero s ∧ x = 0) ∨
      ∃ s m e, ∃ hm : 0 < m, f = .finite s m e hm ∧ x = signed s (m * 2 ^ e) := by
  obtain ⟨-, h⟩ := h
  cases f with
  | zero s => exact Or.inl ⟨s, rfl, (Option.some.inj h).symm⟩
  | finite s m e hm => exact Or.inr ⟨s, m, e, hm, rfl, (Option.some.inj h).symm⟩
  | infinity s => nomatch h
  | notANumber => nomatch h

theorem Holds.representable {f : UnpackedFloat} {x : ℝ} (h : Holds f x) : Representable x := by
  rcases h.cases with ⟨s, rfl, rfl⟩ | ⟨s, m, e, hm, rfl, rfl⟩
  · exact representable_zero
  · obtain ⟨hlt, he, -⟩ := h.canonical
    have hrep : Representable (m * 2 ^ e) := by
      refine ⟨m, e, ?_, he, by rw [Int.cast_natCast]⟩
      rw [abs_of_nonneg (by positivity)]
      exact_mod_cast hlt.le
    cases s
    · exact hrep.neg
    · exact hrep

theorem signed_eq_apply (s : Sign) (m : ℕ) (e : ℤ) :
    signed s (m * 2 ^ e) = (s.apply m : ℤ) * 2 ^ e := by
  cases s <;> simp [signed, Sign.apply]

theorem signed_nearest (s : Sign) (x : ℝ) : signed s (nearest x) = nearest (signed s x) := by
  cases s
  · exact (nearest_neg x).symm
  · rfl

theorem signed_neg (s : Sign) (x : ℝ) : signed (-s) x = -signed s x := by
  cases s
  · exact (neg_neg x).symm
  · rfl

theorem Holds.neg {f : UnpackedFloat} {x : ℝ} (h : Holds f x) : Holds f.neg (-x) := by
  rcases h.cases with ⟨s, rfl, rfl⟩ | ⟨s, m, e, hm, rfl, rfl⟩
  · rw [neg_zero]
    exact holds_zero _
  · exact ⟨h.canonical, by rw [← signed_neg]; rfl⟩

theorem exists_aligned (s : Sign) (m : ℕ) {e t : ℤ} (h : t ≤ e) :
    ∃ m', decreaseExponent m e t = (m', t) ∧ (s.apply m' : ℤ) * 2 ^ t = signed s (m * 2 ^ e) := by
  obtain ⟨m', hm', hvalue⟩ := exists_decreaseExponent m e t
  rw [min_eq_right h] at hm' hvalue
  refine ⟨m', hm', ?_⟩
  rw [← hvalue, signed_eq_apply]

theorem Holds.add {f g : UnpackedFloat} {x y : ℝ} (hf : Holds f x) (hg : Holds g y) :
    Holds (UnpackedFloat.add .binary64 f g) (nearest (x + y)) := by
  rcases hf.cases with ⟨s, rfl, rfl⟩ | ⟨s, m, e, hm, rfl, rfl⟩
  · rw [zero_add, nearest_eq hg.representable]
    rcases hg.cases with ⟨s', rfl, rfl⟩ | ⟨s', m', e', hm', rfl, -⟩
    · rw [UnpackedFloat.add]
      split_ifs
      · exact holds_zero _
      · exact holds_zero _
    · exact hg
  · rcases hg.cases with ⟨s', rfl, rfl⟩ | ⟨s', m', e', hm', rfl, rfl⟩
    · rw [add_zero, nearest_eq hf.representable]
      exact hf
    · obtain ⟨k, hk, hvalue⟩ := exists_aligned s m (min_le_left e e')
      obtain ⟨k', hk', hvalue'⟩ := exists_aligned s' m' (min_le_right e e')
      have h := normalize_holds (s.apply k + s'.apply k') (min e e') .positive
      push_cast at h
      rw [add_mul, hvalue, hvalue'] at h
      simp only [UnpackedFloat.add, hk, hk']
      exact h

theorem sub_eq_add (f g : UnpackedFloat) :
    UnpackedFloat.sub .binary64 f g = UnpackedFloat.add .binary64 f g.neg := by
  have hsub (s : Sign) (a b : ℤ) : a - s.apply b = a + (-s).apply b := by
    cases s
    · exact sub_neg_eq_add a b
    · exact Int.sub_eq_add_neg
  cases f <;> cases g <;>
    simp only [UnpackedFloat.sub, UnpackedFloat.add, UnpackedFloat.neg, hsub]

theorem Holds.sub {f g : UnpackedFloat} {x y : ℝ} (hf : Holds f x) (hg : Holds g y) :
    Holds (UnpackedFloat.sub .binary64 f g) (nearest (x - y)) := by
  rw [sub_eq_add, sub_eq_add_neg]
  exact hf.add hg.neg

theorem signed_mul (s s' : Sign) (x y : ℝ) :
    signed s x * signed s' y = signed (s * s') (x * y) := by
  cases s <;> cases s'
  · exact neg_mul_neg x y
  · exact neg_mul x y
  · exact mul_neg x y
  · rfl

theorem signed_div (s s' : Sign) (x y : ℝ) :
    signed s x / signed s' y = signed (s / s') (x / y) := by
  cases s <;> cases s'
  · exact neg_div_neg_eq x y
  · exact neg_div y x
  · exact div_neg x
  · rfl

/-- The product of two numbers in canonical form has no place below its last one. -/
theorem add_le_place {m m' : ℕ} {e e' : ℤ} (hm : 0 < m) (hm' : 0 < m')
    (h : 2 ^ 52 ≤ m ∨ e = -1074) (h' : 2 ^ 52 ≤ m' ∨ e' = -1074) :
    e + e' ≤ place (m * 2 ^ e * (m' * 2 ^ e')) := by
  have hvalue : (m : ℝ) * 2 ^ e * (m' * 2 ^ e') = (m * m' : ℕ) * 2 ^ (e + e') := by
    rw [zpow_add₀ (by norm_num)]
    push_cast
    ring
  have hlog := log_eq (x := (m * m' : ℕ) * 2 ^ (e + e')) (e := e + e') (Nat.mul_pos hm hm').ne' (by
    rw [mul_div_cancel_right₀ _ (by positivity)]
    constructor <;> linarith)
  rw [hvalue, place, hlog]
  have hlarge (n : ℕ) (hn : 2 ^ 52 ≤ n) : 52 ≤ n.log2 :=
    (Nat.le_log2 (by omega)).mpr hn
  rcases h with h | rfl
  · have := hlarge (m * m') (h.trans (Nat.le_mul_of_pos_right m hm'))
    omega
  · rcases h' with h' | rfl
    · have := hlarge (m * m') (h'.trans (Nat.le_mul_of_pos_left m' hm))
      omega
    · omega

theorem Holds.mul {f g : UnpackedFloat} {x y : ℝ} (hf : Holds f x) (hg : Holds g y) :
    Holds (UnpackedFloat.mul .binary64 f g) (nearest (x * y)) := by
  rcases hf.cases with ⟨s, rfl, rfl⟩ | ⟨s, m, e, hm, rfl, rfl⟩
  · rw [zero_mul, nearest_zero]
    rcases hg.cases with ⟨s', rfl, rfl⟩ | ⟨s', m', e', hm', rfl, -⟩
    · exact holds_zero _
    · exact holds_zero _
  · rcases hg.cases with ⟨s', rfl, rfl⟩ | ⟨s', m', e', hm', rfl, rfl⟩
    · rw [mul_zero, nearest_zero]
      exact holds_zero _
    · have hexact : (m : ℝ) * 2 ^ e * (m' * 2 ^ e') / 2 ^ (e + e') - (m * m' : ℕ) = 0 := by
        rw [sub_eq_zero, div_eq_iff (by positivity), zpow_add₀ (by norm_num)]
        push_cast
        ring
      rw [signed_mul, ← signed_nearest]
      exact roundWithAccuracy_holds (s * s') (by positivity) hexact
        (add_le_place hm hm' hf.canonical.2.2 hg.canonical.2.2)

theorem describes_accuracyOfFraction {n d : ℕ} (h : n < d) :
    Describes (accuracyOfFraction n d) ((n : ℝ) / d) := by
  have hd : (0 : ℝ) < d := by exact_mod_cast h.pos
  rw [accuracyOfFraction]
  split_ifs with h0
  · rw [h0, Nat.cast_zero]
    exact zero_div _
  · have hn : (0 : ℝ) < n := by exact_mod_cast Nat.pos_of_ne_zero h0
    rcases lt_trichotomy (2 * n) d with hlt | heq | hgt
    · have hltR : (2 : ℝ) * n < d := by exact_mod_cast hlt
      rw [Nat.compare_eq_lt.mpr hlt]
      refine ⟨by positivity, ?_⟩
      rw [div_lt_div_iff₀ hd (by norm_num)]
      linarith
    · have heqR : (2 : ℝ) * n = d := by exact_mod_cast heq
      rw [Nat.compare_eq_eq.mpr heq]
      change (n : ℝ) / d = 1 / 2
      rw [div_eq_div_iff hd.ne' (by norm_num)]
      linarith
    · have hgtR : (d : ℝ) < 2 * n := by exact_mod_cast hgt
      have hltR : (n : ℝ) < d := by exact_mod_cast h
      rw [Nat.compare_eq_gt.mpr hgt]
      refine ⟨?_, by rwa [div_lt_one hd]⟩
      rw [div_lt_div_iff₀ (by norm_num) hd]
      linarith

theorem le_log_div {m m' : ℕ} (e e' : ℤ) (hm : 0 < m) (hm' : 0 < m') :
    (m.log2 : ℤ) + e - (m'.log2 + e') - 1 ≤ Int.log 2 ((m : ℝ) * 2 ^ e / (m' * 2 ^ e')) := by
  have hlow : (2 : ℝ) ^ (m.log2 : ℤ) ≤ m := by
    rw [zpow_natCast]
    exact_mod_cast Nat.log2_self_le hm.ne'
  have hhigh : (m' : ℝ) ≤ 2 ^ ((m'.log2 : ℤ) + 1) := by
    have := Nat.lt_log2_self (n := m')
    exact_mod_cast this.le
  rw [← Int.zpow_le_iff_le_log (by decide) (by positivity), le_div_iff₀ (by positivity)]
  calc ((2 : ℕ) : ℝ) ^ ((m.log2 : ℤ) + e - (m'.log2 + e') - 1) * (m' * 2 ^ e')
      ≤ 2 ^ ((m.log2 : ℤ) + e - (m'.log2 + e') - 1) * (2 ^ ((m'.log2 : ℤ) + 1) * 2 ^ e') := by
        push_cast
        gcongr
    _ = 2 ^ (m.log2 : ℤ) * 2 ^ e := by
        rw [← zpow_add₀ (by norm_num), ← zpow_add₀ (by norm_num), ← zpow_add₀ (by norm_num)]
        congr 1
        ring
    _ ≤ m * 2 ^ e := by gcongr

theorem divCore_spec {m m' : ℕ} (e e' : ℤ) (hm : 0 < m) (hm' : 0 < m') :
    ∃ k t a, divCore .binary64 m e m' e' = (k, t, a) ∧
      Describes a ((m : ℝ) * 2 ^ e / (m' * 2 ^ e') / 2 ^ t - k) ∧
      t ≤ place (m * 2 ^ e / (m' * 2 ^ e')) := by
  refine ⟨_, _, _, rfl, ?_, ?_⟩
  · rw [targetExponent_eq]
    set t := min (e - e') (max (totalExponent m e - totalExponent m' e' - 53) (-1074))
    set n := m <<< (e - e' - t).toNat
    have hn : (n : ℝ) = m * 2 ^ (e - e' - t) := by
      have hnonneg : 0 ≤ e - e' - t := sub_nonneg.mpr (min_le_left _ _)
      rw [show n = m * 2 ^ (e - e' - t).toNat from Nat.shiftLeft_eq m _]
      push_cast
      rw [← zpow_natCast, Int.toNat_of_nonneg hnonneg]
    have hdivmod : (m' : ℝ) * (n / m' : ℕ) + (n % m' : ℕ) = n := by
      exact_mod_cast Nat.div_add_mod n m'
    have hmR : (m' : ℝ) ≠ 0 := by exact_mod_cast hm'.ne'
    have hquotient : (m : ℝ) * 2 ^ e / (m' * 2 ^ e') / 2 ^ t = n / m' := by
      rw [hn, zpow_sub₀ (by norm_num), zpow_sub₀ (by norm_num)]
      field_simp
    have hfraction : (m : ℝ) * 2 ^ e / (m' * 2 ^ e') / 2 ^ t - (n / m' : ℕ) =
        ((n % m' : ℕ) : ℝ) / m' := by
      rw [hquotient, ← hdivmod]
      field_simp
      ring
    rw [hfraction]
    exact describes_accuracyOfFraction (Nat.mod_lt n hm')
  · have hlog := le_log_div e e' hm hm'
    rw [targetExponent_eq, totalExponent, totalExponent, place]
    omega

theorem Holds.div {f g : UnpackedFloat} {x y : ℝ} (hf : Holds f x) (hg : Holds g y) (hy : y ≠ 0) :
    Holds (UnpackedFloat.div .binary64 f g) (nearest (x / y)) := by
  rcases hg.cases with ⟨s', rfl, rfl⟩ | ⟨s', m', e', hm', rfl, rfl⟩
  · exact absurd rfl hy
  · rcases hf.cases with ⟨s, rfl, rfl⟩ | ⟨s, m, e, hm, rfl, rfl⟩
    · rw [zero_div, nearest_zero]
      exact holds_zero _
    · obtain ⟨k, t, a, hcore, hdescribes, ht⟩ := divCore_spec e e' hm hm'
      rw [signed_div, ← signed_nearest, UnpackedFloat.div, hcore]
      exact roundWithAccuracy_holds (s / s') (by positivity) hdescribes ht

/-! ### Bits -/

theorem unpackSign_packComponents {spec : Format} (s : Sign) (e : BitVec spec.exponentBits)
    (m : BitVec spec.mantissaBitsWithoutImplicit) :
    unpackSign (packComponents spec s e m) = s.toBitVec := by
  apply BitVec.eq_of_getLsbD_eq
  intro i hi
  obtain rfl : i = 0 := by omega
  simp [unpackSign, packComponents, BitVec.getLsbD_append, BitVec.getElem_append]

theorem toNat_one_append (m : BitVec 52) : (1#1 ++ m).toNat = 2 ^ 52 + m.toNat := by
  rw [BitVec.toNat_append, ← Nat.shiftLeft_add_eq_or_of_lt m.isLt]
  rfl

theorem unpack_packComponents (s : Sign) {e : BitVec 11} (m : BitVec 52) (he : e ≠ -1#11) :
    unpack .binary64 (packComponents .binary64 s e m) =
      if e = 0#11 then
        if h : m = 0#52 then .zero s
        else .finite s m.toNat (e.toNat - 1075 + 1)
          (Nat.pos_of_ne_zero fun h0 => h (BitVec.eq_of_toNat_eq h0))
      else .finite s (1#1 ++ m).toNat (e.toNat - 1075) (by rw [toNat_one_append]; omega) := by
  have hsign : Sign.ofBitVec s.toBitVec = s := by cases s <;> rfl
  simp only [UnpackedFloat.unpack, unpackExponent_packComponents, unpackMantissa_packComponents,
    unpackSign_packComponents, hsign, if_neg he]
  rfl

/-- Packing loses nothing of what fits. -/
theorem unpack_pack_finite (s : Sign) {m : ℕ} {e : ℤ} (hm : 0 < m)
    (h : Canonical (.finite s m e hm)) (he : e ≤ 971) :
    unpack .binary64 (pack .binary64 (.finite s m e hm)) = .finite s m e hm := by
  obtain ⟨hlt, hmin, hbits⟩ := h
  have hfits : ¬ 2 ^ 11 ≤ (e + 1023 + 52).toNat + 1 := by omega
  have hpack : pack .binary64 (.finite s m e hm) =
      if m.log2 + 1 = 53 then
        packComponents .binary64 s (BitVec.ofNat 11 (e + 1023 + 52).toNat) (BitVec.ofNat 52 m)
      else packComponents .binary64 s 0#11 (BitVec.ofNat 52 m) := if_neg hfits
  rw [hpack]
  by_cases hnormal : 2 ^ 52 ≤ m
  · have hlog : m.log2 = 52 := (Nat.log2_eq_iff hm.ne').mpr ⟨hnormal, hlt⟩
    have hexponent : (BitVec.ofNat 11 (e + 1023 + 52).toNat).toNat = (e + 1023 + 52).toNat := by
      rw [BitVec.toNat_ofNat]
      omega
    have hmantissa : (1#1 ++ BitVec.ofNat 52 m).toNat = m := by
      rw [toNat_one_append, BitVec.toNat_ofNat]
      omega
    rw [if_pos (by omega), unpack_packComponents, if_neg]
    · congr 1
      omega
    · intro h0
      rw [h0] at hexponent
      simp only [BitVec.toNat_ofNat] at hexponent
      omega
    · intro h1
      rw [h1] at hexponent
      simp only [BitVec.neg_one_eq_allOnes, BitVec.toNat_allOnes] at hexponent
      omega
  · have hlog : m.log2 + 1 ≠ 53 := by
      have := (Nat.log2_lt hm.ne').mpr (not_le.mp hnormal)
      omega
    have hmantissa : (BitVec.ofNat 52 m).toNat = m := by
      rw [BitVec.toNat_ofNat]
      omega
    rw [if_neg hlog, unpack_packComponents _ _ (by decide), if_pos rfl, dif_neg]
    · congr 1
      simp only [BitVec.toNat_ofNat]
      omega
    · intro h0
      rw [h0] at hmantissa
      simp only [BitVec.toNat_ofNat] at hmantissa
      omega

theorem unpack_pack_zero (s : Sign) : unpack .binary64 (pack .binary64 (.zero s)) = .zero s := by
  cases s <;> rfl

theorem Holds.unpack_pack {f : UnpackedFloat} {x : ℝ} (h : Holds f x) (hx : |x| < 2 ^ 53 * top) :
    unpack .binary64 (pack .binary64 f) = f := by
  rcases h.cases with ⟨s, rfl, rfl⟩ | ⟨s, m, e, hm, rfl, rfl⟩
  · exact unpack_pack_zero s
  · apply unpack_pack_finite s hm h.canonical
    by_contra! he
    have hbits : 2 ^ 52 ≤ m := h.canonical.2.2.resolve_right (by omega)
    have hbitsR : (2 : ℝ) ^ 52 ≤ m := by exact_mod_cast hbits
    have hpow : 2 * top ≤ 2 ^ e := by
      rw [top, ← zpow_one_add₀ (by norm_num)]
      exact zpow_le_zpow_right₀ (by norm_num) (by omega)
    have hprod := mul_le_mul hbitsR hpow (by linarith [top_pos]) (by positivity)
    rw [abs_signed s (by positivity)] at hx
    linarith

theorem canonical_unpack (b : BitVec 64) : Canonical (unpack .binary64 b) := by
  have hmantissa : (@unpackMantissa .binary64 b).toNat < 2 ^ 52 :=
    (@unpackMantissa .binary64 b).isLt
  rw [UnpackedFloat.unpack]
  dsimp only
  split_ifs with hones hzero hexp hzero'
  · exact trivial
  · exact trivial
  · exact trivial
  · refine ⟨?_, ?_, Or.inr ?_⟩
    · omega
    · rw [hexp]
      decide
    · rw [hexp]
      decide
  · rw [Canonical, toNat_one_append]
    have hne : (@unpackExponent .binary64 b).toNat ≠ 0 := fun h0 => hexp (BitVec.eq_of_toNat_eq h0)
    refine ⟨by omega, ?_, Or.inl (by omega)⟩
    change -1074 ≤ ((@unpackExponent .binary64 b).toNat : ℤ) - 1075
    omega

/-! ### Comparison -/

/-- In canonical form the exponent decides, then the mantissa. -/
theorem compare_magnitudes {m m' : ℕ} {e e' : ℤ} (hm : 0 < m) (hm' : 0 < m')
    (h : Canonical (.finite .positive m e hm)) (h' : Canonical (.finite .positive m' e' hm')) :
    (compare e e').then (compare m m') = compare ((m : ℝ) * 2 ^ e) (m' * 2 ^ e') := by
  have hless {n n' : ℕ} {d d' : ℤ} (hn : n < 2 ^ 53) (hd : -1074 ≤ d)
      (hn' : 2 ^ 52 ≤ n' ∨ d' = -1074) (hlt : d < d') : (n : ℝ) * 2 ^ d < n' * 2 ^ d' := by
    have hnR : (n : ℝ) < 2 ^ 53 := by exact_mod_cast hn
    have hnR' : (2 : ℝ) ^ 52 ≤ n' := by exact_mod_cast hn'.resolve_right (by omega)
    have hpow : (2 : ℝ) ^ (d + 1) ≤ 2 ^ d' := zpow_le_zpow_right₀ (by norm_num) (by omega)
    rw [zpow_add_one₀ (by norm_num)] at hpow
    have hpos : (0 : ℝ) < 2 ^ d := by positivity
    nlinarith
  rcases lt_trichotomy e e' with hlt | rfl | hgt
  · rw [Int.compare_eq_lt.mpr hlt, compare_lt_iff_lt.mpr (hless h.1 h.2.1 h'.2.2 hlt)]
    rfl
  · have hpos : (0 : ℝ) < 2 ^ e := by positivity
    rw [Int.compare_eq_eq.mpr rfl]
    change compare m m' = _
    rcases lt_trichotomy m m' with hlt | rfl | hgt
    · rw [Nat.compare_eq_lt.mpr hlt, eq_comm, compare_lt_iff_lt]
      exact mul_lt_mul_of_pos_right (by exact_mod_cast hlt) hpos
    · rw [Nat.compare_eq_eq.mpr rfl, eq_comm, compare_eq_iff_eq]
    · rw [Nat.compare_eq_gt.mpr hgt, eq_comm, compare_gt_iff_gt]
      exact mul_lt_mul_of_pos_right (by exact_mod_cast hgt) hpos
  · rw [Int.compare_eq_gt.mpr hgt, compare_gt_iff_gt.mpr (hless h'.1 h'.2.1 h.2.2 hgt)]
    rfl

theorem compare_neg_neg (x y : ℝ) : compare (-x) (-y) = (compare x y).swap := by
  rcases lt_trichotomy x y with h | rfl | h
  · rw [compare_lt_iff_lt.mpr h, compare_gt_iff_gt.mpr (neg_lt_neg h)]
    rfl
  · rw [compare_eq_iff_eq.mpr rfl, compare_eq_iff_eq.mpr rfl]
    rfl
  · rw [compare_gt_iff_gt.mpr h, compare_lt_iff_lt.mpr (neg_lt_neg h)]
    rfl

theorem Holds.compare {f g : UnpackedFloat} {x y : ℝ} (hf : Holds f x) (hg : Holds g y) :
    f.compare g = some (Ord.compare x y) := by
  rcases hf.cases with ⟨s, rfl, rfl⟩ | ⟨s, m, e, hm, rfl, rfl⟩
  · rcases hg.cases with ⟨s', rfl, rfl⟩ | ⟨s', m', e', hm', rfl, rfl⟩
    · exact congrArg some (compare_eq_iff_eq.mpr rfl).symm
    · cases s'
      · exact congrArg some (compare_gt_iff_gt.mpr (neg_neg_of_pos (by positivity))).symm
      · exact congrArg some (compare_lt_iff_lt.mpr (by simp only [signed]; positivity)).symm
  · rcases hg.cases with ⟨s', rfl, rfl⟩ | ⟨s', m', e', hm', rfl, rfl⟩
    · cases s
      · exact congrArg some (compare_lt_iff_lt.mpr (neg_neg_of_pos (by positivity))).symm
      · exact congrArg some (compare_gt_iff_gt.mpr (by simp only [signed]; positivity)).symm
    · have hpos : (0 : ℝ) < m * 2 ^ e := by positivity
      have hpos' : (0 : ℝ) < m' * 2 ^ e' := by positivity
      have hmagnitudes := compare_magnitudes hm hm' hf.canonical hg.canonical
      cases s <;> cases s'
      · simp only [signed, compare_neg_neg, ← hmagnitudes]
        rfl
      · exact congrArg some (compare_lt_iff_lt.mpr (by simp only [signed]; linarith)).symm
      · exact congrArg some (compare_gt_iff_gt.mpr (by simp only [signed]; linarith)).symm
      · simp only [signed, ← hmagnitudes]
        rfl

theorem Holds.infinity_compare {f : UnpackedFloat} {x : ℝ} (hf : Holds f x) :
    (infinity .positive).compare f = some .gt ∧ (infinity .negative).compare f = some .lt := by
  rcases hf.cases with ⟨s, rfl, -⟩ | ⟨s, m, e, hm, rfl, -⟩
  · exact ⟨rfl, rfl⟩
  · cases s <;> exact ⟨rfl, rfl⟩

theorem Holds.compare_infinity {f : UnpackedFloat} {x : ℝ} (hf : Holds f x) :
    f.compare (infinity .positive) = some .lt ∧ f.compare (infinity .negative) = some .gt := by
  rcases hf.cases with ⟨s, rfl, -⟩ | ⟨s, m, e, hm, rfl, -⟩
  · exact ⟨rfl, rfl⟩
  · cases s <;> exact ⟨rfl, rfl⟩

/-! ### Integers -/

theorem Holds.roundToInt {f : UnpackedFloat} {x : ℝ} (hf : Holds f x) (hx : 0 ≤ x) (lo hi : ℤ) :
    f.toInt lo hi = ⌊x⌋ := by
  rcases hf.cases with ⟨s, rfl, rfl⟩ | ⟨s, m, e, hm, rfl, rfl⟩
  · exact Int.floor_zero.symm
  · have hpos : (0 : ℝ) < m * 2 ^ e := by positivity
    cases s
    · simp only [signed] at hx
      linarith
    · obtain ⟨k, hk, hvalue⟩ := exists_decreaseExponent m e 0
      have hpow : (2 : ℝ) ^ min e 0 = ((2 ^ (0 - min e 0).toNat : ℕ) : ℝ)⁻¹ := by
        push_cast
        rw [← zpow_natCast, ← zpow_neg]
        congr 1
        omega
      simp only [UnpackedFloat.toInt, UnpackedFloat.roundToInt, hk, shiftToExponent,
        mantissa_shiftRight, signed, Sign.apply, ExtendedMantissa.ofMantissaAndAccuracy]
      rw [← hvalue, hpow, ← div_eq_mul_inv, Int.floor_div_natCast, Int.floor_natCast]
      exact Int.natCast_ediv k _

theorem Holds.toUInt64 {f : UnpackedFloat} {x : ℝ} (hf : Holds f x) (hx : 0 ≤ x)
    (hlt : x < 2 ^ 64) : (f.toUInt64.toNat : ℤ) = ⌊x⌋ := by
  have hnonneg : 0 ≤ ⌊x⌋ := Int.floor_nonneg.mpr hx
  have hfloor : ⌊x⌋ < 2 ^ 64 := by
    rw [Int.floor_lt]
    exact_mod_cast hlt
  have hsize : ⌊x⌋.toNat < UInt64.size := by
    change _ < 2 ^ 64
    omega
  rw [UnpackedFloat.toUInt64, hf.roundToInt hx, UInt64.ofNatClamp, dif_pos hsize,
    UInt64.toNat_ofNatLT]
  omega

theorem holds_ofUInt64 (n : UInt64) : Holds (ofUInt64 .binary64 n) (nearest n.toNat) := by
  have h := normalize_holds n.toNat 0 .positive
  rw [zpow_zero, mul_one, Int.cast_natCast] at h
  exact h

end

end ScanMatch.Binary64
