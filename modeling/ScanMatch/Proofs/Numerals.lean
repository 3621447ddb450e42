import ScanMatch.Proofs.Usability
import ScanMatch.Proofs.Shortest

/-!
# Numbers in documents

Reading a decimal rounds once, to the nearest value. A value is the nearest to the decimal that it
is written as, so it is read back to the bit.
-/
namespace ScanMatch.Binary64

open Float.Model Float.Model.UnpackedFloat

/-! ### Bits -/

def signBit : Sign → ℕ
  | .negative => 1
  | .positive => 0

/-- The bits of an unpacked value as a number. -/
def code : UnpackedFloat → ℕ
  | .infinity s => signBit s * 2 ^ 63 + 2047 * 2 ^ 52
  | .notANumber => 2047 * 2 ^ 52 + 2 ^ 51
  | .zero s => signBit s * 2 ^ 63
  | .finite s m e _ =>
    signBit s * 2 ^ 63 + if m < 2 ^ 52 then m else (e + 1075).toNat * 2 ^ 52 + (m - 2 ^ 52)

theorem toNat_unpackMantissa (b : BitVec 64) :
    (@unpackMantissa .binary64 b).toNat = b.toNat % 2 ^ 52 := by
  simp [unpackMantissa]

theorem toNat_unpackExponent (b : BitVec 64) :
    (@unpackExponent .binary64 b).toNat = b.toNat / 2 ^ 52 % 2 ^ 11 := by
  simp [unpackExponent, Nat.shiftRight_eq_div_pow]

theorem toNat_unpackSign (b : BitVec 64) :
    (@unpackSign .binary64 b).toNat = b.toNat / 2 ^ 63 := by
  have hb : b.toNat < 2 ^ 64 := b.isLt
  simp [unpackSign, Nat.shiftRight_eq_div_pow]
  omega

theorem signBit_ofBitVec (b : BitVec 1) : signBit (Sign.ofBitVec b) = b.toNat := by
  revert b
  decide

/-- Unpacking loses nothing, as there is only one value that is not a number. -/
theorem code_unpack (x : Float.Model) : code x.unpack = x.toBits.toNat := by
  have hvalid := x.valid.eq_packedNaN
  change code (UnpackedFloat.unpack .binary64 x.toBits.toBitVec) = x.toBits.toBitVec.toNat
  generalize x.toBits.toBitVec = b at hvalid
  have hb : b.toNat < 2 ^ 64 := b.isLt
  have hmantissa := toNat_unpackMantissa b
  have hexponent := toNat_unpackExponent b
  have hsign := signBit_ofBitVec (@unpackSign .binary64 b)
  rw [toNat_unpackSign] at hsign
  rw [UnpackedFloat.unpack]
  dsimp only
  split_ifs with hones hzero hexp hzero'
  · rw [hones] at hexponent
    rw [hzero] at hmantissa
    rw [code, hsign]
    simp at hexponent hmantissa
    omega
  · rw [hvalid hones hzero]
    decide
  · rw [hexp] at hexponent
    rw [hzero'] at hmantissa
    rw [code, hsign]
    simp at hexponent hmantissa
    omega
  · rw [hexp] at hexponent ⊢
    rw [code, hsign, if_pos (by omega)]
    simp at hexponent
    omega
  · have hne : (@unpackExponent .binary64 b).toNat ≠ 0 :=
      fun h => hexp (BitVec.eq_of_toNat_eq h)
    rw [code, hsign, toNat_one_append, if_neg (by omega)]
    change _ + (((@unpackExponent .binary64 b).toNat - 1075 + 1075 : ℤ).toNat * 2 ^ 52 + _) = _
    omega

theorem unpack_injective {x y : Float} (h : x.toModel.unpack = y.toModel.unpack) : x = y := by
  have hbits : x.toModel.toBits = y.toModel.toBits := by
    rw [← UInt64.toNat_inj, ← code_unpack, ← code_unpack, h]
  obtain ⟨⟨b, hb⟩⟩ := x
  obtain ⟨⟨b', hb'⟩⟩ := y
  cases hbits
  rfl

theorem toNat_toBits (x : Float) : x.toBits.toNat = code x.toModel.unpack := (code_unpack _).symm

theorem isNegative_eq {x : Float} {n : ℕ} {s : Sign} (h : x.toBits.toNat = signBit s * 2 ^ 63 + n)
    (hn : n < 2 ^ 63) : isNegative x = decide (signBit s = 1) := by
  have hshift : (x.toBits >>> 63).toNat = x.toBits.toNat / 2 ^ 63 := by
    rw [UInt64.toNat_shiftRight, Nat.shiftRight_eq_div_pow]
    rfl
  have hzero : x.toBits >>> 63 = 0 ↔ x.toBits.toNat / 2 ^ 63 = 0 := by
    rw [← UInt64.toNat_inj, hshift]
    rfl
  rw [isNegative, bne, Bool.eq_iff_iff, decide_eq_true_iff, Bool.not_eq_true', beq_eq_false_iff_ne,
    Ne, hzero, h]
  have hbit : signBit s ≤ 1 := by cases s <;> decide
  omega

theorem magnitude_eq {x : Float} {s : Sign} {m : ℕ} {e : ℤ} {hm : 0 < m}
    (h : x.toModel.unpack = .finite s m e hm) :
    magnitude x = ⟨m, e⟩ ∧ isNegative x = decide (signBit s = 1) := by
  have hcanonical : Canonical (.finite s m e hm) := h ▸ canonical_unpack _
  obtain ⟨hlt, hleast, hfull⟩ := hcanonical
  have hgreatest := exponent_unpack_le h
  have hbits := toNat_toBits x
  rw [h, code] at hbits
  constructor
  · simp only [magnitude, Nat.one_shiftLeft]
    by_cases hsmall : m < 2 ^ 52
    · rw [if_pos hsmall] at hbits
      rw [if_pos (by omega)]
      congr 1
      all_goals omega
    · rw [if_neg hsmall] at hbits
      rw [if_neg (by omega)]
      congr 1
      all_goals omega
  · refine isNegative_eq hbits ?_
    split_ifs <;> omega

/-! ### Rounding of decimals -/

/-- Whether a value is a power of ten, by its mantissa and its exponent. -/
def isTenPow (x : Float) (k : ℕ) : Bool :=
  match x.toModel.unpack with
  | .finite .positive m e _ => m * 2 ^ e.toNat = 10 ^ k * 2 ^ (-e).toNat
  | _ => false

theorem reads_of_isTenPow {x : Float} {k : ℕ} (h : isTenPow x k = true) : Reads x (10 ^ k) := by
  rw [isTenPow] at h
  split at h
  · next m e hm hunpack =>
    have hvalue : ((m * 2 ^ e.toNat : ℕ) : ℝ) = (10 ^ k * 2 ^ (-e).toNat : ℕ) :=
      congrArg Nat.cast (of_decide_eq_true h)
    push_cast at hvalue
    rw [Magnitude.pow_toNat two_ne_zero, mul_left_comm, mul_comm (10 ^ k)] at hvalue
    have hpos : (2 : ℝ) ^ (-e).toNat ≠ 0 := by positivity
    rw [Reads, hunpack, ← mul_left_cancel₀ hpos hvalue]
    rfl
  · cases h

theorem isTenPow_table : ∀ i : Fin Float.exactlyRepresentablePowersOfTen.size,
    isTenPow Float.exactlyRepresentablePowersOfTen[i] i = true := by
  decide +kernel

theorem reads_tenPow {k : ℕ} (h : k < Float.exactlyRepresentablePowersOfTen.size) :
    Reads Float.exactlyRepresentablePowersOfTen[k] (10 ^ k) := by
  exact reads_of_isTenPow (isTenPow_table ⟨k, h⟩)

/-- What is multiplied out on mantissas is rounded once. -/
theorem holds_ofScientific {n : ℕ} {e : ℤ} (hn : 0 < n) (hhigh : e ≤ 2048)
    (hlow : -(2048 + n.log2 : ℤ) ≤ e) :
    Holds (UnpackedFloat.ofScientific .binary64 n e) (nearest (n * 10 ^ e)) := by
  have hx : (0 : ℝ) < n * 10 ^ e := by positivity
  have htest : ¬ e > 2 ^ Format.binary64.exponentBits := by
    change ¬ e > 2 ^ 11
    omega
  have htest' : ¬ e < -((2 ^ Format.binary64.exponentBits : ℤ) + n.log2) := by
    change ¬ e < -(2 ^ 11 + (n.log2 : ℤ))
    omega
  rw [UnpackedFloat.ofScientific, dif_neg hn.ne', if_neg htest, if_neg htest']
  split_ifs with he
  · obtain ⟨k, rfl⟩ := Int.eq_ofNat_of_zero_le he
    have hplace : (-53 : ℤ) + 0 ≤ place (n * 10 ^ (k : ℤ)) := by
      have hlog : 0 ≤ Int.log 2 ((n : ℝ) * 10 ^ (k : ℤ)) := by
        rw [← Int.zpow_le_iff_le_log (by decide) hx, zpow_zero, zpow_natCast]
        exact_mod_cast Nat.mul_pos hn (Nat.pow_pos (by decide))
      rw [place]
      omega
    have hexact : (n : ℝ) * 10 ^ (k : ℤ) / 2 ^ ((-53 : ℤ) + 0) - (n <<< 53 * 10 ^ k : ℕ) = 0 := by
      rw [Nat.shiftLeft_eq]
      push_cast
      rw [zpow_natCast]
      norm_num
      ring
    exact roundWithAccuracy_holds .positive hx hexact hplace
  · obtain ⟨k, hk⟩ := Int.eq_ofNat_of_zero_le (by omega : 0 ≤ -e)
    obtain rfl : e = -(k : ℤ) := by omega
    have hten : 0 < 10 ^ (-(-(k : ℤ))).toNat := Nat.pow_pos (by decide)
    have hquotient : (n : ℝ) * 2 ^ (0 : ℤ) / ((10 ^ (-(-(k : ℤ))).toNat : ℕ) * 2 ^ (0 : ℤ)) =
        n * 10 ^ (-(k : ℤ)) := by
      rw [neg_neg, Int.toNat_natCast, zpow_neg, zpow_natCast, zpow_zero, mul_one, mul_one]
      push_cast
      rw [div_eq_mul_inv]
    obtain ⟨m, t, a, hcore, hdescribes, ht⟩ := divCore_spec 0 0 hn hten
    rw [hquotient] at hdescribes ht
    rw [UnpackedFloat.div, hcore]
    exact roundWithAccuracy_holds .positive hx hdescribes ht

theorem reads_ofScientific {n : ℕ} {e : ℤ} (hn : 0 < n) (hhigh : e ≤ 2048)
    (hlow : -(2048 + n.log2 : ℤ) ≤ e) (hlt : (n : ℝ) * 10 ^ e < overflow) :
    Reads (Float.ofScientific n (decide (e < 0)) e.natAbs) (nearest (n * 10 ^ e)) := by
  have habs : |(n : ℝ) * 10 ^ e| < overflow := by rwa [abs_of_nonneg (by positivity)]
  have hslow : Reads (Float.ofModel (Float.Model.ofScientific n e)) (nearest (n * 10 ^ e)) :=
    reads_of_holds rfl (holds_ofScientific hn hhigh hlow) habs
  have hexact (h : n < 2 ^ 53) : Reads n.toUInt64.toFloat n := by
    have hread := reads_toFloat (h.trans (by decide : 2 ^ 53 < 2 ^ 64))
    have hrep : Representable ((n : ℤ) : ℝ) :=
      representable_intCast (by rw [abs_of_nonneg (by omega)]; omega)
    rw [Int.cast_natCast] at hrep
    rwa [nearest_eq hrep] at hread
  rw [Float.ofScientific]
  split_ifs with hfast hneg hneg
  · have hpow : (n : ℝ) * 10 ^ e = n / 10 ^ e.natAbs := by
      rw [decide_eq_true_iff] at hneg
      rw [div_eq_mul_inv, ← zpow_natCast, ← zpow_neg]
      congr 2
      omega
    rw [hpow] at habs ⊢
    exact (hexact hfast.1).div (reads_tenPow _) (by positivity) habs
  · have hpow : (n : ℝ) * 10 ^ e = n * 10 ^ e.natAbs := by
      rw [decide_eq_true_iff] at hneg
      rw [← zpow_natCast]
      congr 2
      omega
    rw [hpow] at habs ⊢
    exact (hexact hfast.1).mul (reads_tenPow _) habs
  · rw [decide_eq_true_iff] at hneg
    rw [show Int.negOfNat e.natAbs = e by
      rw [Int.negOfNat_eq, Int.ofNat_eq_natCast]
      omega]
    exact hslow
  · rw [decide_eq_true_iff] at hneg
    rw [show Int.ofNat e.natAbs = e by
      rw [Int.ofNat_eq_natCast]
      omega]
    exact hslow

/-- The place of the point bounds a decimal by powers of ten. -/
theorem tenPow_le_value {d : Decimal} (hd : d.digits ≠ 0) :
    (10 : ℝ) ^ ((Nat.toDigits 10 d.digits).length + d.exponent - 1) ≤ d.value ∧
      d.value < 10 ^ ((Nat.toDigits 10 d.digits).length + d.exponent) := by
  obtain ⟨n, hn⟩ := Nat.exists_eq_add_one_of_ne_zero
    (Nat.ne_of_gt (Nat.length_toDigits_pos (b := 10) (n := d.digits)))
  rw [hn]
  have hlow : 10 ^ n ≤ d.digits := by
    rcases Nat.eq_zero_or_pos n with rfl | hpos
    · exact Nat.pos_of_ne_zero hd
    · by_contra hlt
      have := (Nat.length_toDigits_le_iff (by decide) hpos).2 (not_le.1 hlt)
      omega
  have hhigh : d.digits < 10 ^ (n + 1) :=
    (Nat.length_toDigits_le_iff (by decide) (Nat.succ_pos n)).1 hn.le
  have hlowR : (10 : ℝ) ^ n ≤ d.digits := by exact_mod_cast hlow
  have hhighR : (d.digits : ℝ) < 10 ^ (n + 1) := by exact_mod_cast hhigh
  have hpos : (0 : ℝ) < 10 ^ d.exponent := by positivity
  constructor
  · rw [show ((n + 1 : ℕ) : ℤ) + d.exponent - 1 = n + d.exponent by push_cast; ring,
      zpow_add₀ (by norm_num), zpow_natCast]
    exact mul_le_mul_of_nonneg_right hlowR hpos.le
  · rw [zpow_add₀ (by norm_num), zpow_natCast]
    exact mul_lt_mul_of_pos_right hhighR hpos

theorem overflow_le : overflow ≤ 10 ^ (400 : ℤ) := by
  calc overflow ≤ 2 ^ (53 : ℤ) * top := mul_le_mul_of_nonneg_right (by norm_num) top_pos.le
    _ = 2 ^ (53 + 971 : ℤ) := by rw [top, zpow_add₀ (by norm_num)]
    _ ≤ 2 ^ (3 * 400 : ℤ) := zpow_le_zpow_right₀ (by norm_num) (by norm_num)
    _ = (2 ^ (3 : ℤ)) ^ (400 : ℤ) := zpow_mul 2 3 400
    _ ≤ 10 ^ (400 : ℤ) := zpow_le_zpow_left₀ (by norm_num) (by positivity) (by norm_num)

/-- Far out of range there are no values, so what is multiplied out is enough. -/
theorem reads_toFloat_decimal {d : Decimal} (hleast : 10 ^ (-400 : ℤ) ≤ d.value)
    (hlt : d.value < overflow) : Reads d.toFloat (nearest d.value) := by
  have hpos : 0 < d.value := lt_of_lt_of_le (by positivity) hleast
  have hd : d.digits ≠ 0 := by
    intro h
    rw [Decimal.value, h, Nat.cast_zero, zero_mul] at hpos
    exact lt_irrefl 0 hpos
  obtain ⟨hlow, hhigh⟩ := tenPow_le_value hd
  have habove : (Nat.toDigits 10 d.digits).length + d.exponent - 1 < 400 :=
    (zpow_lt_zpow_iff_right₀ (by norm_num : (1 : ℝ) < 10)).1
      (hlow.trans_lt (hlt.trans_le overflow_le))
  have hbelow : -400 < (Nat.toDigits 10 d.digits).length + d.exponent :=
    (zpow_lt_zpow_iff_right₀ (by norm_num : (1 : ℝ) < 10)).1 (hleast.trans_lt hhigh)
  have hlength : (Nat.toDigits 10 d.digits).length ≤ d.digits.log2 + 1 :=
    (Nat.length_toDigits_le_iff (by decide) (Nat.succ_pos _)).2
      (Nat.lt_log2_self.trans_le (Nat.pow_le_pow_left (by decide) _))
  rw [Decimal.toFloat]
  rw [if_neg hd, if_neg (by omega), if_neg (by omega)]
  exact reads_ofScientific (Nat.pos_of_ne_zero hd) (by omega) (by omega) hlt

/-! ### Values written and read -/

/-- In canonical form a number other than zero has one value. -/
theorem Reads.eq {x y : Float} {a : ℝ} (hx : Reads x a) (hy : Reads y a) (ha : a ≠ 0) : x = y := by
  apply unpack_injective
  rcases hx.holds.cases with ⟨s, -, h⟩ | ⟨s, m, e, hm, hunpack, h⟩
  · exact absurd h ha
  rcases hy.holds.cases with ⟨s', -, h'⟩ | ⟨s', m', e', hm', hunpack', h'⟩
  · exact absurd h' ha
  have hcanonical : Canonical (.finite s m e hm) := hunpack ▸ canonical_unpack _
  have hcanonical' : Canonical (.finite s' m' e' hm') := hunpack' ▸ canonical_unpack _
  have hpos : (0 : ℝ) < m * 2 ^ e := by positivity
  have hpos' : (0 : ℝ) < m' * 2 ^ e' := by positivity
  have hvalue : (m : ℝ) * 2 ^ e = m' * 2 ^ e' := by
    rw [← abs_signed s hpos.le, ← abs_signed s' hpos'.le, ← h, ← h']
  have hcompare := compare_magnitudes hm hm' hcanonical hcanonical'
  rw [hvalue, compare_eq_iff_eq.mpr rfl, Ordering.then_eq_eq, compare_eq_iff_eq,
    compare_eq_iff_eq] at hcompare
  obtain ⟨rfl, rfl⟩ := hcompare
  have hsign : s = s' := by
    cases s <;> cases s' <;> simp only [signed] at h h' <;> first | rfl | linarith
  rw [hunpack, hunpack', hsign]

theorem canonical_magnitude {x : Float} {s : Sign} {m : ℕ} {e : ℤ} {hm : 0 < m}
    (h : x.toModel.unpack = .finite s m e hm) : Magnitude.Canonical ⟨m, e⟩ := by
  have hcanonical : Canonical (.finite s m e hm) := h ▸ canonical_unpack _
  exact ⟨hm, hcanonical.1, hcanonical.2.1, exponent_unpack_le h, hcanonical.2.2⟩

end ScanMatch.Binary64

namespace ScanMatch.Numeral

open Binary64 Decimal Float.Model Float.Model.UnpackedFloat

theorem ofList_not_mem {cs : List Char} {names : List String}
    (h : ∀ name ∈ names, name.toList ≠ cs) : String.ofList cs ∉ names :=
  fun hmem => h _ hmem String.toList_ofList

/-- A text that starts with a digit is no name. -/
theorem float?_digit {c : Char} {cs : List Char} (hc : c.isDigit = true) :
    float? (c :: cs) = finite? (c :: cs) := by
  have hdot := Yaml.isDigit_ne hc (d := '.') (by decide)
  have hplus := Yaml.isDigit_ne hc (d := '+') (by decide)
  have hminus := Yaml.isDigit_ne hc (d := '-') (by decide)
  rw [float?]
  · rw [if_neg (ofList_not_mem (by simp [Ne.symm hdot])),
      if_neg (ofList_not_mem (by simp [Ne.symm hminus])),
      if_neg (ofList_not_mem (by simp [Ne.symm hdot]))]
  · simp [hplus]
  · simp [hplus]
  · simp [hplus]

theorem float?_minus {c : Char} {cs : List Char} (hc : c.isDigit = true) :
    float? ('-' :: c :: cs) = finite? ('-' :: c :: cs) := by
  have hdot := Yaml.isDigit_ne hc (d := '.') (by decide)
  rw [float?]
  · rw [if_neg (ofList_not_mem (by simp)), if_neg (ofList_not_mem (by simp [Ne.symm hdot])),
      if_neg (ofList_not_mem (by simp))]
  · simp
  · simp
  · simp

theorem finite?_digit {c : Char} {cs : List Char} (hc : c.isDigit = true) :
    finite? (c :: cs) = ((ofText? (c :: cs)).map toFloat).filter Float.isFinite := by
  have hminus := Yaml.isDigit_ne hc (d := '-') (by decide)
  rw [finite?]
  simp [hminus]

theorem finite?_minus (cs : List Char) :
    finite? ('-' :: cs) = (((ofText? cs).map toFloat).map (-·)).filter Float.isFinite := rfl

/-- A text of digits reads as the number that is nearest to what it spells, with either sign. -/
theorem float?_spells {cs : List Char} {a : ℝ} (h : Spells cs a) (hleast : 10 ^ (-400 : ℤ) ≤ a)
    (hlt : a < overflow) :
    ∃ x, Reads x (nearest a) ∧ float? cs = some x ∧ float? ('-' :: cs) = some (-x) := by
  obtain ⟨d, hd, rfl⟩ := h.value
  have hread := reads_toFloat_decimal hleast hlt
  obtain ⟨c, rest, rfl, hc⟩ : ∃ c rest, cs = c :: rest ∧ c.isDigit = true := by
    cases cs with
    | nil => cases h.head
    | cons c rest => exact ⟨c, rest, rfl, h.head⟩
  refine ⟨d.toFloat, hread, ?_, ?_⟩
  · rw [float?_digit hc, finite?_digit hc, hd]
    simp [hread.isFinite]
  · rw [float?_minus hc, finite?_minus, hd]
    simp [hread.neg.isFinite]

/-- The text of a value is legible and reads as the value. -/
structure Survives (x : Float) : Prop where
  legible : Yaml.IsScalar (Layout.document.write x).toList
  float? : float? (Layout.document.write x).toList = some x

theorem Survives.of_text {x y : Float} {text : String} (hwrite : Layout.document.write x = text)
    (hlegible : Yaml.IsScalar text.toList) (hread : Numeral.float? text.toList = some y)
    (hxy : x = y) : Survives x :=
  ⟨hwrite ▸ hlegible, by rw [hwrite, hread, hxy]⟩

theorem survives_nan {x : Float} (h : x.toModel.unpack = .notANumber) : Survives x := by
  have hnan : x.isNaN = true := congrArg UnpackedFloat.isNaN h
  have hwrite : Layout.document.write x = ".nan" := if_pos hnan
  exact .of_text (y := 0.0 / 0.0) hwrite (by decide) rfl (unpack_injective (h.trans rfl))

theorem survives_infinity {x : Float} {s : Sign} (h : x.toModel.unpack = .infinity s) :
    Survives x := by
  have hnan : x.isNaN = false := congrArg UnpackedFloat.isNaN h
  have hinf : x.isInf = true := congrArg UnpackedFloat.isInf h
  have hnegative : isNegative x = decide (signBit s = 1) := by
    refine isNegative_eq (n := 2047 * 2 ^ 52) ?_ (by decide)
    rw [toNat_toBits, h, code]
  have hwrite : Layout.document.write x = (if signBit s = 1 then "-" else "") ++ ".inf" := by
    rw [Layout.write, hnan, hinf, hnegative, if_neg Bool.false_ne_true]
    simp [Layout.document]
  cases s with
  | negative =>
    exact .of_text (y := -1.0 / 0.0) hwrite (by decide) rfl (unpack_injective (h.trans rfl))
  | positive =>
    exact .of_text (y := 1.0 / 0.0) hwrite (by decide) rfl (unpack_injective (h.trans rfl))

theorem survives_zero {x : Float} {s : Sign} (h : x.toModel.unpack = .zero s) : Survives x := by
  have hnan : x.isNaN = false := congrArg UnpackedFloat.isNaN h
  have hinf : x.isInf = false := congrArg UnpackedFloat.isInf h
  have hbits := toNat_toBits x
  rw [h, code] at hbits
  have hnegative : isNegative x = decide (signBit s = 1) :=
    isNegative_eq (n := 0) (by rw [hbits, add_zero]) (Nat.two_pow_pos 63)
  have hsignificand : (magnitude x).significand = 0 := by
    simp only [magnitude, Nat.one_shiftLeft]
    cases s <;> simp [hbits, signBit]
  have hwrite : Layout.document.write x = (if signBit s = 1 then "-" else "") ++ "0.0" := by
    rw [Layout.write, hnan, hinf, hnegative, if_neg Bool.false_ne_true, if_neg Bool.false_ne_true]
    simp [Layout.document, hsignificand]
    rw [String.append_assoc]
    rfl
  have hplain : float? "0.0".toList = some 0 := by decide +kernel
  have hminus : float? "-0.0".toList = some (-0) := by decide +kernel
  cases s with
  | negative =>
    exact .of_text (y := -0) hwrite (by decide) hminus (unpack_injective (h.trans rfl))
  | positive => exact .of_text (y := 0) hwrite (by decide) hplain (unpack_injective (h.trans rfl))

theorem survives_finite {x : Float} {s : Sign} {m : ℕ} {e : ℤ} {hm : 0 < m}
    (h : x.toModel.unpack = .finite s m e hm) : Survives x := by
  have hnan : x.isNaN = false := congrArg UnpackedFloat.isNaN h
  have hinf : x.isInf = false := congrArg UnpackedFloat.isInf h
  obtain ⟨hmagnitude, hnegative⟩ := magnitude_eq h
  have hcanonical := canonical_magnitude h
  have hcovers := Magnitude.covers_shortest .even hcanonical
  have hspells := spells_positive ((⟨m, e⟩ : Magnitude).shortest .even)
  have hwrite : Layout.document.write x = (if signBit s = 1 then "-" else "") ++
      Layout.document.positive ((⟨m, e⟩ : Magnitude).shortest .even) := by
    rw [Layout.write, hnan, hinf, hnegative, hmagnitude, if_neg Bool.false_ne_true,
      if_neg Bool.false_ne_true]
    simp [Layout.document, hm.ne']
  have hleast : 10 ^ (-400 : ℤ) ≤ ((⟨m, e⟩ : Magnitude).shortest .even).value :=
    (ten_zpow_le (by decide) (by decide)).trans (hcovers.half_le hcanonical)
  obtain ⟨y, hy, hplain, hminus⟩ := float?_spells hspells hleast (hcovers.lt_overflow hcanonical)
  rw [hcovers.nearest_eq hcanonical] at hy
  have hne : (m : ℝ) * 2 ^ e ≠ 0 := by positivity
  have hx : Reads x (signed s (m * 2 ^ e)) := congrArg real? h
  cases s with
  | negative =>
    refine .of_text (y := -y) hwrite ?_ ?_ (hx.eq hy.neg (neg_ne_zero.2 hne))
    · simpa [signBit] using hspells.isScalar_minus
    · simpa [signBit] using hminus
  | positive =>
    refine .of_text (y := y) hwrite ?_ ?_ (hx.eq hy hne)
    · simpa [signBit] using hspells.isScalar
    · simpa [signBit] using hplain

theorem survives (x : Float) : Survives x := by
  cases h : x.toModel.unpack with
  | notANumber => exact survives_nan h
  | infinity s => exact survives_infinity h
  | zero s => exact survives_zero h
  | finite s m e hm => exact survives_finite h

instance : Yaml.LawfulNumeral Float where
  legible x := (survives x).legible
  ofScalar?_document x := (survives x).float?

end ScanMatch.Numeral
