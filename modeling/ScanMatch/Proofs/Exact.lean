import ScanMatch.Proofs.Literals
import ScanMatch.Scalar

/-! # Exact real arithmetic

The real numbers as scalars: nothing is rounded, every value is a finite number, and no value lies
above all others. -/
namespace ScanMatch

noncomputable section

/-- The integer part of a real number, toward zero. -/
def integerPart (x : ℝ) : ℤ := if 0 ≤ x then ⌊x⌋ else ⌈x⌉

instance : Arith ℝ where
  decidableLT := inferInstance
  decidableLE := inferInstance
  ofInt n := n
  ofDecimal mantissa negative exponent :=
    if negative then (mantissa : ℝ) / 10 ^ exponent else mantissa * 10 ^ exponent
  sqrt := Real.sqrt

instance : Scalar ℝ where
  floor x := ⌊x⌋
  ceil x := ⌈x⌉
  round x := if 0 ≤ x then ⌊x + 1 / 2⌋ else ⌈x - 1 / 2⌉
  sin := Real.sin
  cos := Real.cos
  atan2 y x := Complex.arg ⟨x, y⟩
  log2 := Real.logb 2
  pi := Real.pi
  rem x y := x - y * integerPart (x / y)
  truncate lo hi x := max lo (min hi (integerPart x))
  isFinite _ := true
  totalOrder := compare
  infinity? := none

/-- Nothing is lost when a real number is stored. -/
instance : Precision ℝ ℝ where
  widen x := x
  narrow x := x

end

namespace Exact

@[simp] theorem ofInt_eq (n : ℤ) : (Arith.ofInt n : ℝ) = n := rfl

@[simp] theorem zero_eq : @OfNat.ofNat ℝ 0 (Arith.instOfNat 0) = 0 := Int.cast_zero

@[simp] theorem one_eq : @OfNat.ofNat ℝ 1 (Arith.instOfNat 1) = 1 := Int.cast_one

@[simp] theorem ofNat_eq (n : ℕ) [n.AtLeastTwo] :
    @OfNat.ofNat ℝ n (Arith.instOfNat n) = OfNat.ofNat n := by
  change ((n : ℤ) : ℝ) = OfNat.ofNat n
  rw [Int.cast_natCast]
  rfl

@[simp] theorem ofScientific_eq (m : ℕ) (negative : Bool) (e : ℕ) :
    @OfScientific.ofScientific ℝ Arith.instOfScientific m negative e =
      if negative then (m : ℝ) / 10 ^ e else m * 10 ^ e := rfl

@[simp] theorem isNaN_eq (x : ℝ) : Arith.isNaN x = false := by simp [Arith.isNaN]

@[simp] theorem integerPart_intCast (k : ℤ) : integerPart (k : ℝ) = k := by simp [integerPart]

theorem toInt32_intCast {k : ℤ} (h : -2147483648 ≤ k ∧ k ≤ 2147483647) :
    Scalar.toInt32 (k : ℝ) = k := by
  change max (-2147483648) (min 2147483647 (integerPart (k : ℝ))) = k
  rw [integerPart_intCast]
  omega

theorem toInt32_floor {x : ℝ} (h : -2147483648 ≤ ⌊x⌋ ∧ ⌊x⌋ ≤ 2147483647) :
    Scalar.toInt32 (Scalar.floor x) = ⌊x⌋ := toInt32_intCast h

theorem toInt64_round {k : ℤ} (h : -9223372036854775808 ≤ k ∧ k ≤ 9223372036854775807) :
    Scalar.toInt64 (Scalar.round (k : ℝ)) = k := by
  have hround : (Scalar.round (k : ℝ) : ℝ) = k := by
    change (if (0 : ℝ) ≤ k then ((⌊(k : ℝ) + 1 / 2⌋ : ℤ) : ℝ) else (⌈(k : ℝ) - 1 / 2⌉ : ℤ)) = k
    have hfloor : ⌊(k : ℝ) + 1 / 2⌋ = k := by
      rw [Int.floor_eq_iff]
      constructor <;> linarith
    have hceil : ⌈(k : ℝ) - 1 / 2⌉ = k := by
      rw [Int.ceil_eq_iff]
      constructor <;> linarith
    rw [hfloor, hceil, ite_self]
  rw [hround]
  change max (-9223372036854775808) (min 9223372036854775807 (integerPart (k : ℝ))) = k
  rw [integerPart_intCast]
  omega

/-- What is less than half a unit rounds to nothing. -/
theorem toInt64_round_of_abs_lt {x : ℝ} (h : |x| < 1 / 2) :
    Scalar.toInt64 (Scalar.round x) = 0 := by
  obtain ⟨hlow, hhigh⟩ := abs_lt.mp h
  have hround : (Scalar.round x : ℝ) = Scalar.round ((0 : ℤ) : ℝ) := by
    change (if 0 ≤ x then ((⌊x + 1 / 2⌋ : ℤ) : ℝ) else (⌈x - 1 / 2⌉ : ℤ)) =
      if (0 : ℝ) ≤ (0 : ℤ) then ((⌊((0 : ℤ) : ℝ) + 1 / 2⌋ : ℤ) : ℝ)
        else (⌈((0 : ℤ) : ℝ) - 1 / 2⌉ : ℤ)
    have hup : ⌊x + 1 / 2⌋ = 0 := by
      rw [Int.floor_eq_zero_iff]
      constructor <;> linarith
    have hdown : ⌈x - 1 / 2⌉ = 0 := by
      rw [Int.ceil_eq_zero_iff]
      constructor <;> linarith
    rw [hup, hdown]
    norm_num
  rw [hround]
  exact toInt64_round (by decide)

end Exact

end ScanMatch
