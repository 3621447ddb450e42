import ScanMatch.Proofs.Literals
import ScanMatch.Proofs.Documents
import ScanMatch.Decimal.Numeral

/-!
# Texts of decimals

A decimal is written with a point or with an exponent, by the place of its point. Either way the
text reads as a decimal of the same value, though its digits and its exponent may differ.
-/
namespace ScanMatch

open Yaml

namespace Decimal

noncomputable def value (d : Decimal) : ℝ := d.digits * 10 ^ d.exponent

theorem ofDigits_eq (cs : List Char) : ofDigits cs = Nat.ofDigitChars 10 cs 0 := by
  simp only [ofDigits, Nat.ofDigitChars_eq_foldl, Nat.mul_comm]

/-- What may follow the digits of a text: nothing, or an exponent. -/
inductive Scales : List Char → ℤ → Prop where
  | none : Scales [] 0
  | some {cs : List Char} {e : ℤ} (hword : ∀ c ∈ cs, isWordChar c = true)
    (h : exponent? cs = some e) : Scales ('e' :: cs) e

theorem Scales.word {cs : List Char} {e : ℤ} (h : Scales cs e) : ∀ c ∈ cs, isWordChar c = true := by
  cases h with
  | none => exact fun c hc => nomatch hc
  | some hword =>
    intro c hc
    rcases List.mem_cons.1 hc with rfl | hc
    · decide
    · exact hword c hc

theorem Scales.takeWhile {cs : List Char} {e : ℤ} (h : Scales cs e) :
    cs.takeWhile Char.isDigit = [] ∧ cs.dropWhile Char.isDigit = cs := by
  cases h with
  | none => exact ⟨rfl, rfl⟩
  | some => exact ⟨rfl, rfl⟩

/-- A text of digits, perhaps with a point and an exponent, and the number that it spells. -/
structure Spells (cs : List Char) (a : ℝ) : Prop where
  word : ∀ c ∈ cs, isWordChar c = true
  head : cs.head?.any Char.isDigit = true
  value : ∃ d, ofText? cs = some d ∧ d.value = a

theorem Spells.isScalar {cs : List Char} {a : ℝ} (h : Spells cs a) : IsScalar cs where
  word := h.word
  ne_nil := by
    rintro rfl
    cases h.head
  ne_dash := by
    rintro rfl
    cases h.head

theorem Spells.isScalar_minus {cs : List Char} {a : ℝ} (h : Spells cs a) :
    IsScalar ('-' :: cs) where
  word c hc := by
    rcases List.mem_cons.1 hc with rfl | hc
    · decide
    · exact h.word c hc
  ne_nil := List.cons_ne_nil _ _
  ne_dash hdash := h.isScalar.ne_nil (List.cons.inj hdash).2

theorem spells_whole {whole tail : List Char} {e : ℤ} (hwhole : ∀ c ∈ whole, c.isDigit = true)
    (hne : whole ≠ []) (htail : Scales tail e) :
    Spells (whole ++ tail) (ofDigits whole * 10 ^ e) where
  word c hc := (List.mem_append.1 hc).elim (fun hc => isWordChar_of_isDigit (hwhole c hc))
    (htail.word c)
  head := by
    obtain ⟨c, cs, rfl⟩ := List.exists_cons_of_ne_nil hne
    exact hwhole c List.mem_cons_self
  value := by
    refine ⟨⟨ofDigits whole, e⟩, ?_, rfl⟩
    rw [ofText?, List.takeWhile_append_of_pos hwhole, List.dropWhile_append_of_pos hwhole]
    cases htail with
    | none => simp [hne]
    | some hword h => simp [hne, h]

theorem spells_fraction (whole fraction : List Char) {tail : List Char} {e : ℤ}
    (hwhole : ∀ c ∈ whole, c.isDigit = true) (hne : whole ≠ [])
    (hfraction : ∀ c ∈ fraction, c.isDigit = true) (htail : Scales tail e) :
    Spells (whole ++ '.' :: (fraction ++ tail))
      (ofDigits (whole ++ fraction) * 10 ^ (e - fraction.length)) where
  word c hc := by
    simp only [List.mem_append, List.mem_cons] at hc
    rcases hc with hc | rfl | hc | hc
    · exact isWordChar_of_isDigit (hwhole c hc)
    · decide
    · exact isWordChar_of_isDigit (hfraction c hc)
    · exact htail.word c hc
  head := by
    obtain ⟨c, cs, rfl⟩ := List.exists_cons_of_ne_nil hne
    exact hwhole c List.mem_cons_self
  value := by
    refine ⟨⟨ofDigits (whole ++ fraction), e - fraction.length⟩, ?_, rfl⟩
    rw [ofText?, List.takeWhile_append_of_pos hwhole, List.dropWhile_append_of_pos hwhole]
    have htake : (fraction ++ tail).takeWhile Char.isDigit = fraction := by
      rw [List.takeWhile_append_of_pos hfraction, htail.takeWhile.1, List.append_nil]
    have hdrop : (fraction ++ tail).dropWhile Char.isDigit = tail := by
      rw [List.dropWhile_append_of_pos hfraction, htail.takeWhile.2]
    simp [hne, htake, hdrop]
    cases htail with
    | none => simp
    | some hword h => simp [h]

theorem unsigned?_toDigits (n : ℕ) : exponent?.unsigned? (Nat.toDigits 10 n) = some (n : ℤ) := by
  rw [exponent?.unsigned?, if_pos ⟨Nat.toDigits_ne_nil, List.all_eq_true.2 isDigit_toDigits⟩,
    ofDigits_eq, Nat.ofDigitChars_ten_toDigits]

theorem exponent?_toString (n : ℤ) : exponent? (toString n).toList = some n := by
  rw [Int.toString_eq_repr, Int.repr_eq_if]
  split
  · next h =>
    have hne (d : Char) (hd : d.isDigit = false) : d ∉ Nat.toDigits 10 n.toNat :=
      not_mem_toDigits hd
    rw [Nat.toList_repr, exponent?, unsigned?_toDigits, Int.toNat_of_nonneg h]
    · exact fun cs h => hne '+' (by decide) (by simp [h])
    · exact fun cs h => hne '-' (by decide) (by simp [h])
  · next h =>
    have hneg : -((-n).toNat : ℤ) = n := by omega
    rw [String.toList_append, Nat.toList_repr]
    simp only [String.reduceToList, List.cons_append, List.nil_append]
    rw [exponent?, unsigned?_toDigits, Option.map_some, hneg]

theorem scales_toString (n : ℤ) : Scales ('e' :: (toString n).toList) n := by
  refine .some ?_ (exponent?_toString n)
  intro c hc
  rw [Int.toString_eq_repr, Int.repr_eq_if] at hc
  split at hc
  · rw [Nat.toList_repr] at hc
    exact isWordChar_of_isDigit (isDigit_toDigits c hc)
  · rw [String.toList_append, Nat.toList_repr] at hc
    rcases List.mem_append.1 hc with hc | hc
    · simp at hc
      subst hc
      decide
    · exact isWordChar_of_isDigit (isDigit_toDigits c hc)

/-! ### Layouts -/

variable {digits : List Char} (hdigits : ∀ c ∈ digits, c.isDigit = true) (hne : digits ≠ [])

include hdigits in
theorem spells_below {point : ℤ} (hpoint : point ≤ 0) :
    Spells ("0." ++ Layout.zeros (-point).toNat ++ String.ofList digits).toList
      (ofDigits digits * 10 ^ (point - digits.length)) := by
  have hfraction : ∀ c ∈ List.replicate (-point).toNat '0' ++ digits, c.isDigit = true := by
    intro c hc
    rcases List.mem_append.1 hc with hc | hc
    · rw [List.eq_of_mem_replicate hc]
      rfl
    · exact hdigits c hc
  have h := spells_fraction ['0'] _ (List.forall_mem_singleton.2 rfl) (by decide) hfraction .none
  have hvalue : ofDigits (['0'] ++ (List.replicate (-point).toNat '0' ++ digits)) =
      ofDigits digits := by
    simp [ofDigits_eq, Nat.ofDigitChars_append, Nat.ofDigitChars_cons]
  have hexponent : (0 : ℤ) - (List.replicate (-point).toNat '0' ++ digits).length =
      point - digits.length := by
    rw [List.length_append, List.length_replicate]
    omega
  rw [hvalue, hexponent] at h
  simpa [Layout.zeros] using h

include hdigits hne in
theorem spells_above {point : ℕ} (hpoint : digits.length ≤ point) :
    Spells (String.ofList digits ++ Layout.zeros (point - digits.length) ++ ".0").toList
      (ofDigits digits * 10 ^ (point - digits.length : ℤ)) := by
  have hwhole : ∀ c ∈ digits ++ List.replicate (point - digits.length) '0', c.isDigit = true := by
    intro c hc
    rcases List.mem_append.1 hc with hc | hc
    · exact hdigits c hc
    · rw [List.eq_of_mem_replicate hc]
      rfl
  have h := spells_fraction _ ['0'] hwhole (by simp [hne]) (List.forall_mem_singleton.2 rfl) .none
  have hvalue : ofDigits (digits ++ List.replicate (point - digits.length) '0' ++ ['0']) =
      ofDigits digits * 10 ^ (point - digits.length) * 10 := by
    simp [ofDigits_eq, Nat.ofDigitChars_append, Nat.ofDigitChars_cons]
    ring
  have hpow : ((ofDigits digits * 10 ^ (point - digits.length) * 10 : ℕ) : ℝ) *
      10 ^ (0 - (['0'].length : ℕ) : ℤ) = ofDigits digits * 10 ^ (point - digits.length : ℤ) := by
    rw [← Nat.cast_sub hpoint, zpow_natCast]
    simp
  rw [hvalue, hpow] at h
  simpa [Layout.zeros] using h

include hdigits in
theorem spells_within {point : ℕ} (hpositive : 0 < point) (hpoint : point < digits.length) :
    Spells (String.ofList (digits.take point) ++ "." ++ String.ofList (digits.drop point)).toList
      (ofDigits digits * 10 ^ (point - digits.length : ℤ)) := by
  have h := spells_fraction (digits.take point) (digits.drop point)
    (fun c hc => hdigits c (List.mem_of_mem_take hc)) (by
      rw [Ne, List.take_eq_nil_iff]
      rintro (rfl | rfl)
      · omega
      · exact absurd hpoint (by simp))
    (fun c hc => hdigits c (List.mem_of_mem_drop hc)) .none
  have hexponent : (0 : ℤ) - (digits.drop point).length = point - digits.length := by
    rw [List.length_drop]
    omega
  rw [List.take_append_drop, hexponent] at h
  simpa using h

include hdigits hne in
theorem spells_scientific (point : ℤ) :
    Spells (Layout.scientific digits point).toList
      (ofDigits digits * 10 ^ (point - digits.length)) := by
  obtain ⟨c, cs, rfl⟩ := List.exists_cons_of_ne_nil hne
  have hc : ∀ d ∈ [c], d.isDigit = true := fun d hd => hdigits d (by simp_all)
  have hcs : ∀ d ∈ cs, d.isDigit = true := fun d hd => hdigits d (List.mem_cons_of_mem c hd)
  cases cs with
  | nil =>
    have h := spells_whole hc (List.cons_ne_nil c []) (scales_toString (point - 1))
    simpa [Layout.scientific] using h
  | cons d cs =>
    have h := spells_fraction [c] (d :: cs) hc (List.cons_ne_nil c []) hcs
      (scales_toString (point - 1))
    have hexponent : point - 1 - ((d :: cs).length : ℤ) = point - ((c :: d :: cs).length : ℤ) := by
      simp only [List.length_cons]
      omega
    rw [hexponent] at h
    simpa [Layout.scientific] using h

/-- A decimal that is written for a document reads as a decimal of the same value. -/
theorem spells_positive (d : Decimal) : Spells (Layout.document.positive d).toList d.value := by
  have hvalue : d.value = ofDigits (Nat.toDigits 10 d.digits) * 10 ^
      ((Nat.toDigits 10 d.digits).length + d.exponent - (Nat.toDigits 10 d.digits).length) := by
    rw [ofDigits_eq, Nat.ofDigitChars_ten_toDigits, add_sub_cancel_left]
    rfl
  rw [hvalue, Layout.positive]
  generalize ((Nat.toDigits 10 d.digits).length : ℤ) + d.exponent = point
  have hdigits := isDigit_toDigits (n := d.digits)
  have hne := Nat.toDigits_ne_nil (n := d.digits) (b := 10)
  simp only [Layout.document]
  split
  · rw [Layout.fixed]
    split
    · next h => exact spells_below hdigits h
    · next h =>
      obtain ⟨n, rfl⟩ := Int.eq_ofNat_of_zero_le (by omega : 0 ≤ point)
      split
      · next hlength => exact spells_above hdigits hne hlength
      · next hlength => exact spells_within hdigits (by omega) (by simpa using hlength)
  · exact spells_scientific hdigits hne point

end Decimal

end ScanMatch
