import ScanMatch.Proofs.Binary64

/-! # The order of scores

All numbers are ordered, and what is not a number is comparable with nothing. So a maximum is well
defined wherever one value at least is a number.
-/
namespace ScanMatch

/-- Any two numbers are comparable. A value is a number if it is at most itself. -/
class LawfulOrder (R : Type) [Arith R] : Prop where
  le_trans {a b c : R} : a ≤ b → b ≤ c → a ≤ c
  le_total {a b : R} : a ≤ a → b ≤ b → a ≤ b ∨ b ≤ a
  le_self_of_le {a b : R} : a ≤ b → a ≤ a ∧ b ≤ b
  lt_iff_le_not_ge {a b : R} : a < b ↔ a ≤ b ∧ ¬ b ≤ a

namespace LawfulOrder

variable {R : Type} [Arith R]

theorem isNaN_eq_false_iff {a : R} : Arith.isNaN a = false ↔ a ≤ a := by simp [Arith.isNaN]

variable [LawfulOrder R] {a b c : R}

theorem le_of_lt (h : a < b) : a ≤ b := (lt_iff_le_not_ge.mp h).1

theorem lt_irrefl (a : R) : ¬ a < a := fun h => (lt_iff_le_not_ge.mp h).2 (le_of_lt h)

theorem lt_trans (hab : a < b) (hbc : b < c) : a < c := by
  obtain ⟨hle, hnot⟩ := lt_iff_le_not_ge.mp hab
  have hle' := le_of_lt hbc
  exact lt_iff_le_not_ge.mpr ⟨le_trans hle hle', fun hca => hnot (le_trans hle' hca)⟩

theorem le_of_not_lt (ha : a ≤ a) (hb : b ≤ b) (h : ¬ a < b) : b ≤ a := by
  rcases le_total ha hb with hab | hba
  · by_contra hba
    exact h (lt_iff_le_not_ge.mpr ⟨hab, hba⟩)
  · exact hba

end LawfulOrder

instance : LawfulOrder ℝ where
  le_trans h h' := h.trans h'
  le_total _ _ := total_of (· ≤ ·) _ _
  le_self_of_le _ := ⟨le_rfl, le_rfl⟩
  lt_iff_le_not_ge := Std.LawfulOrderLT.lt_iff _ _

instance : LawfulOrder Float where
  le_trans hxy hyz := by
    obtain ⟨a, b, hx, hy, hab⟩ := Binary64.le_iff_extended.mp hxy
    obtain ⟨b', c, hy', hz, hbc⟩ := Binary64.le_iff_extended.mp hyz
    obtain rfl := Option.some.inj (hy.symm.trans hy')
    exact Binary64.le_iff_extended.mpr ⟨a, c, hx, hz, hab.trans hbc⟩
  le_total hx hy := by
    obtain ⟨a, -, hx, -⟩ := Binary64.le_iff_extended.mp hx
    obtain ⟨b, -, hy, -⟩ := Binary64.le_iff_extended.mp hy
    rcases total_of (· ≤ ·) a b with hab | hba
    · exact Or.inl (Binary64.le_iff_extended.mpr ⟨a, b, hx, hy, hab⟩)
    · exact Or.inr (Binary64.le_iff_extended.mpr ⟨b, a, hy, hx, hba⟩)
  le_self_of_le h := by
    obtain ⟨a, b, hx, hy, -⟩ := Binary64.le_iff_extended.mp h
    exact ⟨Binary64.le_iff_extended.mpr ⟨a, a, hx, hx, le_rfl⟩,
      Binary64.le_iff_extended.mpr ⟨b, b, hy, hy, le_rfl⟩⟩
  lt_iff_le_not_ge := by
    intro x y
    simp only [Binary64.lt_iff_extended, Binary64.le_iff_extended]
    constructor
    · rintro ⟨a, b, hx, hy, hab⟩
      refine ⟨⟨a, b, hx, hy, hab.le⟩, ?_⟩
      rintro ⟨b', a', hy', hx', hba⟩
      obtain rfl := Option.some.inj (hx.symm.trans hx')
      obtain rfl := Option.some.inj (hy.symm.trans hy')
      exact hab.not_ge hba
    · rintro ⟨⟨a, b, hx, hy, -⟩, hnot⟩
      refine ⟨a, b, hx, hy, ?_⟩
      by_contra hba
      exact hnot ⟨b, a, hy, hx, not_lt.mp hba⟩

end ScanMatch
