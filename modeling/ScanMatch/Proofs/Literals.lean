import Mathlib

/-! # Numerals of the exact theory

A numeral of the real numbers carries a proof that it is at least two. Where search puts one
together, every file gives it a lemma of its own, named after the definition that comes first. These
instances are that proof by one name, so that a definition does not depend on what stands before
it. -/
namespace ScanMatch

instance atLeastTwo_two : Nat.AtLeastTwo 2 := ⟨le_refl 2⟩

instance atLeastTwo_ten : Nat.AtLeastTwo 10 := ⟨by decide⟩

end ScanMatch
