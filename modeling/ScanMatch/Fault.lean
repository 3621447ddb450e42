/-!
# Faults

What stops a computation: an integer that leaves its range, an index that leaves its array, or a
stated condition that does not hold. `Checked` computations answer a value or the fault that
arose first.
-/
namespace ScanMatch

inductive Edge where
  | left
  | top
  | right
  | bottom
  deriving DecidableEq, Repr

def Edge.name : Edge → String
  | .left => "left"
  | .top => "top"
  | .right => "right"
  | .bottom => "bottom"

inductive Fault where
  | overflow
  | divisionByZero
  | indexOutOfBounds
  /-- A block of translations scored above the block that it was split from. -/
  | boundViolation
  | invertedRect
  | negativeInformation
  | emptyPyramid
  /-- A coarse level does not reach past one side of the base grid. -/
  | uncovered (level : Nat) (edge : Edge)
  /-- The weights of a grouped scan do not add up to its number of points. -/
  | weightMismatch
  deriving DecidableEq, Repr

def Fault.message : Fault → String
  | .overflow => "integer overflow"
  | .divisionByZero => "division by zero"
  | .indexOutOfBounds => "index out of bounds"
  | .boundViolation => "child scored above parent"
  | .invertedRect => "assertion failed: x1 >= x0 && y1 >= y0"
  | .negativeInformation => "information matrix diagonal must be non-negative"
  | .emptyPyramid => "pyramid needs at least one level"
  | .uncovered level edge => "level " ++ toString level ++ " misses " ++ edge.name ++ " edge"
  | .weightMismatch => "weights do not add up to the number of points"

/-- A value, or the fault that arose first. -/
abbrev Checked := Except Fault

namespace Checked

@[inline] def int32 (n : Int) : Checked Int :=
  if -2147483648 ≤ n ∧ n ≤ 2147483647 then .ok n else .error .overflow

@[inline] def int64 (n : Int) : Checked Int :=
  if -9223372036854775808 ≤ n ∧ n ≤ 9223372036854775807 then .ok n else .error .overflow

@[inline] def nat32 (n : Nat) : Checked Nat :=
  if n ≤ 4294967295 then .ok n else .error .overflow

@[inline] def nat64 (n : Nat) : Checked Nat :=
  if n ≤ 18446744073709551615 then .ok n else .error .overflow

@[inline] def require (p : Prop) [Decidable p] (fault : Fault) : Checked Unit :=
  if p then .ok () else .error fault

/-- Division with a remainder that is never negative, so that a positive divisor rounds the
quotient down. Both operands are signed 32-bit numbers. -/
@[inline] def floorDiv (a b : Int) : Checked Int :=
  if b = 0 then .error .divisionByZero else int32 (a / b)

/-- The side of a cell at a level, `2 ^ level`, as a signed 32-bit number. The power of level 31
is the sign bit. -/
@[inline] def cellSide (level : Nat) : Checked Int :=
  if level < 31 then .ok (1 <<< level : Nat)
  else if level = 31 then .ok (-2147483648)
  else .error .overflow

/-- Binding a computation that answers gives what the rest answers. -/
theorem bind_eq_ok {α β : Type} {a : Checked α} {f : α → Checked β} {b : β}
    (h : a >>= f = .ok b) : ∃ x, a = .ok x ∧ f x = .ok b := by
  cases a with
  | error e => cases h
  | ok x => exact ⟨x, rfl, h⟩

end Checked

end ScanMatch
