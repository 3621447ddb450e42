import ScanMatch.Fault
import ScanMatch.Scalar

/-!
# Blocks

What the search splits: a square of `2 ^ level` by `2 ^ level` pixel translations at one
rotation, with a bound on the score of all of them. A block of level 0 is a single translation.
-/
namespace ScanMatch

inductive Bound (R : Type) where
  | unbounded
  | score (value : R)
  /-- The score is not a number, although it was made of numbers only. -/
  | undefined (value : R)
  deriving DecidableEq, Repr

namespace Bound

variable {R : Type} [Scalar R]

/-- The order of bounds: that of their values, with the unknown bound at infinity and undefined
scores below all others. -/
def order : Bound R → Bound R → Ordering
  | .undefined _, .undefined _ => .eq
  | .undefined _, _ => .lt
  | _, .undefined _ => .gt
  | .score a, .score b => Scalar.totalOrder a b
  | .unbounded, .unbounded => .eq
  | .unbounded, .score b =>
    match Scalar.infinity? (R := R) with
    | some top => Scalar.totalOrder top b
    | none => .gt
  | .score a, .unbounded =>
    match Scalar.infinity? (R := R) with
    | some top => Scalar.totalOrder a top
    | none => .lt

/-- The value of a bound; an unknown one is infinite. -/
def value : Bound R → R
  | .unbounded => Scalar.infinity
  | .score a => a
  | .undefined a => a

def finite? : Bound R → Option R
  | .score a => if Scalar.isFinite a then some a else none
  | _ => none

end Bound

/-- A square of translations at one rotation. It covers `x * 2 ^ level` up to and without
`(x + 1) * 2 ^ level`, and the same for `y`. -/
structure Block (R : Type) where
  registration : Nat
  level : Nat
  rotation : Nat
  x : Int
  y : Int
  bound : Bound R
  deriving DecidableEq, Repr

namespace Block

/-- The places of the four quarters, as offsets in twice the coordinates of the whole. -/
def quarters : List (Int × Int) := [(0, 0), (1, 0), (0, 1), (1, 1)]

/-- Whether block `b` of side `d`, which covers `b * d` to `b * d + d - 1`, meets the translations
from `t0` to `t1`. -/
def meets (b d t0 t1 : Int) : Checked Bool := do
  let first ← Checked.int32 (b * d)
  if t1 < first then return false
  let past ← Checked.int32 (first + d)
  let last ← Checked.int32 (past - 1)
  return !decide (last < t0)

/-- The blocks of side `d` along one axis that meet the translations from `t0` to `t1`. -/
def covering (t0 t1 d : Int) : Checked (List Int) := do
  let first ← Checked.floorDiv t0 d
  let last ← Checked.floorDiv t1 d
  let _ ← Checked.int32 (d * (last + 1))
  return (List.range (last + 1 - first).toNat).map fun (i : Nat) => first + (i : Int)

/-- How many blocks a block of a level stands for, itself included. -/
def weightAt : Nat → Nat
  | 0 => 1
  | level + 1 => 4 * weightAt level + 1

/-- How many blocks a block stands for, itself included. -/
def weight {R : Type} (b : Block R) : Nat := weightAt b.level

/-- How many blocks the blocks of a list stand for, themselves included. -/
def totalWeight {R : Type} : List (Block R) → Nat
  | [] => 0
  | b :: bs => b.weight + totalWeight bs

theorem totalWeight_append {R : Type} (bs cs : List (Block R)) :
    totalWeight (bs ++ cs) = totalWeight bs + totalWeight cs := by
  induction bs with
  | nil => simp [totalWeight]
  | cons b bs ih => simp only [List.cons_append, totalWeight, ih]; omega

theorem totalWeight_perm {R : Type} {bs cs : List (Block R)} (h : bs.Perm cs) :
    totalWeight bs = totalWeight cs := by
  induction h with
  | nil => rfl
  | cons b _ ih => simp only [totalWeight, ih]
  | swap b c bs => simp only [totalWeight]; omega
  | trans _ _ ih₁ ih₂ => exact ih₁.trans ih₂

end Block

end ScanMatch
