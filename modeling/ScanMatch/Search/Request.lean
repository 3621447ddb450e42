import ScanMatch.Prior.Gaussian

/-!
# Search requests

The window of one search: inclusive translation bounds in full-resolution pixels, rotations
sampled from the least to the greatest at a fixed step, the scale of raw scores, the score below
which a block is dropped, and a prior.
-/
namespace ScanMatch

/-- The window and scoring of one search. The translations are whole pixels, bounds included. -/
structure Request (R : Type) where
  tx0 : Int
  tx1 : Int
  ty0 : Int
  ty1 : Int
  rotationMin : R
  rotationMax : R
  rotationStep : R
  scale : R
  /-- A prior, whose penalty is taken off the scaled score. -/
  prior : Option (Prior R)
  /-- Blocks whose scaled score, before the penalty, is below this are dropped. -/
  minScore : Option R
  deriving DecidableEq, Repr

inductive Refusal (R : Type) where
  | invertedX
  | invertedY
  | tooFewLevels
  | invertedRotation (first last : R)
  | stepNotPositive (step : R)
  | fault (fault : Fault)
  deriving DecidableEq, Repr

def Refusal.message {R : Type} (number : R → String) : Refusal R → String
  | .invertedX => "tx1 < tx0"
  | .invertedY => "ty1 < ty0"
  | .tooFewLevels => "search needs a pyramid with at least two levels"
  | .invertedRotation first last =>
    "rotation range inverted: " ++ number first ++ " > " ++ number last
  | .stepNotPositive step => "rotation step must be positive, got " ++ number step
  | .fault e => e.message

/-- A checked computation inside one that may be refused. -/
def Checked.orRefuse {R α : Type} : Checked α → Except (Refusal R) α
  | .ok a => .ok a
  | .error e => .error (.fault e)

namespace Request

variable {R : Type} [Scalar R]

/-- Translations only: rotation 0, scale 1, no prior and nothing dropped. -/
def ofWindow (tx0 tx1 ty0 ty1 : Int) : Request R :=
  { tx0, tx1, ty0, ty1, rotationMin := 0, rotationMax := 0, rotationStep := 0, scale := 1,
    prior := none, minScore := none }

/-- The square window of so many pixels to each side of a center. -/
def around (cx cy radius : Int) : Checked (Request R) := do
  let tx0 ← Checked.int32 (cx - radius)
  let tx1 ← Checked.int32 (cx + radius)
  let ty0 ← Checked.int32 (cy - radius)
  let ty1 ← Checked.int32 (cy + radius)
  return ofWindow tx0 tx1 ty0 ty1

def withRotation (r : Request R) (first last step : R) : Request R :=
  { r with rotationMin := first, rotationMax := last, rotationStep := step }

def isNumeric (r : Request R) : Bool := !Arith.isNaN r.scale && r.prior.all Prior.isNumeric

/-- Slack in the count of rotations, so that a range of whole steps keeps its upper end. -/
def rotationSlack : R := 1e-9

def rotationCount (span step : R) : Checked Nat :=
  Checked.nat64 (Scalar.toNat64 (Scalar.floor (span / step + rotationSlack)) + 1)

/-- The rotation samples. Each is computed from its index, so that no error adds up. -/
def rotations (r : Request R) : Except (Refusal R) (Array R) := do
  if ¬ r.rotationMin ≤ r.rotationMax then
    throw (.invertedRotation r.rotationMin r.rotationMax)
  let span := r.rotationMax - r.rotationMin
  if Arith.isZero span then return #[r.rotationMin]
  if ¬ 0 < r.rotationStep then throw (.stepNotPositive r.rotationStep)
  let count ← (rotationCount span r.rotationStep).orRefuse
  return Array.ofFn fun i : Fin count => r.rotationMin + Arith.ofInt (i : Nat) * r.rotationStep

end Request

end ScanMatch
