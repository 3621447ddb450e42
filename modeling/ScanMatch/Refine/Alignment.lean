import ScanMatch.Refine.RigidFit

/-!
# Alignment of two scans

Moves a scan `b` onto a scan `a`. Each round matches every point of `a` with the nearest moved
point of `b` and every point of `b`, moved, with the nearest point of `a`. A match is kept if its
distance is at most a ratio times the distance that the other end's own match has. The rigid fit
of all matches kept, in both directions, is the next motion.
-/
namespace ScanMatch

structure AlignParams (R : Type) where
  /-- Greatest ratio of a match's distance to that of the other end's own match. -/
  maxDistRatio : R
  /-- A round that moves less than this many meters may be the last. -/
  transThresh : R
  /-- A round that turns less than this may be the last. -/
  radThresh : R
  maxIterations : Nat
  deriving DecidableEq, Repr

structure Aligned (R : Type) where
  pose : Pose R
  /-- Matches kept in the last fit, counting both directions. -/
  weight : R
  iterations : Nat
  deriving DecidableEq, Repr

structure Neighbour (R : Type) where
  index : Nat
  distSq : R
  deriving DecidableEq, Repr

variable {R : Type} [Scalar R]

namespace AlignParams

/-! What a setting that is not given stands for. -/

def defaultMaxDistRatio : R := 2

/-- A millimeter. -/
def defaultTransThresh : R := 0.001

/-- A hundredth of a degree. -/
def defaultRadThresh : R := Scalar.ofDegrees 0.01

def defaultMaxIterations : Nat := 100

def standard : AlignParams R :=
  { maxDistRatio := defaultMaxDistRatio, transThresh := defaultTransThresh
    radThresh := defaultRadThresh, maxIterations := defaultMaxIterations }

end AlignParams

namespace Neighbour

/-- The nearer of the nearest point so far and the next one. The first of equally near points
is kept, and a point at no finite distance is never nearest. -/
def closer (p : Point R) (best : Option (Neighbour R)) (index : Nat) (q : Point R) :
    Option (Neighbour R) :=
  let distSq := Arith.sq (q.x - p.x) + Arith.sq (q.y - p.y)
  match best with
  | none => if Scalar.belowInfinity distSq then some ⟨index, distSq⟩ else none
  | some b => if distSq < b.distSq then some ⟨index, distSq⟩ else some b

def nearest (points : Array (Point R)) (p : Point R) : Neighbour R :=
  let best := points.foldl (fun (state : Option (Neighbour R) × Nat) q =>
    (closer p state.1 state.2 q, state.2 + 1)) (none, 0)
  best.1.getD ⟨0, Scalar.infinity⟩

/-- Whether a match is kept against the other end's own match. -/
def keeps (ratio : R) (own other : Neighbour R) : Bool :=
  !decide (ratio * Arith.sqrt other.distSq < Arith.sqrt own.distSq)

end Neighbour

namespace Alignment

def widenAll {S : Type} [Precision S R] (points : Array (Point S)) : Array (Point R) :=
  points.map fun p => ⟨widen p.x, widen p.y⟩

def move (pose : Pose R) (p : Point R) : Point R :=
  let sine := Scalar.sin pose.theta
  let cosine := Scalar.cos pose.theta
  ⟨p.x * cosine - p.y * sine + pose.x, p.x * sine + p.y * cosine + pose.y⟩

/-- The matches kept at a pose, as pairs of a point of `b` and one of `a`: first those of the
points of `a`, then those of the points of `b`. -/
def pairs (ratio : R) (a b : Array (Point R)) (pose : Pose R) : List (Point R × Point R) :=
  let moved := b.map (move pose)
  let ofB := moved.map (Neighbour.nearest a)
  let ofA := a.map (Neighbour.nearest moved)
  let fromA := (ofA.zip a).toList.filterMap fun (own, p) =>
    match ofB[own.index]?, b[own.index]? with
    | some other, some q => if own.keeps ratio other then some (q, p) else none
    | _, _ => none
  let fromB := (ofB.zip b).toList.filterMap fun (own, q) =>
    match ofA[own.index]?, a[own.index]? with
    | some other, some p => if own.keeps ratio other then some (q, p) else none
    | _, _ => none
  fromA ++ fromB

/-- Whether a round from one pose to the next changed so little that it may be the last. -/
def settled (params : AlignParams R) (pose next : Pose R) : Bool :=
  let moved := Arith.sq (pose.x - next.x) + Arith.sq (pose.y - next.y)
  let turned := Arith.abs (Angle.diff next.theta pose.theta)
  decide (moved < Arith.sq params.transThresh) && decide (turned < params.radThresh)

/-- Up to so many rounds, after those already made. -/
def rounds (params : AlignParams R) (a b : Array (Point R)) : Nat → Aligned R → Aligned R
  | 0, state => state
  | budget + 1, state =>
    let fit := RigidFit.ofPairs (pairs params.maxDistRatio a b state.pose)
    match fit.solve with
    | none => { state with weight := 0, iterations := state.iterations + 1 }
    | some next =>
      let result : Aligned R := ⟨next, fit.weight, state.iterations + 1⟩
      if settled params state.pose next then result else rounds params a b budget result

end Alignment

/-- Moves scan `b` onto scan `a`, starting from a given motion. Without points or matches the
motion is the initial one and the weight zero. -/
def align {S : Type} [Precision S R] (a b : Array (Point S)) (initial : Pose R)
    (params : AlignParams R) : Aligned R :=
  let start : Aligned R := ⟨initial, 0, 0⟩
  if a.isEmpty || b.isEmpty then start
  else
    Alignment.rounds params (Alignment.widenAll a) (Alignment.widenAll b) params.maxIterations
      start

end ScanMatch
