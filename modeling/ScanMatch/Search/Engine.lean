import ScanMatch.Search.Frontier
import ScanMatch.Search.Registration

/-!
# The search engine

Best-first branch and bound over any number of requests on one frontier. The block of greatest
bound is split into its quarters until a single translation comes first; it is then the best of
all translations left. Main statement: `Engine.weight_expand`, by which a split puts back less
weight than was taken off the frontier, so that a search ends.
-/
namespace ScanMatch

structure Found (R : Type) where
  registration : Nat
  pose : Pose R
  score : R
  deriving DecidableEq, Repr

structure SearchStats (R : Type) where
  nodesExpanded : Nat
  childrenScored : Nat
  /-- Quarters dropped, outside the window or below the least score. -/
  childrenPruned : Nat
  resultsReturned : Nat
  /-- The most by which a quarter scored above the finite bound of its whole. -/
  maxBoundExcess : R
  deriving DecidableEq, Repr

inductive Verdict (R : Type) where
  | outside
  | dropped
  /-- It is kept with a score, which exceeds the bound of its whole by so much if that is finite. -/
  | kept (score : R) (excess : Option R)
  deriving DecidableEq, Repr

/-- The scans, registrations, blocks and counters of a search. -/
structure Engine (S R : Type) where
  caches : Array (ScanCache S)
  registrations : Array (Registration S R)
  frontier : Frontier R
  stats : SearchStats R

variable {S R : Type} [Scalar R] [Precision S R]

def SearchStats.zero : SearchStats R := ⟨0, 0, 0, 0, 0⟩

/-- The counters after one more quarter. -/
def SearchStats.count (stats : SearchStats R) : Verdict R → SearchStats R
  | .outside => { stats with childrenPruned := stats.childrenPruned + 1 }
  | .dropped =>
    { stats with
      childrenScored := stats.childrenScored + 1
      childrenPruned := stats.childrenPruned + 1 }
  | .kept _ excess =>
    { stats with
      childrenScored := stats.childrenScored + 1
      maxBoundExcess :=
        match excess with
        | some e => Arith.max stats.maxBoundExcess e
        | none => stats.maxBoundExcess }

namespace Registration

/-- Share of the greater score by which rounding may lift a quarter above its whole. -/
def boundTolerance : R := 1e-6

/-- By how much a score exceeds the bound of the whole, if that is finite. More than rounding
explains is a fault. -/
def boundExcess (bound : Bound R) (score : R) : Checked (Option R) :=
  match bound.finite? with
  | none => .ok none
  | some whole =>
    let excess := score - whole
    let tolerance :=
      boundTolerance * Arith.max (Arith.max (Arith.abs score) (Arith.abs whole)) 1
    if excess ≤ tolerance then .ok (some excess) else .error .boundViolation

def boundOf (r : Registration S R) (score : R) : Bound R :=
  if Arith.isNaN score && r.request.isNumeric then .undefined score else .score score

/-- What becomes of block `(x, y)` of a level, a quarter of a block with the given bound. -/
def judge (r : Registration S R) (cache : ScanCache S) (whole : Bound R) (rotation level : Nat)
    (x y : Int) : Checked (Verdict R × ScanCache S) := do
  let d ← Checked.cellSide level
  if !(← Block.meets y d r.request.ty0 r.request.ty1) then return (.outside, cache)
  if !(← Block.meets x d r.request.tx0 r.request.tx1) then return (.outside, cache)
  let (raw, cache) ← r.correlate cache rotation level x y
  let score := Arith.ofInt raw * r.request.scale
  let below :=
    match r.request.minScore with
    | some least => decide (score < least)
    | none => false
  if below then return (.dropped, cache)
  let score := score - (← r.minPenalty rotation level x y)
  let excess ← boundExcess whole score
  return (.kept score excess, cache)

/-- The quarters of a block at the offsets given that are kept, as blocks of the given level,
with the cache and the counters after them. -/
def split (r : Registration S R) (whole : Block R) (level : Nat) :
    List (Int × Int) → ScanCache S → SearchStats R →
      Checked (List (Block R) × ScanCache S × SearchStats R)
  | [], cache, stats => return ([], cache, stats)
  | (dx, dy) :: quarters, cache, stats => do
    let x ← Checked.int32 (2 * whole.x)
    let x ← Checked.int32 (x + dx)
    let y ← Checked.int32 (2 * whole.y)
    let y ← Checked.int32 (y + dy)
    let (verdict, cache) ← r.judge cache whole.bound whole.rotation level x y
    let (rest, cache, stats) ← split r whole level quarters cache (stats.count verdict)
    match verdict with
    | .kept score _ =>
      return ({ whole with level, x, y, bound := r.boundOf score } :: rest, cache, stats)
    | _ => return (rest, cache, stats)

end Registration

namespace Engine

/-- An engine over scans, with nothing to search. -/
def ofCaches (caches : Array (ScanCache S)) : Engine S R :=
  { caches, registrations := #[], frontier := .empty, stats := .zero }

/-- The seeds of a registration: at each rotation the blocks that cover the window. -/
def seeds (registration : Nat) (r : Registration S R) (level : Nat) : Checked (List (Block R)) := do
  let d ← Checked.cellSide level
  let ys ← Block.covering r.request.ty0 r.request.ty1 d
  let xs ← Block.covering r.request.tx0 r.request.tx1 d
  return (List.range r.rotations.size).flatMap fun rotation =>
    ys.flatMap fun y => xs.map fun x =>
      { registration, level, rotation, x, y, bound := .unbounded }

/-- Registers a request on a scan and a pyramid. Its index is the number of registrations
before. -/
def add (e : Engine S R) (cache : Nat) (pyramid : Pyramid S) (request : Request R) :
    Except (Refusal R) (Engine S R) := do
  if request.tx1 < request.tx0 then throw .invertedX
  if request.ty1 < request.ty0 then throw .invertedY
  if pyramid.numLevels < 2 then throw .tooFewLevels
  let level ← (Registration.startLevel request (pyramid.numLevels - 1)).orRefuse
  let _ ← (Checked.cellSide level).orRefuse
  let r ← Registration.ofRequest cache pyramid request
  let blocks ← (seeds e.registrations.size r level).orRefuse
  return { e with
    registrations := e.registrations.push r
    frontier := e.frontier.insertAll blocks }

def registration (e : Engine S R) (i : Nat) : Checked (Registration S R) :=
  match e.registrations[i]? with
  | some r => .ok r
  | none => .error .indexOutOfBounds

def size (e : Engine S R) : Nat := e.frontier.size

/-- Whether everything was returned or dropped. -/
def isEmpty (e : Engine S R) : Bool := e.frontier.isEmpty

def clearCache (e : Engine S R) (i : Nat) : Engine S R :=
  { e with caches := e.caches.modify i ScanCache.clear }

/-- Splits a block into quarters of the given level and puts those kept on the frontier. -/
def expand (e : Engine S R) (whole : Block R) (level : Nat) : Checked (Engine S R) := do
  let r ← e.registration whole.registration
  match e.caches[r.cache]? with
  | none => .error .indexOutOfBounds
  | some cache =>
    let stats := { e.stats with nodesExpanded := e.stats.nodesExpanded + 1 }
    let (blocks, cache, stats) ← r.split whole level Block.quarters cache stats
    return { e with
      caches := e.caches.set! r.cache cache
      frontier := e.frontier.insertAll blocks
      stats }

def report (e : Engine S R) (block : Block R) : Checked (Found R × Engine S R) := do
  let r ← e.registration block.registration
  let theta ← r.rotation block.rotation
  let stats := { e.stats with resultsReturned := e.stats.resultsReturned + 1 }
  return (⟨block.registration, r.reportedPose theta block.x block.y, block.bound.value⟩,
    { e with stats })

end Engine

/-- The quarters kept weigh no more than one block of their level each. -/
theorem Registration.weight_split (r : Registration S R) (whole : Block R) (level : Nat)
    (quarters : List (Int × Int)) (cache : ScanCache S) (stats : SearchStats R)
    (out : List (Block R) × ScanCache S × SearchStats R)
    (h : r.split whole level quarters cache stats = .ok out) :
    Block.totalWeight out.1 ≤ quarters.length * Block.weightAt level := by
  induction quarters generalizing cache stats out with
  | nil =>
    obtain rfl : ([], cache, stats) = out := by simpa [split, pure, Except.pure] using h
    exact Nat.zero_le _
  | cons q quarters ih =>
    obtain ⟨_, _, h⟩ := Checked.bind_eq_ok h
    obtain ⟨x, _, h⟩ := Checked.bind_eq_ok h
    obtain ⟨_, _, h⟩ := Checked.bind_eq_ok h
    obtain ⟨y, _, h⟩ := Checked.bind_eq_ok h
    obtain ⟨⟨verdict, cache'⟩, _, h⟩ := Checked.bind_eq_ok h
    obtain ⟨⟨rest, cache'', stats'⟩, hrest, h⟩ := Checked.bind_eq_ok h
    have bound := ih _ _ _ hrest
    cases verdict <;> cases h <;>
      simp [Block.totalWeight, Block.weight, Nat.succ_mul] at bound ⊢ <;> omega

/-- A split puts at most four blocks of the next level on the frontier. -/
theorem Engine.weight_expand (e e' : Engine S R) (whole : Block R) (level : Nat)
    (h : e.expand whole level = .ok e') :
    e'.frontier.weight ≤ e.frontier.weight + 4 * Block.weightAt level := by
  obtain ⟨r, _, h⟩ := Checked.bind_eq_ok h
  split at h
  · cases h
  · obtain ⟨⟨blocks, cache, stats⟩, hsplit, h⟩ := Checked.bind_eq_ok h
    have bound := r.weight_split whole level _ _ _ _ hsplit
    cases h
    simp only [Frontier.weight_insertAll]
    simp [Block.quarters] at bound
    omega

namespace Engine

set_option linter.unusedVariables false in
/-- The next translation, best first: the block on top is split until it is a single
translation. Nothing is left if the frontier is empty. -/
def next (e : Engine S R) : Checked (Option (Found R) × Engine S R) :=
  match hpop : e.frontier.pop? with
  | none => .ok (none, e)
  | some (block, rest) =>
    match hlevel : block.level with
    | 0 => do
      let (found, e) ← { e with frontier := rest }.report block
      return (some found, e)
    | level + 1 =>
      match hexpand : { e with frontier := rest }.expand block level with
      | .error f => .error f
      | .ok e' => next e'
termination_by e.frontier.weight
decreasing_by
  have h₁ := weight_expand _ _ _ _ hexpand
  have h₂ := Frontier.weight_pop? hpop
  simp only [Block.weight, hlevel, Block.weightAt] at h₁ h₂
  omega

/-- Up to so many translations, best first, after those already taken. -/
def takeOnto (taken : Array (Found R)) : Nat → Engine S R → Checked (Array (Found R) × Engine S R)
  | 0, e => .ok (taken, e)
  | n + 1, e =>
    match e.next with
    | .error f => .error f
    | .ok (none, e) => .ok (taken, e)
    | .ok (some found, e) => takeOnto (taken.push found) n e

def take (e : Engine S R) (n : Nat) : Checked (Array (Found R) × Engine S R) := takeOnto #[] n e

/-- All translations that are left, best first. The frontier's weight is at least their number. -/
def drain (e : Engine S R) : Checked (Array (Found R) × Engine S R) := e.take e.frontier.weight

end Engine

end ScanMatch
