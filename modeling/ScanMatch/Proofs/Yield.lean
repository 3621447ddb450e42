import Mathlib.Algebra.BigOperators.Group.Finset.Basic
import Mathlib.Algebra.Order.BigOperators.Group.List
import Mathlib.Data.Multiset.Filter
import ScanMatch.Proofs.Freshness

/-! # What a block comes to

All that a search makes of a block until nothing of it is left: what is returned and what is
counted. It is a sum over the block's quarters that are kept, so it does not depend on when they
are looked at, and on the index of its registration only by the label of the answers.
-/
namespace ScanMatch

/-- What a part of a search returns, what it adds to the counters, and how often it fails. -/
structure Tally (R : Type) where
  found : Multiset (Found R)
  returned : ℕ
  expanded : ℕ
  scored : ℕ
  pruned : ℕ
  faults : ℕ

/-- The same block of the registration of another index. -/
def Block.under {R : Type} (n : ℕ) (b : Block R) : Block R := { b with registration := n }

def Found.under {R : Type} (n : ℕ) (f : Found R) : Found R := { f with registration := n }

namespace Tally

variable {R : Type}

instance : Zero (Tally R) := ⟨⟨0, 0, 0, 0, 0, 0⟩⟩

instance : Add (Tally R) := ⟨fun a b => ⟨a.found + b.found, a.returned + b.returned,
  a.expanded + b.expanded, a.scored + b.scored, a.pruned + b.pruned, a.faults + b.faults⟩⟩

theorem zero_eq : (0 : Tally R) = ⟨0, 0, 0, 0, 0, 0⟩ := rfl

theorem add_eq (a b : Tally R) : a + b = ⟨a.found + b.found, a.returned + b.returned,
    a.expanded + b.expanded, a.scored + b.scored, a.pruned + b.pruned, a.faults + b.faults⟩ := rfl

instance : AddCommMonoid (Tally R) where
  add_assoc a b c := by simp only [add_eq, add_assoc]
  zero_add a := by simp only [add_eq, zero_eq, zero_add]
  add_zero a := by simp only [add_eq, zero_eq, add_zero]
  add_comm a b := by simp only [add_eq, add_comm]
  nsmul := nsmulRec

def fault : Tally R := { (0 : Tally R) with faults := 1 }

def expansion : Tally R := { (0 : Tally R) with expanded := 1 }

def answer (f : Found R) : Tally R := { (0 : Tally R) with found := {f}, returned := 1 }

theorem sum_map {M : Type} [AddCommMonoid M] (f : Tally R → M) (h0 : f 0 = 0)
    (hadd : ∀ a b, f (a + b) = f a + f b) (s : Finset ℕ) (t : ℕ → Tally R) :
    f (∑ i ∈ s, t i) = ∑ i ∈ s, f (t i) := map_sum (⟨⟨f, h0⟩, hadd⟩ : Tally R →+ M) t s

/-- The same answers of the registration of another index. -/
def under (n : ℕ) : Tally R →+ Tally R where
  toFun t := { t with found := t.found.map (Found.under n) }
  map_zero' := rfl
  map_add' a b := by simp only [add_eq, Multiset.map_add]

/-- The poses and scores of the answers of one registration. -/
def answers (i : ℕ) : Tally R →+ Multiset (Pose R × R) where
  toFun t := (t.found.filter (·.registration = i)).map fun f => (f.pose, f.score)
  map_zero' := rfl
  map_add' a b := by simp only [add_eq, Multiset.filter_add, Multiset.map_add]

theorem answers_apply (i : ℕ) (t : Tally R) : answers i t =
    (t.found.filter (·.registration = i)).map fun f => (f.pose, f.score) := rfl

theorem answers_under (i n : ℕ) (t : Tally R) : answers i (under n t) =
    if n = i then t.found.map fun f => (f.pose, f.score) else 0 := by
  have hall (f : Found R) (hf : f ∈ (under n t).found) : f.registration = n := by
    obtain ⟨f', -, rfl⟩ := Multiset.mem_map.mp hf
    rfl
  rw [answers_apply]
  by_cases h : n = i
  · rw [if_pos h, Multiset.filter_eq_self.mpr fun f hf => (hall f hf).trans h]
    exact Multiset.map_map _ _ _
  · rw [if_neg h, Multiset.filter_eq_nil.mpr fun f hf hi => h ((hall f hf).symm.trans hi)]
    rfl

/-- Nothing fails in a sum exactly if nothing fails in its terms. -/
theorem faults_sum_eq_zero {ts : List (Tally R)} :
    ts.sum.faults = 0 ↔ ∀ t ∈ ts, t.faults = 0 := by
  have hsum : ts.sum.faults = (ts.map faults).sum :=
    map_list_sum (⟨⟨faults, rfl⟩, fun _ _ => rfl⟩ : Tally R →+ ℕ) ts
  rw [hsum, List.sum_eq_zero_iff]
  simp

end Tally

variable {S R : Type} [Scalar R] [Precision S R]

/-- What one quarter adds to the counters when its whole is split. -/
def Verdict.tally {R : Type} : Verdict R → Tally R
  | .outside => { (0 : Tally R) with pruned := 1 }
  | .dropped => { (0 : Tally R) with scored := 1, pruned := 1 }
  | .kept _ _ => { (0 : Tally R) with scored := 1 }

/-- The counters, as those of a search that returned certain answers. -/
def SearchStats.tally {R : Type} (stats : SearchStats R) (found : List (Found R)) : Tally R :=
  ⟨found, stats.resultsReturned, stats.nodesExpanded, stats.childrenScored, stats.childrenPruned, 0⟩

omit [Precision S R] in
theorem SearchStats.tally_count (stats : SearchStats R) (verdict : Verdict R)
    (found : List (Found R)) :
    (stats.count verdict).tally found = stats.tally found + verdict.tally := by
  cases verdict <;> simp [count, tally, Verdict.tally, Tally.add_eq, Tally.zero_eq]

omit [Precision S R] in
theorem SearchStats.tally_foldl (found : List (Found R)) (judged : List (Block R × Verdict R)) :
    ∀ stats : SearchStats R, (judged.foldl (fun s j => s.count j.2) stats).tally found =
      stats.tally found + (judged.map fun j => j.2.tally).sum := by
  induction judged with
  | nil => simp
  | cons j judged ih =>
    intro stats
    rw [List.foldl_cons, ih, tally_count, List.map_cons, List.sum_cons, add_assoc]

namespace Registration

/-- All that comes of a block of a level, on a scan that nothing is remembered of. -/
def yield (r : Registration S R) (scan : ScanCache S) : ℕ → Block R → Tally R
  | 0, b =>
    match r.rotations[b.rotation]? with
    | none => .fault
    | some theta => .answer ⟨b.registration, r.reportedPose theta b.x b.y, b.bound.value⟩
  | level + 1, b =>
    match r.verdicts scan b level Block.quarters with
    | .error _ => .fault
    | .ok judged => .expansion + (judged.map fun j => j.2.tally).sum +
      ((judged.filterMap r.kept?).map (yield r scan level)).sum

/-- All that comes of a registration, which is of its seeds. -/
def total (r : Registration S R) (scan : ScanCache S) (i : ℕ) : Tally R :=
  match (do
    let level ← startLevel r.request (r.pyramid.numLevels - 1)
    Engine.seeds i r level : Checked (List (Block R))) with
  | .error _ => .fault
  | .ok blocks => (blocks.map fun b => r.yield scan b.level b).sum

variable {r : Registration S R} {scan : ScanCache S}

theorem yield_zero {b : Block R} {theta : R} (htheta : r.rotations[b.rotation]? = some theta) :
    r.yield scan 0 b =
      .answer ⟨b.registration, r.reportedPose theta b.x b.y, b.bound.value⟩ := by
  rw [yield, htheta]

theorem yield_succ {level : ℕ} {b : Block R} {judged : List (Block R × Verdict R)}
    (h : r.verdicts scan b level Block.quarters = .ok judged) :
    r.yield scan (level + 1) b = .expansion + (judged.map fun j => j.2.tally).sum +
      ((judged.filterMap r.kept?).map (r.yield scan level)).sum := by
  rw [yield, h]

theorem verdicts_of_faultless {level : ℕ} {b : Block R}
    (h : (r.yield scan (level + 1) b).faults = 0) :
    ∃ judged, r.verdicts scan b level Block.quarters = .ok judged := by
  rw [yield] at h
  split at h
  · cases h
  · next judged hjudged => exact ⟨judged, hjudged⟩

theorem verdicts_under (n : ℕ) (scan : ScanCache S) (whole : Block R) (level : ℕ)
    (quarters : List (Int × Int)) : r.verdicts scan (whole.under n) level quarters =
      (r.verdicts scan whole level quarters).map
        (List.map fun j : Block R × Verdict R => (j.1.under n, j.2)) := by
  induction quarters with
  | nil => rfl
  | cons q quarters ih =>
    rw [verdicts, verdicts, ih]
    simp only [Checked.map_bind, Checked.bind_map]
    rfl

omit [Precision S R] in
theorem kept_under (n : ℕ) (judged : List (Block R × Verdict R)) :
    (judged.map fun j => (j.1.under n, j.2)).filterMap r.kept? =
      (judged.filterMap r.kept?).map (Block.under n) := by
  rw [List.filterMap_map, List.map_filterMap]
  apply List.filterMap_congr
  rintro ⟨b, verdict⟩ -
  cases verdict <;> rfl

/-- The index of its registration is only a label of what a block comes to. -/
theorem yield_under (n : ℕ) (scan : ScanCache S) (level : ℕ) : ∀ b : Block R,
    r.yield scan level (b.under n) = (r.yield scan level b).under n := by
  induction level with
  | zero =>
    intro b
    cases htheta : r.rotations[b.rotation]? with
    | none =>
      rw [yield, yield]
      simp only [Block.under, htheta]
      rfl
    | some theta =>
      rw [yield_zero htheta, yield_zero (b := b.under n) htheta]
      rfl
  | succ level ih =>
    intro b
    cases hjudged : r.verdicts scan b level Block.quarters with
    | error f =>
      rw [yield, yield, verdicts_under, hjudged]
      rfl
    | ok judged =>
      have hunder : r.verdicts scan (b.under n) level Block.quarters = _ :=
        (verdicts_under n scan b level _).trans (congrArg _ hjudged)
      rw [yield_succ hjudged, yield_succ hunder, kept_under, map_add, map_add, map_list_sum,
        map_list_sum, List.map_map, List.map_map, List.map_map, List.map_map]
      -- verdicts carry no index, and the quarters kept are of the level below
      congr 2
      · apply congrArg List.sum
        apply List.map_congr_left
        rintro ⟨b', verdict⟩ -
        cases verdict <;> rfl
      · apply List.map_congr_left
        intro b' _
        exact ih b'

omit [Scalar R] [Precision S R] in
theorem seeds_under (n : ℕ) (r : Registration S R) (level : ℕ) :
    Engine.seeds n r level = (Engine.seeds 0 r level).map (List.map (Block.under n)) := by
  unfold Engine.seeds
  simp only [Checked.map_bind]
  refine bind_congr fun d => bind_congr fun ys => bind_congr fun xs => ?_
  simp only [pure, Except.pure, Except.map, List.map_flatMap, List.map_map]
  rfl

omit [Scalar R] [Precision S R] in
theorem registration_of_mem_seeds {n level : ℕ} {blocks : List (Block R)}
    (h : Engine.seeds n r level = .ok blocks) {b : Block R} (hb : b ∈ blocks) :
    b.registration = n := by
  rw [seeds_under] at h
  cases hseeds : Engine.seeds 0 r level with
  | error f =>
    rw [hseeds] at h
    cases h
  | ok bs =>
    rw [hseeds] at h
    cases h
    obtain ⟨b', -, rfl⟩ := List.mem_map.mp hb
    rfl

theorem total_eq {level n : ℕ} {blocks : List (Block R)}
    (hlevel : startLevel r.request (r.pyramid.numLevels - 1) = .ok level)
    (hseeds : Engine.seeds n r level = .ok blocks) :
    r.total scan n = (blocks.map fun b => r.yield scan b.level b).sum := by
  rw [total, hlevel]
  simp only [bind, Except.bind, hseeds]

theorem total_under (n : ℕ) (scan : ScanCache S) (r : Registration S R) :
    r.total scan n = (r.total scan 0).under n := by
  unfold total
  simp only [bind, Except.bind]
  cases startLevel r.request (r.pyramid.numLevels - 1) with
  | error f => rfl
  | ok level =>
  dsimp only
  rw [seeds_under]
  cases Engine.seeds 0 r level with
  | error f => rfl
  | ok blocks =>
    dsimp only [Except.map]
    rw [map_list_sum, List.map_map, List.map_map]
    apply congrArg List.sum
    apply List.map_congr_left
    intro b _
    exact yield_under n scan b.level b

end Registration

end ScanMatch
