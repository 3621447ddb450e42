import ScanMatch.Proofs.Correlation
import ScanMatch.Search.Engine

/-! # What the engine's operations do

One inversion lemma for each operation: what holds of the engine before it, and the engine after.
Later modules cite these and open no operation.
-/
namespace ScanMatch

open Checked (Ensures)

variable {S R : Type} [Scalar R] [Precision S R]

theorem Registration.rotation_cases {S R : Type} {r : Registration S R} {i : Nat} {theta : R}
    (h : r.rotation i = .ok theta) : r.rotations[i]? = some theta := by
  unfold rotation at h
  split at h
  · next e => rw [e, Except.ok.inj h]
  · cases h

theorem Engine.registration_cases {S R : Type} [Scalar R] {e : Engine S R} {i : Nat}
    {r : Registration S R} (h : e.registration i = .ok r) : e.registrations[i]? = some r := by
  unfold registration at h
  split at h
  · next e => rw [e, Except.ok.inj h]
  · cases h

theorem Checked.orRefuse_cases {R α : Type} {a : Checked α} {x : α}
    (h : (a.orRefuse : Except (Refusal R) α) = .ok x) : a = .ok x := by
  cases a with
  | ok y => exact congrArg Except.ok (Except.ok.inj h)
  | error e => cases h

theorem Refusal.bind_cases {R α β : Type} {a : Except (Refusal R) α}
    {f : α → Except (Refusal R) β} {b : β} (h : a >>= f = .ok b) :
    ∃ x, a = .ok x ∧ f x = .ok b := by
  cases a with
  | error e => cases h
  | ok x => exact ⟨x, rfl, h⟩

/-- A quarter of a block, which still carries the bound of the whole. -/
def Block.quarter {R : Type} (whole : Block R) (level : Nat) (q : Int × Int) : Block R :=
  { whole with level, x := 2 * whole.x + q.1, y := 2 * whole.y + q.2 }

namespace Registration

/-- What is decided about block `(x, y)`, and on which grounds. -/
inductive Judged (r : Registration S R) (cache : ScanCache S) (whole : Bound R)
    (rotation level : Nat) (x y : Int) : Verdict R → ScanCache S → Prop where
  | outside {d} : Checked.cellSide level = .ok d →
      Block.meets y d r.request.ty0 r.request.ty1 = .ok false ∨
        Block.meets x d r.request.tx0 r.request.tx1 = .ok false →
      Judged r cache whole rotation level x y .outside cache
  | dropped {d raw cache' least} : Checked.cellSide level = .ok d →
      Block.meets y d r.request.ty0 r.request.ty1 = .ok true →
      Block.meets x d r.request.tx0 r.request.tx1 = .ok true →
      r.correlate cache rotation level x y = .ok (raw, cache') →
      r.request.minScore = some least → Arith.ofInt raw * r.request.scale < least →
      Judged r cache whole rotation level x y .dropped cache'
  | kept {d raw cache' penalty excess} : Checked.cellSide level = .ok d →
      Block.meets y d r.request.ty0 r.request.ty1 = .ok true →
      Block.meets x d r.request.tx0 r.request.tx1 = .ok true →
      r.correlate cache rotation level x y = .ok (raw, cache') →
      (∀ least, r.request.minScore = some least → ¬ Arith.ofInt raw * r.request.scale < least) →
      r.minPenalty rotation level x y = .ok penalty →
      boundExcess whole (Arith.ofInt raw * r.request.scale - penalty) = .ok excess →
      Judged r cache whole rotation level x y
        (.kept (Arith.ofInt raw * r.request.scale - penalty) excess) cache'

theorem judge_cases {r : Registration S R} {cache cache' : ScanCache S} {whole : Bound R}
    {rotation level : Nat} {x y : Int} {verdict : Verdict R}
    (h : r.judge cache whole rotation level x y = .ok (verdict, cache')) :
    r.Judged cache whole rotation level x y verdict cache' := by
  obtain ⟨d, hd, h⟩ := Checked.bind_eq_ok h
  obtain ⟨inY, hy, h⟩ := Checked.bind_eq_ok h
  cases inY with
  | false =>
    cases h
    exact Judged.outside hd (Or.inl hy)
  | true =>
  obtain ⟨inX, hx, h⟩ := Checked.bind_eq_ok h
  cases inX with
  | false =>
    cases h
    exact Judged.outside hd (Or.inr hx)
  | true =>
  obtain ⟨⟨raw, cache''⟩, hraw, h⟩ := Checked.bind_eq_ok h
  have keep
      (hnot : ∀ least, r.request.minScore = some least →
        ¬ Arith.ofInt raw * r.request.scale < least)
      (h : (do
          let score := Arith.ofInt raw * r.request.scale - (← r.minPenalty rotation level x y)
          let excess ← boundExcess whole score
          return (.kept score excess, cache'')) = Except.ok (verdict, cache')) :
      r.Judged cache whole rotation level x y verdict cache' := by
    obtain ⟨penalty, hpenalty, h⟩ := Checked.bind_eq_ok h
    obtain ⟨excess, hexcess, h⟩ := Checked.bind_eq_ok h
    cases h
    exact Judged.kept hd hy hx hraw hnot hpenalty hexcess
  cases hleast : r.request.minScore with
  | none =>
    rw [hleast] at keep
    dsimp only at h
    rw [hleast] at h
    exact keep nofun h
  | some least =>
    dsimp only at h
    rw [hleast] at h keep
    dsimp only at h
    by_cases hlt : Arith.ofInt raw * r.request.scale < least
    · rw [if_pos (decide_eq_true hlt)] at h
      cases h
      exact Judged.dropped hd hy hx hraw hleast hlt
    · rw [if_neg (fun hle => hlt (of_decide_eq_true hle))] at h
      refine keep ?_ h
      rintro _ ⟨⟩
      exact hlt

/-- All that judging does to the cache is to ask for the set of the rotation, or nothing. -/
theorem Judged.cache_cases {r : Registration S R} {cache cache' : ScanCache S} {whole : Bound R}
    {rotation level : Nat} {x y : Int} {verdict : Verdict R}
    (h : r.Judged cache whole rotation level x y verdict cache') :
    cache' = cache ∨ ∃ theta shared, r.rotations[rotation]? = some theta ∧
      cache.get r.pyramid.metersPerPixel theta level = .ok (shared, cache') := by
  cases h with
  | outside => exact Or.inl rfl
  | dropped _ _ _ hraw => exact Or.inr (correlate_cases hraw)
  | kept _ _ _ hraw => exact Or.inr (correlate_cases hraw)

theorem Judged.points {r : Registration S R} {cache cache' : ScanCache S} {whole : Bound R}
    {rotation level : Nat} {x y : Int} {verdict : Verdict R}
    (h : r.Judged cache whole rotation level x y verdict cache') :
    cache'.points = cache.points := by
  rcases h.cache_cases with rfl | ⟨theta, shared, -, hget⟩
  · rfl
  · exact (ScanCache.get_points hget).1

theorem Judged.faithful {r : Registration S R} {cache cache' : ScanCache S} {whole : Bound R}
    {rotation level level' : Nat} {x y : Int} {verdict : Verdict R} {theta : R}
    (h : r.Judged cache whole rotation level x y verdict cache')
    (htheta : r.rotations[rotation]? = some theta)
    (hc : cache.Faithful r.pyramid.metersPerPixel theta level') :
    cache'.Faithful r.pyramid.metersPerPixel theta level' := by
  rcases h.cache_cases with rfl | ⟨theta', shared, htheta', hget⟩
  · exact hc
  · obtain rfl := Option.some.inj (htheta.symm.trans htheta')
    exact hc.get hget

/-- What becomes of the quarters of a block, one after the other. -/
def judgeAll (r : Registration S R) (whole : Block R) (level : Nat) :
    List (Int × Int) → ScanCache S → Checked (List (Block R × Verdict R) × ScanCache S)
  | [], cache => return ([], cache)
  | (dx, dy) :: quarters, cache => do
    let x ← Checked.int32 (2 * whole.x)
    let x ← Checked.int32 (x + dx)
    let y ← Checked.int32 (2 * whole.y)
    let y ← Checked.int32 (y + dy)
    let (verdict, cache) ← r.judge cache whole.bound whole.rotation level x y
    let (rest, cache) ← judgeAll r whole level quarters cache
    return (({ whole with level, x, y }, verdict) :: rest, cache)

/-- Each quarter is judged with a cache that some of the others were judged with before. -/
theorem judgeAll_cases {r : Registration S R} {whole : Block R} {level : Nat}
    (P : ScanCache S → Prop)
    (hstep : ∀ c c' x y verdict, P c →
      r.Judged c whole.bound whole.rotation level x y verdict c' → P c') :
    ∀ {quarters : List (Int × Int)} {cache cache' : ScanCache S}
      {judged : List (Block R × Verdict R)}, P cache →
      r.judgeAll whole level quarters cache = .ok (judged, cache') →
      P cache' ∧ judged.map Prod.fst = quarters.map (whole.quarter level) ∧
      ∀ j ∈ judged, ∃ c c', P c ∧
        r.Judged c whole.bound whole.rotation level j.1.x j.1.y j.2 c' := by
  intro quarters
  induction quarters with
  | nil =>
    intro cache cache' judged hP h
    cases h
    exact ⟨hP, rfl, nofun⟩
  | cons q quarters ih =>
    intro cache cache' judged hP h
    obtain ⟨x₀, hx₀, h⟩ := Checked.bind_eq_ok h
    obtain ⟨x, hx, h⟩ := Checked.bind_eq_ok h
    obtain ⟨y₀, hy₀, h⟩ := Checked.bind_eq_ok h
    obtain ⟨y, hy, h⟩ := Checked.bind_eq_ok h
    obtain ⟨⟨verdict, cache₁⟩, hjudge, h⟩ := Checked.bind_eq_ok h
    obtain ⟨⟨rest, cache₂⟩, hrest, h⟩ := Checked.bind_eq_ok h
    cases h
    obtain rfl := Checked.int32_eq_ok hx₀
    obtain rfl := Checked.int32_eq_ok hx
    obtain rfl := Checked.int32_eq_ok hy₀
    obtain rfl := Checked.int32_eq_ok hy
    have hjudged := judge_cases hjudge
    obtain ⟨hP', hmap, hall⟩ := ih (hstep _ _ _ _ _ hP hjudged) hrest
    refine ⟨hP', by rw [List.map_cons, List.map_cons, hmap]; rfl, ?_⟩
    intro j hj
    rcases List.mem_cons.mp hj with rfl | hj
    · exact ⟨cache, cache₁, hP, hjudged⟩
    · exact hall j hj

theorem ensures_judgeAll {r : Registration S R} {whole : Block R} {level : Nat}
    {P : ScanCache S → Prop} {Q : Block R → Verdict R → Prop} (quarters : List (Int × Int))
    (hjudge : ∀ q ∈ quarters, ∀ cache, P cache →
      Ensures (r.judge cache whole.bound whole.rotation level (2 * whole.x + q.1)
        (2 * whole.y + q.2)) fun out => P out.2 ∧ Q (whole.quarter level q) out.1) :
    ∀ cache, P cache → Ensures (r.judgeAll whole level quarters cache) fun out =>
      P out.2 ∧ ∀ j ∈ out.1, Q j.1 j.2 := by
  induction quarters with
  | nil =>
    intro cache hP
    exact ⟨hP, nofun⟩
  | cons q quarters ih =>
    intro cache hP
    have ih := ih fun q' hq' => hjudge q' (List.mem_cons_of_mem q hq')
    refine (Checked.ensures_int32 _).bind ?_
    rintro x₀ ⟨rfl, -⟩
    refine (Checked.ensures_int32 _).bind ?_
    rintro x ⟨rfl, -⟩
    refine (Checked.ensures_int32 _).bind ?_
    rintro y₀ ⟨rfl, -⟩
    refine (Checked.ensures_int32 _).bind ?_
    rintro y ⟨rfl, -⟩
    refine (hjudge q List.mem_cons_self cache hP).bind ?_
    rintro ⟨verdict, cache₁⟩ ⟨hP₁, hQ⟩
    refine (ih cache₁ hP₁).bind ?_
    rintro ⟨rest, cache₂⟩ ⟨hP₂, hall⟩
    refine ⟨hP₂, ?_⟩
    intro j hj
    rcases List.mem_cons.mp hj with rfl | hj
    · exact hQ
    · exact hall j hj

/-- The block that goes back on the frontier, if the quarter is kept. -/
def kept? (r : Registration S R) (judged : Block R × Verdict R) : Option (Block R) :=
  match judged.2 with
  | .kept score _ => some { judged.1 with bound := r.boundOf score }
  | _ => none

end Registration

/-- The quarter, if it is dropped for its score. -/
def Verdict.dropped? {R : Type} (judged : Block R × Verdict R) : Option (Block R) :=
  match judged.2 with
  | .dropped => some judged.1
  | _ => none

namespace Registration

omit [Precision S R] in
theorem kept?_cases {r : Registration S R} {j : Block R × Verdict R} {b : Block R}
    (h : r.kept? j = some b) : ∃ score excess,
      j.2 = .kept score excess ∧ b = { j.1 with bound := r.boundOf score } := by
  obtain ⟨quarter, verdict⟩ := j
  cases verdict with
  | outside => cases h
  | dropped => cases h
  | kept score excess => exact ⟨score, excess, rfl, (Option.some.inj h).symm⟩

omit [Precision S R] in
/-- What is kept of a block are quarters of it. -/
theorem kept_quarter {r : Registration S R} {whole b : Block R} {level : Nat}
    {quarters : List (Int × Int)} {judged : List (Block R × Verdict R)}
    (hmap : judged.map Prod.fst = quarters.map (whole.quarter level))
    (hb : b ∈ judged.filterMap r.kept?) : ∃ q ∈ quarters, ∃ score excess,
      (whole.quarter level q, Verdict.kept score excess) ∈ judged ∧
      b = { whole.quarter level q with bound := r.boundOf score } := by
  obtain ⟨j, hmem, hkept⟩ := List.mem_filterMap.mp hb
  obtain ⟨score, excess, hverdict, rfl⟩ := kept?_cases hkept
  obtain ⟨q, hq, hquarter⟩ := List.mem_map.mp (hmap ▸ List.mem_map_of_mem hmem)
  refine ⟨q, hq, score, excess, ?_, by rw [hquarter]⟩
  rwa [hquarter, ← hverdict]

omit [Scalar R] [Precision S R] in
theorem dropped?_cases {j : Block R × Verdict R} {b : Block R}
    (h : Verdict.dropped? j = some b) : j.2 = .dropped ∧ b = j.1 := by
  obtain ⟨quarter, verdict⟩ := j
  cases verdict with
  | outside => cases h
  | dropped => exact ⟨rfl, (Option.some.inj h).symm⟩
  | kept score excess => cases h

theorem split_eq (r : Registration S R) (whole : Block R) (level : Nat)
    (quarters : List (Int × Int)) : ∀ (cache : ScanCache S) (stats : SearchStats R),
    r.split whole level quarters cache stats =
      (r.judgeAll whole level quarters cache).map fun out =>
        (out.1.filterMap r.kept?, out.2, out.1.foldl (fun s j => s.count j.2) stats) := by
  induction quarters with
  | nil =>
    intro cache stats
    rfl
  | cons q quarters ih =>
    intro cache stats
    rw [split, judgeAll]
    simp only [Checked.map_bind, ih, Checked.bind_map]
    refine bind_congr fun x₀ => bind_congr fun x => bind_congr fun y₀ => bind_congr fun y => ?_
    refine bind_congr fun out => bind_congr fun rest => ?_
    cases out.1 <;> rfl

end Registration

namespace Engine

/-- The engine after a split, given what became of the quarters. -/
def afterSplit (e : Engine S R) (r : Registration S R) (judged : List (Block R × Verdict R))
    (cache : ScanCache S) : Engine S R :=
  { e with
    caches := e.caches.set! r.cache cache
    frontier := e.frontier.insertAll (judged.filterMap r.kept?)
    stats := judged.foldl (fun s j => s.count j.2)
      { e.stats with nodesExpanded := e.stats.nodesExpanded + 1 } }

theorem expand_eq {e : Engine S R} {whole : Block R} {r : Registration S R} {cache : ScanCache S}
    (hr : e.registrations[whole.registration]? = some r) (hc : e.caches[r.cache]? = some cache)
    (level : Nat) : e.expand whole level =
      (r.judgeAll whole level Block.quarters cache).map fun out => e.afterSplit r out.1 out.2 := by
  unfold expand registration
  rw [hr]
  simp only [bind, Except.bind]
  rw [hc]
  dsimp only
  rw [Registration.split_eq]
  cases r.judgeAll whole level Block.quarters cache <;> rfl

theorem expand_cases {e e' : Engine S R} {whole : Block R} {level : Nat}
    (h : e.expand whole level = .ok e') : ∃ r cache judged cache',
      e.registrations[whole.registration]? = some r ∧ e.caches[r.cache]? = some cache ∧
      r.judgeAll whole level Block.quarters cache = .ok (judged, cache') ∧
      e' = e.afterSplit r judged cache' := by
  obtain ⟨r, hr, h'⟩ := Checked.bind_eq_ok h
  have hr := registration_cases hr
  cases hc : e.caches[r.cache]? with
  | none =>
    rw [hc] at h'
    cases h'
  | some cache =>
    rw [expand_eq hr hc] at h
    cases hj : r.judgeAll whole level Block.quarters cache with
    | error f =>
      rw [hj] at h
      cases h
    | ok out =>
      rw [hj] at h
      exact ⟨r, cache, out.1, out.2, hr, hc, hj, (Except.ok.inj h).symm⟩

theorem report_ok {e : Engine S R} {block : Block R} {r : Registration S R} {theta : R}
    (hr : e.registrations[block.registration]? = some r)
    (htheta : r.rotations[block.rotation]? = some theta) : ∃ out, e.report block = .ok out := by
  unfold report registration
  rw [hr]
  simp only [bind, Except.bind]
  rw [Registration.rotation_eq_ok htheta]
  exact ⟨_, rfl⟩

theorem report_cases {e e' : Engine S R} {block : Block R} {found : Found R}
    (h : e.report block = .ok (found, e')) : ∃ r theta,
      e.registrations[block.registration]? = some r ∧ r.rotations[block.rotation]? = some theta ∧
      found = ⟨block.registration, r.reportedPose theta block.x block.y, block.bound.value⟩ ∧
      e' = { e with stats.resultsReturned := e.stats.resultsReturned + 1 } := by
  obtain ⟨r, hr, h⟩ := Checked.bind_eq_ok h
  obtain ⟨theta, htheta, h⟩ := Checked.bind_eq_ok h
  cases h
  exact ⟨r, theta, registration_cases hr, Registration.rotation_cases htheta, rfl, rfl⟩

omit [Precision S R] in
theorem add_cases {e e' : Engine S R} {i : Nat} {pyramid : Pyramid S} {request : Request R}
    (h : e.add i pyramid request = .ok e') : ∃ level d r blocks,
      request.tx0 ≤ request.tx1 ∧ request.ty0 ≤ request.ty1 ∧ 2 ≤ pyramid.numLevels ∧
      Registration.startLevel request (pyramid.numLevels - 1) = .ok level ∧
      Checked.cellSide level = .ok d ∧
      Registration.ofRequest i pyramid request = .ok r ∧
      seeds e.registrations.size r level = .ok blocks ∧
      e' = { e with
        registrations := e.registrations.push r
        frontier := e.frontier.insertAll blocks } := by
  unfold add at h
  by_cases hx : request.tx1 < request.tx0
  · rw [if_pos hx] at h
    cases h
  by_cases hy : request.ty1 < request.ty0
  · rw [if_neg hx, if_pos hy] at h
    cases h
  by_cases hn : pyramid.numLevels < 2
  · rw [if_neg hx, if_neg hy, if_pos hn] at h
    cases h
  rw [if_neg hx, if_neg hy, if_neg hn] at h
  obtain ⟨level, hlevel, h⟩ := Refusal.bind_cases h
  obtain ⟨d, hd, h⟩ := Refusal.bind_cases h
  obtain ⟨r, hr, h⟩ := Refusal.bind_cases h
  obtain ⟨blocks, hblocks, h⟩ := Refusal.bind_cases h
  exact ⟨level, d, r, blocks, not_lt.mp hx, not_lt.mp hy, not_lt.mp hn,
    Checked.orRefuse_cases hlevel, Checked.orRefuse_cases hd, hr, Checked.orRefuse_cases hblocks,
    (Except.ok.inj h).symm⟩

end Engine

end ScanMatch
