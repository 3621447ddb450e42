import ScanMatch.Proofs.Rotations
import ScanMatch.Proofs.Run

/-! # The search space is partitioned

Every translation that a registration offers is in one block of the frontier, or was returned once,
or is in one quarter dropped for its score. This holds of every run, whatever the scores are and
in whatever order blocks come off the frontier.
-/
namespace ScanMatch

open Checked (Ensures)

namespace Block

variable {R : Type}

/-- How many of the blocks hold a candidate. -/
def holding (c : Candidate) (bs : List (Block R)) : Nat := bs.countP fun b => b.Holds c

theorem holding_append (c : Candidate) (bs bs' : List (Block R)) :
    holding c (bs ++ bs') = holding c bs + holding c bs' := List.countP_append

theorem holding_perm (c : Candidate) {bs bs' : List (Block R)} (h : bs.Perm bs') :
    holding c bs = holding c bs' := h.countP_eq _

theorem holding_cons (c : Candidate) (b : Block R) (bs : List (Block R)) :
    holding c (b :: bs) = holding c [b] + holding c bs := holding_append c [b] bs

theorem holding_eq_zero {c : Candidate} {bs : List (Block R)} (h : ∀ b ∈ bs, ¬ b.Holds c) :
    holding c bs = 0 := by
  rw [holding, List.countP_eq_zero]
  intro b hb
  simpa using h b hb

theorem exists_of_holding {c : Candidate} {bs : List (Block R)} (h : 0 < holding c bs) :
    ∃ b ∈ bs, b.Holds c := by
  obtain ⟨b, hb, hc⟩ := List.countP_pos_iff.mp h
  exact ⟨b, hb, of_decide_eq_true hc⟩

theorem between_iff (b t : Int) (level : Nat) :
    b * 2 ^ level ≤ t ∧ t < (b + 1) * 2 ^ level ↔ t / 2 ^ level = b := by
  have hd : (0 : Int) < 2 ^ level := by positivity
  rw [← Int.le_ediv_iff_mul_le hd, ← Int.ediv_lt_iff_lt_mul hd]
  omega

theorem holds_iff (b : Block R) (c : Candidate) : b.Holds c ↔
    b.registration = c.registration ∧ b.rotation = c.rotation ∧
      c.x / 2 ^ b.level = b.x ∧ c.y / 2 ^ b.level = b.y := by
  rw [Holds, between_iff, between_iff]

theorem holds_zero {b : Block R} (h : b.level = 0) (c : Candidate) :
    b.Holds c ↔ b.candidate = c := by
  rw [holds_iff, h, pow_zero, Int.ediv_one, Int.ediv_one]
  constructor
  · rintro ⟨h1, h2, h3, h4⟩
    simp only [candidate, h1, h2, ← h3, ← h4]
  · rintro rfl
    exact ⟨rfl, rfl, rfl, rfl⟩

/-- What a block holds, exactly one of its quarters holds. -/
theorem holding_quarters {whole : Block R} {level : Nat} (h : whole.level = level + 1)
    (c : Candidate) : holding c (quarters.map (whole.quarter level)) = holding c [whole] := by
  have hx : c.x / 2 ^ (level + 1) = c.x / 2 ^ level / 2 := by
    rw [pow_succ, Int.ediv_ediv_of_nonneg (by positivity)]
  have hy : c.y / 2 ^ (level + 1) = c.y / 2 ^ level / 2 := by
    rw [pow_succ, Int.ediv_ediv_of_nonneg (by positivity)]
  simp only [holding, quarters, List.map_cons, List.map_nil, List.countP_cons, List.countP_nil,
    decide_eq_true_eq, holds_iff, quarter, h, hx, hy]
  by_cases hr : whole.registration = c.registration ∧ whole.rotation = c.rotation
  · simp only [hr, true_and]
    -- a quotient is that of the whole exactly if it is that of the first or of the second half
    generalize c.x / 2 ^ level = u
    generalize c.y / 2 ^ level = v
    split_ifs <;> omega
  · have hnot (p : Prop) : ¬ (whole.registration = c.registration ∧
        whole.rotation = c.rotation ∧ p) := fun hp => hr ⟨hp.1, hp.2.1⟩
    simp only [hnot, if_false]

theorem ensures_meets (b d t0 t1 : Int) : Ensures (meets b d t0 t1) fun _ => True := by
  refine (Checked.ensures_int32 _).bind ?_
  intro first _
  by_cases h : t1 < first
  · simp [h]
  · rw [if_neg h]
    refine (Checked.ensures_int32 _).bind fun _ _ => ?_
    exact (Checked.ensures_int32 _).bind fun _ _ => trivial

theorem meets_cases {b d t0 t1 : Int} {v : Bool} (h : meets b d t0 t1 = .ok v) :
    v = true ↔ b * d ≤ t1 ∧ t0 ≤ b * d + d - 1 := by
  obtain ⟨first, hfirst, h⟩ := Checked.bind_eq_ok h
  obtain rfl := Checked.int32_eq_ok hfirst
  split at h
  · next hlt =>
    cases h
    simp only [Bool.false_eq_true, false_iff]
    omega
  · next hle =>
    obtain ⟨past, hpast, h⟩ := Checked.bind_eq_ok h
    obtain ⟨last, hlast, h⟩ := Checked.bind_eq_ok h
    obtain rfl := Checked.int32_eq_ok hpast
    obtain rfl := Checked.int32_eq_ok hlast
    cases h
    simp only [Bool.not_eq_true', decide_eq_false_iff_not]
    omega

/-- A block that misses the translations between two bounds holds none of them. -/
theorem meets_of_between {b t0 t1 t : Int} {level : Nat} {v : Bool}
    (h : meets b (2 ^ level) t0 t1 = .ok v) (hb : t / 2 ^ level = b) (ht : t0 ≤ t ∧ t ≤ t1) :
    v = true := by
  have := (between_iff b t level).mpr hb
  have hd : (b + 1) * 2 ^ level = b * 2 ^ level + 2 ^ level := by ring
  exact (meets_cases h).mpr (by omega)

theorem covering_cases {t0 t1 d : Int} {bs : List Int} (h : covering t0 t1 d = .ok bs) :
    bs.Nodup ∧ ∀ b, b ∈ bs ↔ t0 / d ≤ b ∧ b ≤ t1 / d := by
  obtain ⟨first, hfirst, h⟩ := Checked.bind_eq_ok h
  obtain ⟨last, hlast, h⟩ := Checked.bind_eq_ok h
  obtain ⟨past, -, h⟩ := Checked.bind_eq_ok h
  obtain rfl := Checked.floorDiv_eq_ok hfirst
  obtain rfl := Checked.floorDiv_eq_ok hlast
  cases h
  refine ⟨List.Nodup.map ?_ List.nodup_range, ?_⟩
  · intro i j hij
    dsimp only at hij
    omega
  · intro b
    simp only [List.mem_map, List.mem_range]
    constructor
    · rintro ⟨i, hi, rfl⟩
      omega
    · intro hb
      exact ⟨(b - t0 / d).toNat, by omega, by omega⟩

end Block

theorem Registration.startLevel_cases {R : Type} [Scalar R] {request : Request R}
    {coarsest level : Nat} (h : Registration.startLevel request coarsest = .ok level)
    (hc : 1 ≤ coarsest) : 1 ≤ level ∧ level ≤ coarsest := by
  obtain ⟨spanX, -, h⟩ := Checked.bind_eq_ok h
  obtain ⟨spanY, -, h⟩ := Checked.bind_eq_ok h
  dsimp only at h
  split at h
  · cases h
    exact ⟨le_refl 1, hc⟩
  · cases h
    omega

/-- A search starts at a level of its pyramid, whose blocks have a side to count with. -/
theorem Pyramid.Built.startLevel_lt {S R : Type} [Scalar R] {pyramid : Pyramid S}
    {request : Request R} {level : Nat} (hp : pyramid.Built) (hn : 2 ≤ pyramid.numLevels)
    (h : Registration.startLevel request (pyramid.numLevels - 1) = .ok level) :
    level < pyramid.numLevels ∧ level < 31 := by
  have hle := (Registration.startLevel_cases h (by omega)).2
  have hlt : level < pyramid.levels.size := by
    unfold Pyramid.numLevels at hn hle
    omega
  obtain ⟨base, hbase⟩ := hp.summarizes
  have h30 := (hbase level _ (Array.getElem?_eq_getElem hlt)).1
  exact ⟨hlt, by omega⟩

namespace Registration

variable {S R : Type} [Scalar R] [Precision S R] {r : Registration S R} {c : Candidate}

/-- The candidate lies in the window of the request. -/
def InWindow (r : Registration S R) (c : Candidate) : Prop :=
  (r.request.tx0 ≤ c.x ∧ c.x ≤ r.request.tx1) ∧ (r.request.ty0 ≤ c.y ∧ c.y ≤ r.request.ty1)

omit [Scalar R] [Precision S R] in
/-- The seeds hold every candidate of the window once at each rotation, and are all of one level. -/
theorem seeds_cases {i level : Nat} {blocks : List (Block R)} (hl : level < 31)
    (h : Engine.seeds i r level = .ok blocks) :
    (∀ b ∈ blocks, b.registration = i ∧ b.rotation < r.rotations.size ∧ b.level = level ∧
      b.bound = .unbounded) ∧
    (c.registration = i → c.rotation < r.rotations.size → r.InWindow c →
      Block.holding c blocks = 1) := by
  obtain ⟨d, hd, h⟩ := Checked.bind_eq_ok h
  obtain ⟨ys, hys, h⟩ := Checked.bind_eq_ok h
  obtain ⟨xs, hxs, h⟩ := Checked.bind_eq_ok h
  cases h
  obtain rfl : (2 : Int) ^ level = d := Except.ok.inj ((Checked.cellSide_of_lt hl).symm.trans hd)
  obtain ⟨hysNodup, hysMem⟩ := Block.covering_cases hys
  obtain ⟨hxsNodup, hxsMem⟩ := Block.covering_cases hxs
  constructor
  · intro b hb
    obtain ⟨rotation, hrotation, hb⟩ := List.mem_flatMap.mp hb
    obtain ⟨y, -, hb⟩ := List.mem_flatMap.mp hb
    obtain ⟨x, -, rfl⟩ := List.mem_map.mp hb
    exact ⟨rfl, List.mem_range.mp hrotation, rfl, rfl⟩
  · intro hi hrotation hwindow
    have hx : c.x / 2 ^ level ∈ xs := (hxsMem _).mpr
      ⟨Int.ediv_le_ediv (by positivity) hwindow.1.1, Int.ediv_le_ediv (by positivity) hwindow.1.2⟩
    have hy : c.y / 2 ^ level ∈ ys := (hysMem _).mpr
      ⟨Int.ediv_le_ediv (by positivity) hwindow.2.1, Int.ediv_le_ediv (by positivity) hwindow.2.2⟩
    -- only the rotation, the row and the column of the candidate contribute
    rw [Block.holding, List.countP_flatMap, List.sum_map_eq_nsmul_single c.rotation,
      List.count_eq_one_of_mem List.nodup_range (List.mem_range.mpr hrotation), one_nsmul,
      Function.comp_apply, List.countP_flatMap, List.sum_map_eq_nsmul_single (c.y / 2 ^ level),
      List.count_eq_one_of_mem hysNodup hy, one_nsmul, Function.comp_apply, List.countP_map]
    · rw [← List.count_eq_one_of_mem hxsNodup hx, List.count]
      apply List.countP_congr
      intro x _
      simp only [Function.comp_apply, decide_eq_true_eq, Block.holds_iff, hi, true_and, beq_iff_eq]
      exact ⟨fun h => h.1.symm, fun h => ⟨h.symm, trivial⟩⟩
    · intro y hne _
      rw [Function.comp_apply, List.countP_map, List.countP_eq_zero]
      intro x _ hholds
      exact hne ((Block.holds_iff _ _).mp (of_decide_eq_true hholds)).2.2.2.symm
    · intro rotation hne _
      rw [Function.comp_apply, List.countP_flatMap]
      apply List.sum_eq_zero
      intro n hn
      obtain ⟨y, -, rfl⟩ := List.mem_map.mp hn
      rw [Function.comp_apply, List.countP_map, List.countP_eq_zero]
      intro x _ hholds
      exact hne ((Block.holds_iff _ _).mp (of_decide_eq_true hholds)).2.1

/-- A quarter outside the window holds nothing of it. -/
theorem Judged.not_holds {cache cache' : ScanCache S} {whole : Bound R} {b : Block R}
    (h : r.Judged cache whole b.rotation b.level b.x b.y .outside cache') (hl : b.level < 31)
    (hc : r.InWindow c) : ¬ b.Holds c := by
  intro hholds
  obtain ⟨-, -, hx, hy⟩ := (Block.holds_iff b c).mp hholds
  cases h with
  | outside hd hmisses =>
    obtain rfl := Except.ok.inj ((Checked.cellSide_of_lt hl).symm.trans hd)
    rcases hmisses with hmisses | hmisses
    · cases Block.meets_of_between hmisses hy hc.2
    · cases Block.meets_of_between hmisses hx hc.1

/-- A single translation that is kept lies in the window. -/
theorem Judged.inWindow {cache cache' : ScanCache S} {whole : Bound R} {b : Block R} {score : R}
    {excess : Option R}
    (h : r.Judged cache whole b.rotation b.level b.x b.y (.kept score excess) cache')
    (hl : b.level = 0) : r.InWindow b.candidate := by
  cases h with
  | kept hd hy hx =>
    rw [hl] at hd
    rw [Checked.cellSide_of_lt (by decide)] at hd
    obtain rfl : (1 : Int) = _ := Except.ok.inj hd
    have hx := (Block.meets_cases hx).mp rfl
    have hy := (Block.meets_cases hy).mp rfl
    simp only [InWindow, Block.candidate]
    omega

omit [Precision S R] in
/-- Of the quarters that hold a candidate, each is kept or dropped unless it lies outside. -/
theorem holding_judged {judged : List (Block R × Verdict R)}
    (h : ∀ j ∈ judged, j.2 = .outside → ¬ j.1.Holds c) :
    Block.holding c (judged.filterMap r.kept?) +
        Block.holding c (judged.filterMap Verdict.dropped?) =
      Block.holding c (judged.map Prod.fst) := by
  induction judged with
  | nil => rfl
  | cons j judged ih =>
    have ih := ih fun j' hj' => h j' (List.mem_cons_of_mem j hj')
    obtain ⟨b, verdict⟩ := j
    rw [List.map_cons, Block.holding_cons, ← ih]
    dsimp only
    cases verdict with
    | outside =>
      have hnot : Block.holding c [b] = 0 := Block.holding_eq_zero (by
        intro b' hb'
        obtain rfl := List.mem_singleton.mp hb'
        exact h _ List.mem_cons_self rfl)
      rw [hnot, Nat.zero_add]
      rfl
    | dropped =>
      have hcons : ((b, Verdict.dropped) :: judged).filterMap Verdict.dropped? =
          b :: judged.filterMap Verdict.dropped? := rfl
      have hkept : ((b, Verdict.dropped) :: judged).filterMap r.kept? =
          judged.filterMap r.kept? := rfl
      rw [hcons, hkept, Block.holding_cons]
      omega
    | kept score excess =>
      have hcons : ((b, Verdict.kept score excess) :: judged).filterMap r.kept? =
          { b with bound := r.boundOf score } :: judged.filterMap r.kept? := rfl
      have hdropped : ((b, Verdict.kept score excess) :: judged).filterMap Verdict.dropped? =
          judged.filterMap Verdict.dropped? := rfl
      have hsame : Block.holding c [{ b with bound := r.boundOf score }] =
          Block.holding c [b] := rfl
      rw [hcons, hdropped, Block.holding_cons, hsame]
      omega

end Registration

/-- A frontier that holds a candidate has a block on top. -/
theorem Frontier.exists_pop? {R : Type} [Scalar R] {f : Frontier R} {c : Candidate}
    (h : 0 < Block.holding c f.toList) : ∃ b rest, f.pop? = some (b, rest) := by
  obtain ⟨b, hb, -⟩ := Block.exists_of_holding h
  cases f with
  | empty => cases hb
  | node rank top left right => exact ⟨top, left.merge right, rfl⟩

/-- Two by two translations at two rotations, with a prior on one coordinate and the rotation. -/
noncomputable def Request.small : Request ℝ :=
  { tx0 := -1, tx1 := 0, ty0 := 1, ty1 := 2, rotationMin := 0, rotationMax := 1, rotationStep := 1,
    scale := 1, prior := some ⟨⟨1, 0, 0⟩, ⟨1, 0, 0, 0, 0, 0, 0, 0, 1⟩⟩, minScore := some 1 }

theorem Request.rotationCount_small : Request.rotationCount (1 - 0 : ℝ) 1 = .ok 2 := by
  have hsteps : stepsIn (1 - 0) 1 = 1 := by
    rw [stepsIn, Int.floor_eq_iff]
    norm_num
  rw [rotationCount_eq (by rw [hsteps]; norm_num), hsteps]
  rfl

theorem Request.small_rotations : Request.small.rotations = .ok #[0, 1] := by
  have hsamples : (Array.ofFn fun i : Fin 2 => (0 : ℝ) + Arith.ofInt ((i : Nat) : Int) * 1) =
      #[0, 1] := by
    simp [Array.ofFn_succ]
  unfold Request.rotations
  simp only [Request.small, Exact.zero_eq, zero_le_one, not_true_eq_false, if_false]
  rw [if_neg (by simp [Arith.isZero]), if_neg (by norm_num)]
  rw [Request.rotationCount_small]
  exact congrArg Except.ok hsamples

/-- How often a candidate was returned. -/
def History.timesReturned {S R : Type} (history : History S R) (c : Candidate) : Nat :=
  history.returned.countP fun p => p.1 = c

namespace Engine

variable {S R : Type} [Scalar R] [Precision S R]

/-- The candidate lies in the window of its registration, at one of its rotations. -/
def Offers (e : Engine S R) (c : Candidate) : Prop :=
  ∃ r, e.registrations[c.registration]? = some r ∧ c.rotation < r.rotations.size ∧ r.InWindow c

/-- The indices of a block are those of a registration, of one of its rotations and of one of its
levels. -/
structure Fits (e : Engine S R) (b : Block R) (r : Registration S R) : Prop where
  registration : e.registrations[b.registration]? = some r
  rotation_lt : b.rotation < r.rotations.size
  level_lt : b.level < r.pyramid.numLevels

/-- What was returned for a candidate. -/
structure Reports (e : Engine S R) (c : Candidate) (found : Found R) : Prop where
  offers : e.Offers c
  registration : found.registration = c.registration
  pose : ∃ r theta, e.registrations[c.registration]? = some r ∧
    r.rotations[c.rotation]? = some theta ∧ found.pose = r.reportedPose theta c.x c.y

/-- What holds of the search space at all times. -/
structure Partitioned (e : Engine S R) (history : History S R) : Prop where
  once : ∀ c, e.Offers c → Block.holding c e.frontier.toList + history.timesReturned c +
    Block.holding c history.dropped = 1
  blocks : ∀ b ∈ e.frontier.toList, ∃ r, e.Fits b r ∧ (b.level = 0 → r.InWindow b.candidate)
  returned : ∀ p ∈ history.returned, e.Reports p.1 p.2
  dropped : ∀ b ∈ history.dropped, ∃ r, e.Fits b r ∧
    ∃ least score, r.request.minScore = some least ∧ score < least

section

variable {e e' : Engine S R} {history : History S R}

omit [Scalar R] [Precision S R] in
theorem Fits.mono {b : Block R} {r : Registration S R} (h : e.Fits b r)
    (hk : e.Keeps e') : e'.Fits b r :=
  ⟨hk _ _ h.registration, h.rotation_lt, h.level_lt⟩

omit [Scalar R] [Precision S R] in
theorem Offers.mono {c : Candidate} (h : e.Offers c) (hk : e.Keeps e') : e'.Offers c := by
  obtain ⟨r, hr, hrotation, hwindow⟩ := h
  exact ⟨r, hk _ _ hr, hrotation, hwindow⟩

theorem Reports.mono {c : Candidate} {found : Found R} (h : e.Reports c found)
    (hk : e.Keeps e') : e'.Reports c found := by
  obtain ⟨r, theta, hr, htheta, hpose⟩ := h.pose
  exact ⟨h.offers.mono hk, h.registration, r, theta, hk _ _ hr, htheta, hpose⟩

omit [Precision S R] in
/-- A registration brings blocks that hold its candidates once each. -/
theorem add_seeds {i : Nat} {pyramid : Pyramid S} {request : Request R} (hp : pyramid.Built)
    (ha : e.add i pyramid request = .ok e') : ∃ r blocks,
      e' = { e with
        registrations := e.registrations.push r
        frontier := e.frontier.insertAll blocks } ∧
      r.cache = i ∧
      (∀ b ∈ blocks, b.registration = e.registrations.size ∧ e'.Fits b r ∧ 0 < b.level ∧
        b.bound = .unbounded) ∧
      ∀ c : Candidate, c.registration = e.registrations.size → c.rotation < r.rotations.size →
        r.InWindow c → Block.holding c blocks = 1 := by
  obtain ⟨level, d, r, blocks, -, -, hn, hlevel, -, hr, hblocks, rfl⟩ := add_cases ha
  obtain ⟨-, hcache, hpyramid, -⟩ := Registration.formed_of_ofRequest hr
  have hpos := (Registration.startLevel_cases hlevel (by omega)).1
  obtain ⟨hlevels, h31⟩ := hp.startLevel_lt hn hlevel
  have hseeds (c : Candidate) := Registration.seeds_cases (c := c) h31 hblocks
  refine ⟨r, blocks, rfl, hcache, ?_, fun c => (hseeds c).2⟩
  intro b hb
  obtain ⟨hregistration, hrotation, hl, hbound⟩ := (hseeds b.candidate).1 b hb
  refine ⟨hregistration, ⟨?_, hrotation, ?_⟩, by omega, hbound⟩
  · rw [hregistration]
    exact Array.getElem?_push_size
  · rwa [hl, hpyramid]

/-- Nothing is known of the candidates of a registration that is not there. -/
theorem Partitioned.unregistered (h : e.Partitioned history) {c : Candidate}
    (hc : ∀ r, e.registrations[c.registration]? ≠ some r) :
    Block.holding c e.frontier.toList = 0 ∧ history.timesReturned c = 0 ∧
      Block.holding c history.dropped = 0 := by
  refine ⟨?_, ?_, ?_⟩
  · apply Block.holding_eq_zero
    intro b hb hholds
    obtain ⟨r, hfits, -⟩ := h.blocks b hb
    exact hc r (hholds.1 ▸ hfits.registration)
  · rw [History.timesReturned, List.countP_eq_zero]
    rintro p hp hpc
    obtain ⟨r, hr, -⟩ := (h.returned p hp).offers
    exact hc r (of_decide_eq_true hpc ▸ hr)
  · apply Block.holding_eq_zero
    intro b hb hholds
    obtain ⟨r, hfits, -⟩ := h.dropped b hb
    exact hc r (hholds.1 ▸ hfits.registration)

theorem Partitioned.add {i : Nat} {pyramid : Pyramid S} {request : Request R}
    (h : e.Partitioned history) (hp : pyramid.Built) (ha : e.add i pyramid request = .ok e') :
    e'.Partitioned history := by
  obtain ⟨hk, hold⟩ := add_keeps ha
  obtain ⟨r, blocks, rfl, -, hseeds, honce⟩ := add_seeds hp ha
  have hperm := Frontier.toList_insertAll e.frontier blocks
  refine ⟨?_, ?_, fun p hp => (h.returned p hp).mono hk, ?_⟩
  · rintro c ⟨r', hr', hrotation, hwindow⟩
    rw [Block.holding_perm c hperm, Block.holding_append]
    rw [Array.getElem?_push] at hr'
    split at hr'
    · next hnew =>
      obtain rfl := Option.some.inj hr'
      obtain ⟨hfrontier, hreturned, hdropped⟩ :=
        h.unregistered fun r' hr' => hold _ r' hr' hnew
      rw [hfrontier, hreturned, hdropped, honce c hnew hrotation hwindow]
    · next hne =>
      have hblocks : Block.holding c blocks = 0 := Block.holding_eq_zero (by
        intro b hb hholds
        exact hne (hholds.1.symm.trans (hseeds b hb).1))
      rw [hblocks, Nat.zero_add]
      exact h.once c ⟨r', hr', hrotation, hwindow⟩
  · intro b hb
    rcases List.mem_append.mp (hperm.mem_iff.mp hb) with hb | hb
    · obtain ⟨-, hfits, hl, -⟩ := hseeds b hb
      exact ⟨r, hfits, fun h0 => absurd h0 hl.ne'⟩
    · obtain ⟨r', hfits, hwindow⟩ := h.blocks b hb
      exact ⟨r', hfits.mono hk, hwindow⟩
  · intro b hb
    obtain ⟨r', hfits, hleast⟩ := h.dropped b hb
    exact ⟨r', hfits.mono hk, hleast⟩

omit [Scalar R] [Precision S R] in
theorem Fits.of_le {whole b : Block R} {r : Registration S R} (h : e.Fits whole r)
    (hregistration : b.registration = whole.registration) (hrotation : b.rotation = whole.rotation)
    (hl : b.level ≤ whole.level) : e.Fits b r := by
  refine ⟨?_, ?_, hl.trans_lt h.level_lt⟩
  · rw [hregistration]
    exact h.registration
  · rw [hrotation]
    exact h.rotation_lt

theorem Partitioned.split {whole : Block R} {rest : Frontier R} {level : Nat}
    (h : e.Partitioned history)
    (hbuilt : ∀ (i : Nat) (r : Registration S R), e.registrations[i]? = some r → r.pyramid.Built)
    (ht : e.frontier.Takes whole rest) (hl : whole.level = level + 1)
    (he : { e with frontier := rest }.expand whole level = .ok e') :
    e'.Partitioned { history with
      dropped := { e with frontier := rest }.droppedQuarters whole level ++ history.dropped } := by
  obtain ⟨r, cache, judged, cache', hr, hc, hj, rfl⟩ := expand_cases he
  obtain ⟨-, hmap, hall⟩ := Registration.judgeAll_cases (fun _ => True)
    (fun _ _ _ _ _ _ _ => trivial) trivial hj
  rw [droppedQuarters_eq hr hc hj]
  obtain ⟨r', hwhole, -⟩ := h.blocks whole (ht.mem_iff.mpr List.mem_cons_self)
  obtain rfl : r = r' := Option.some.inj (hr.symm.trans hwhole.registration)
  obtain ⟨base, hbase⟩ := (hbuilt _ _ hr).summarizes
  have hle : level ≤ whole.level := by rw [hl]; exact Nat.le_succ level
  have h31 : level < 31 := by
    have := (hbase whole.level _ (Array.getElem?_eq_getElem hwhole.level_lt)).1
    omega
  have hquarter (j : Block R × Verdict R) (hmem : j ∈ judged) :
      ∃ q, j.1 = whole.quarter level q := by
    obtain ⟨q, -, hq⟩ := List.mem_map.mp (hmap ▸ List.mem_map_of_mem hmem)
    exact ⟨q, hq.symm⟩
  have hperm := Frontier.toList_insertAll rest (judged.filterMap r.kept?)
  have hk : e.Keeps
      (({ e with frontier := rest } : Engine S R).afterSplit r judged cache') := keeps_of_eq rfl
  refine ⟨?_, ?_, fun p hp => (h.returned p hp).mono hk, ?_⟩
  -- what the whole held is held by one quarter, and by none that lies outside the window
  · rintro c ⟨r', hr', hrotation, hwindow⟩
    have houtside : ∀ j ∈ judged, j.2 = .outside → ¬ j.1.Holds c := by
      intro j hmem hverdict hholds
      obtain ⟨q, hq⟩ := hquarter j hmem
      obtain ⟨c₀, c₁, -, hjudged⟩ := hall j hmem
      rw [hverdict] at hjudged
      rw [hq] at hjudged hholds
      obtain rfl : r = r' := Option.some.inj (hr.symm.trans (hholds.1 ▸ hr'))
      exact Registration.Judged.not_holds hjudged h31 hwindow hholds
    have honce := h.once c ⟨r', hr', hrotation, hwindow⟩
    rw [Block.holding_perm c ht, Block.holding_cons, ← Block.holding_quarters hl, ← hmap,
      ← Registration.holding_judged (r := r) houtside] at honce
    change Block.holding c (rest.insertAll (judged.filterMap r.kept?)).toList +
      history.timesReturned c +
        Block.holding c (judged.filterMap Verdict.dropped? ++ history.dropped) = 1
    rw [Block.holding_perm c hperm, Block.holding_append, Block.holding_append]
    omega
  · intro b hb
    rcases List.mem_append.mp (hperm.mem_iff.mp hb) with hb | hb
    · obtain ⟨j, hmem, hkept⟩ := List.mem_filterMap.mp hb
      obtain ⟨score, excess, hverdict, rfl⟩ := Registration.kept?_cases hkept
      obtain ⟨q, hq⟩ := hquarter j hmem
      obtain ⟨c₀, c₁, -, hjudged⟩ := hall j hmem
      rw [hverdict] at hjudged
      rw [hq] at hjudged ⊢
      exact ⟨r, (hwhole.mono hk).of_le rfl rfl hle,
        Registration.Judged.inWindow (b := whole.quarter level q) hjudged⟩
    · obtain ⟨r', hfits, hwindow⟩ := h.blocks b (ht.mem_iff.mpr (List.mem_cons_of_mem _ hb))
      exact ⟨r', hfits.mono hk, hwindow⟩
  · intro b hb
    rcases List.mem_append.mp hb with hb | hb
    · obtain ⟨j, hmem, hdropped⟩ := List.mem_filterMap.mp hb
      obtain ⟨hverdict, rfl⟩ := Registration.dropped?_cases hdropped
      obtain ⟨q, hq⟩ := hquarter j hmem
      obtain ⟨c₀, c₁, -, hjudged⟩ := hall j hmem
      rw [hverdict] at hjudged
      rw [hq]
      refine ⟨r, (hwhole.mono hk).of_le rfl rfl hle, ?_⟩
      cases hjudged with
      | dropped _ _ _ _ hleast hlt => exact ⟨_, _, hleast, hlt⟩
    · obtain ⟨r', hfits, hleast⟩ := h.dropped b hb
      exact ⟨r', hfits.mono hk, hleast⟩

theorem Partitioned.report {block : Block R} {rest : Frontier R} {found : Found R}
    (h : e.Partitioned history) (ht : e.frontier.Takes block rest) (hl : block.level = 0)
    (hfound : { e with frontier := rest }.report block = .ok (found, e')) :
    e'.Partitioned { history with returned := (block.candidate, found) :: history.returned } := by
  obtain ⟨r, theta, hr, htheta, rfl, rfl⟩ := report_cases hfound
  have hk : e.Keeps { e with
      frontier := rest
      stats.resultsReturned := e.stats.resultsReturned + 1 } := keeps_of_eq rfl
  refine ⟨?_, ?_, ?_, ?_⟩
  · rintro c ⟨r', hc⟩
    have honce := h.once c ⟨r', hc⟩
    rw [Block.holding_perm c ht, Block.holding_cons] at honce
    have hblock : Block.holding c [block] = if block.candidate = c then 1 else 0 := by
      simp only [Block.holding, List.countP_cons, List.countP_nil, decide_eq_true_eq,
        Block.holds_zero hl, Nat.zero_add]
    rw [hblock] at honce
    simp only [History.timesReturned, List.countP_cons, decide_eq_true_eq] at honce ⊢
    omega
  · intro b hb
    obtain ⟨r', hfits, hwindow⟩ := h.blocks b (ht.mem_iff.mpr (List.mem_cons_of_mem _ hb))
    exact ⟨r', hfits.mono hk, hwindow⟩
  · intro p hp
    rcases List.mem_cons.mp hp with rfl | hp
    · obtain ⟨r', hfits, hwindow⟩ := h.blocks block (ht.mem_iff.mpr List.mem_cons_self)
      obtain rfl : r = r' := Option.some.inj (hr.symm.trans hfits.registration)
      exact ⟨⟨r, hr, hfits.rotation_lt, hwindow hl⟩, rfl, r, theta, hr, htheta, rfl⟩
    · exact (h.returned p hp).mono hk
  · intro b hb
    obtain ⟨r', hfits, hleast⟩ := h.dropped b hb
    exact ⟨r', hfits.mono hk, hleast⟩

/-- Queries and clearings touch neither registrations nor blocks. -/
theorem Partitioned.of_eq (h : e.Partitioned history)
    (hr : e'.registrations = e.registrations) (hf : e'.frontier = e.frontier)
    (asked : List (Nat × S × R)) : e'.Partitioned { history with asked } := by
  have hk : e.Keeps e' := keeps_of_eq hr
  refine ⟨?_, ?_, fun p hp => (h.returned p hp).mono hk, ?_⟩
  · intro c hc
    rw [hf]
    exact h.once c (hc.mono (keeps_of_eq hr.symm))
  · intro b hb
    obtain ⟨r, hfits, hwindow⟩ := h.blocks b (hf ▸ hb)
    exact ⟨r, hfits.mono hk, hwindow⟩
  · intro b hb
    obtain ⟨r, hfits, hleast⟩ := h.dropped b hb
    exact ⟨r, hfits.mono hk, hleast⟩

theorem RunIf.partitioned {allow : Engine S R → Block R → Prop}
    (hrun : RunIf allow Frontier.Takes e history) : e.Partitioned history := by
  induction hrun with
  | start scans =>
    refine ⟨?_, nofun, nofun, nofun⟩
    rintro c ⟨r, hr, -⟩
    simp [ofCaches] at hr
  | add hrun _ hp ha ih => exact ih.add hp ha
  | @clear e history i _ ih => refine Partitioned.of_eq ih ?_ ?_ history.asked <;> rfl
  | query _ _ _ ih => refine Partitioned.of_eq ih ?_ ?_ _ <;> rfl
  | split hrun ht hl _ he ih => exact ih.split (fun _ _ hr => (hrun.admits hr).built) ht hl he
  | report _ ht hl hr ih => exact ih.report ht hl hr

/-- A scan of two points. -/
noncomputable def small : Engine ℝ ℝ :=
  ofCaches #[ScanCache.ofPoints #[⟨0, 1⟩, ⟨1, 1⟩] true]

/-- The small request on the small scan, over a pyramid of a grid that is not aligned. -/
theorem Run.exists_small (take : Frontier ℝ → Block ℝ → Frontier ℝ → Prop) :
    ∃ (e : Engine ℝ ℝ) (r : Registration ℝ ℝ), Run take e ⟨[], [], []⟩ ∧
      e.registrations = #[r] ∧ r.request = Request.small ∧ r.rotations = #[0, 1] ∧
      r.pyramid.metersPerPixel = 1 ∧ e.Offers ⟨0, 1, 0, 2⟩ ∧
      ∃ whole rest, e.frontier.pop? = some (whole, rest) ∧ whole.level = 0 + 1 := by
  have hbuild : Pyramid.build (Grid.ofFn ⟨3, 2, -1, 0⟩ fun x y => UInt8.ofNat (40 * x + 7 * y))
    (1 : ℝ) 2 ≠ .error .overflow := nofun
  obtain ⟨p, hp, hrep⟩ := (Pyramid.ensures_build _ _ (show 1 ≤ 2 by decide)).exists_ok hbuild
  have hlevels : p.numLevels = 2 := hrep.ascend.length
  have hstart : Run take small ⟨[], [], []⟩ := RunIf.start [(#[⟨0, 1⟩, ⟨1, 1⟩], true)]
  have hadd : ∃ e, small.add 0 p Request.small = .ok e := by
    unfold Engine.add
    rw [hlevels, Registration.ofRequest, Request.small_rotations]
    exact ⟨_, rfl⟩
  obtain ⟨e, he⟩ := hadd
  have hbuilt : p.Built := ⟨_, _, _, Or.inl hp⟩
  have hrun := hstart.add Nat.zero_lt_one hbuilt he
  obtain ⟨level, d, r', blocks', -, -, -, -, -, hr, -, heq⟩ := add_cases he
  obtain ⟨r, blocks, rfl, -, hseeds, honce⟩ := add_seeds hbuilt he
  obtain rfl : r = r' := by simpa [small, ofCaches] using congrArg Engine.registrations heq
  obtain ⟨hformed, -, hpyramid, hrequest⟩ := Registration.formed_of_ofRequest hr
  have hrotations : r.rotations = #[0, 1] := by
    have hrotations := hformed.rotations
    rw [hrequest, Request.small_rotations] at hrotations
    exact (Except.ok.inj hrotations).symm
  have hwindow : r.InWindow ⟨0, 1, 0, 2⟩ := by
    rw [Registration.InWindow, hrequest]
    decide
  have hrotation : 1 < r.rotations.size := by
    rw [hrotations]
    decide
  refine ⟨_, r, hrun, rfl, hrequest, hrotations, by rw [hpyramid, hrep.metersPerPixel],
    ⟨r, rfl, hrotation, hwindow⟩, ?_⟩
  have hperm := Frontier.toList_insertAll .empty blocks
  have hholding : 0 < Block.holding ⟨0, 1, 0, 2⟩ (Frontier.empty.insertAll blocks).toList := by
    rw [Block.holding_perm _ hperm, Block.holding_append,
      honce ⟨0, 1, 0, 2⟩ rfl hrotation hwindow]
    exact Nat.lt_add_right _ Nat.zero_lt_one
  obtain ⟨whole, rest, hpop⟩ := Frontier.exists_pop? hholding
  refine ⟨whole, rest, hpop, ?_⟩
  have hmem := (Frontier.toList_pop? hpop).mem_iff.mpr List.mem_cons_self
  obtain ⟨-, hfits, hlevel, -⟩ :=
    hseeds whole (by simpa [Frontier.toList] using hperm.mem_iff.mp hmem)
  have hlt := hfits.level_lt
  rw [hpyramid, hlevels] at hlt
  omega

/-- No score is low enough for the request to drop it. -/
def DropsNothing (request : Request R) : Prop :=
  ∀ least, request.minScore = some least → ∀ score : R, ¬ score < least

/-- Every candidate is held by one block, was returned once, or is held by one dropped quarter. So
an engine that drops nothing and has no more blocks has returned every candidate once. -/
theorem Run.search_space_partitioned (hrun : Run Frontier.Takes e history) :
    (∀ c, e.Offers c → Block.holding c e.frontier.toList + history.timesReturned c +
      Block.holding c history.dropped = 1) ∧
    (∀ p ∈ history.returned, e.Reports p.1 p.2) ∧
    (∀ b ∈ e.frontier.toList, ∃ r, e.Fits b r) ∧
    (e.frontier.toList = [] → ∀ c r, e.Offers c → e.registrations[c.registration]? = some r →
      DropsNothing r.request → history.timesReturned c = 1) ∧
    (∀ found e', e.next = .ok (found, e') →
      (found = none → e'.frontier.toList = []) ∧
      ∃ history', Resumes Frontier.Takes e history e' history' ∧
        history.Answers history' found) := by
  have h := hrun.partitioned
  refine ⟨h.once, h.returned, ?_, ?_, ?_⟩
  · intro b hb
    obtain ⟨r, hfits, -⟩ := h.blocks b hb
    exact ⟨r, hfits⟩
  · intro hempty c r hc hr hnothing
    have hdropped : Block.holding c history.dropped = 0 := Block.holding_eq_zero (by
      intro b hb hholds
      obtain ⟨r', hfits, least, score, hleast, hlt⟩ := h.dropped b hb
      obtain rfl : r = r' := Option.some.inj (hr.symm.trans (hholds.1 ▸ hfits.registration))
      exact hnothing least hleast score hlt)
    have honce := h.once c hc
    rw [hempty, hdropped] at honce
    simpa [Block.holding] using honce
  · intro found e' hnext
    have hout : Next Frontier.Takes e e.next := next_outcome (fun _ => True)
      (fun _ _ _ _ hpop => ⟨Frontier.toList_pop? hpop, trivial⟩) (fun _ _ _ => trivial) e trivial
    rw [hnext] at hout
    exact ⟨fun hnone => hout.drained_of_none (by rw [hnone]), hrun.next hout⟩

/-- Once the small request is registered, one block holds the corner of its window at the second
rotation. -/
theorem Run.search_space_partitioned_small : ∃ e : Engine ℝ ℝ,
    Run Frontier.Takes e ⟨[], [], []⟩ ∧ e.Offers ⟨0, 1, 0, 2⟩ ∧
      Block.holding ⟨0, 1, 0, 2⟩ e.frontier.toList = 1 := by
  obtain ⟨e, r, hrun, -, -, -, -, hoffers, -⟩ := Run.exists_small Frontier.Takes
  exact ⟨e, hrun, hoffers, (Run.search_space_partitioned hrun).1 _ hoffers⟩

end

end Engine

end ScanMatch
