import ScanMatch.Proofs.Partition

/-! # The bounds on the frontier

In exact arithmetic the bound of a block that was scored is no less than the score of any
translation in it, and no quarter scores above its whole. The registrations have to be well posed,
and no two queries of a scan may be mistaken for each other.
-/
namespace ScanMatch

open Checked (Ensures)

namespace Block

variable {R : Type}

/-- The first block is part of the second. -/
def Inside (b whole : Block R) : Prop :=
  (b.registration = whole.registration ∧ b.rotation = whole.rotation ∧ b.level ≤ whole.level) ∧
    b.x / 2 ^ (whole.level - b.level) = whole.x ∧ b.y / 2 ^ (whole.level - b.level) = whole.y

theorem quarter_ediv {q : Int × Int} (hq : q ∈ quarters) (x y : Int) :
    (2 * x + q.1) / 2 = x ∧ (2 * y + q.2) / 2 = y := by
  simp only [quarters, List.mem_cons, List.not_mem_nil, or_false] at hq
  rcases hq with rfl | rfl | rfl | rfl <;> omega

theorem quarter_inside {whole : Block R} {level : Nat} (hl : whole.level = level + 1)
    {q : Int × Int} (hq : q ∈ quarters) : (whole.quarter level q).Inside whole := by
  have hpow : (2 : Int) ^ (whole.level - level) = 2 := by
    rw [hl, Nat.add_sub_cancel_left, pow_one]
  refine ⟨⟨rfl, rfl, by rw [hl]; exact Nat.le_succ level⟩, ?_⟩
  simp only [quarter, hpow]
  exact quarter_ediv hq whole.x whole.y

/-- A candidate as a block of its own, which was not looked at. -/
def ofCandidate (c : Candidate) : Block R := ⟨c.registration, 0, c.rotation, c.x, c.y, .unbounded⟩

theorem ofCandidate_inside {b : Block R} {c : Candidate} (h : b.Holds c) :
    (ofCandidate c : Block R).Inside b := by
  obtain ⟨hregistration, hrotation, hx, hy⟩ := (holds_iff b c).mp h
  exact ⟨⟨hregistration.symm, hrotation.symm, Nat.zero_le _⟩, hx, hy⟩

end Block

namespace Registration

theorem tolerance_nonneg (x : ℝ) : 0 ≤ boundTolerance * Arith.max x 1 := by
  have hmax : (1 : ℝ) ≤ Arith.max x 1 := by
    unfold Arith.max
    split_ifs with hx hlt
    · exact le_refl 1
    · exact le_refl 1
    · exact not_lt.mp hlt
  have htolerance : (0 : ℝ) ≤ boundTolerance := by
    rw [boundTolerance, Exact.ofScientific_eq]
    positivity
  exact mul_nonneg htolerance (zero_le_one.trans hmax)

/-- A score that does not exceed the bound of the whole is no violation. -/
theorem ensures_boundExcess {whole : Bound ℝ} {score : ℝ}
    (h : ∀ s, whole.finite? = some s → score ≤ s) :
    Ensures (boundExcess whole score) fun excess => ∀ x, excess = some x → x ≤ 0 := by
  unfold boundExcess
  cases hwhole : whole.finite? with
  | none =>
    rintro x ⟨⟩
  | some s =>
    have hle : score - s ≤ 0 := sub_nonpos.mpr (h s hwhole)
    simp only [Exact.one_eq]
    rw [if_pos (hle.trans (tolerance_nonneg _))]
    rintro x ⟨⟩
    exact hle

end Registration

/-- Rotations by whole radians are far enough apart. -/
theorem distinguished_of_int {mpp mpp' : ℝ} {k k' : ℤ} (hmpp : mpp = mpp')
    (hk : |k| ≤ 9000000000) (hk' : |k'| ≤ 9000000000) :
    Distinguished mpp mpp' (k : ℝ) (k' : ℝ) := by
  intro level hkey
  refine ⟨by rw [hmpp], ?_⟩
  have hnano (mpp : ℝ) {k : ℤ} (hk : |k| ≤ 9000000000) :
      (CacheKey.ofQuery mpp (k : ℝ) level).nanoradians = k * 1000000000 := by
    have hcast : (k : ℝ) * (1e9 : ℝ) = ((k * 1000000000 : ℤ) : ℝ) := by
      push_cast
      norm_num
    rw [abs_le] at hk
    rw [CacheKey.ofQuery, Exact.ofScientific_eq]
    rw [← Exact.toInt64_round (k := k * 1000000000) (by omega), ← hcast]
    norm_num
  have heq := congrArg CacheKey.nanoradians hkey
  rw [hnano mpp hk, hnano mpp' hk'] at heq
  have hkk : k = k' := by omega
  rw [hkk]

namespace Engine

section

variable {S R : Type} [Scalar R] [Precision S R]

/-- All that a scan is asked for: at the rotations of each registration on it, and from outside. -/
def Queries (e : Engine S R) (history : History S R) (i : Nat) (metersPerPixel : S) (theta : R) :
    Prop :=
  (∃ (j : Nat) (r : Registration S R), e.registrations[j]? = some r ∧ r.cache = i ∧
    r.pyramid.metersPerPixel = metersPerPixel ∧ theta ∈ r.rotations) ∨
  (i, metersPerPixel, theta) ∈ history.asked

/-- What a block is scored with. -/
structure View (e : Engine S R) (b : Block R) where
  r : Registration S R
  points : Array (Point S)
  theta : R
  grid : Grid
  registration_eq : e.registrations[b.registration]? = some r
  points_eq : e.scans[r.cache]? = some points
  theta_eq : r.rotations[b.rotation]? = some theta
  grid_eq : r.pyramid.levels[b.level]? = some grid

variable {e e' : Engine S R} {history history' : History S R} {b : Block R}

omit [Scalar R] [Precision S R] in
theorem Queries.mono {i : Nat} {metersPerPixel : S} {theta : R}
    (h : e.Queries history i metersPerPixel theta) (hk : e.Keeps e')
    (hasked : history.asked ⊆ history'.asked) : e'.Queries history' i metersPerPixel theta := by
  rcases h with ⟨j, r, hr, hq⟩ | h
  · exact Or.inl ⟨j, r, hk j r hr, hq⟩
  · exact Or.inr (hasked h)

/-- Sets are forgotten or made for a query, but one scan at a time. -/
theorem madeFor_set {e : Engine S R} {Q Q' : Nat → S → R → Prop} {i : Nat} {cache : ScanCache S}
    (h : ∀ (j : Nat) (c : ScanCache S), e.caches[j]? = some c → c.MadeFor (Q j))
    (hQ : ∀ j metersPerPixel theta, Q j metersPerPixel theta → Q' j metersPerPixel theta)
    (hmade : cache.MadeFor (Q' i)) :
    ∀ (j : Nat) (c : ScanCache S), (e.caches.set! i cache)[j]? = some c → c.MadeFor (Q' j) := by
  intro j c hc
  rw [Array.set!_eq_setIfInBounds, Array.getElem?_setIfInBounds] at hc
  split at hc
  · next hi =>
    split at hc
    · obtain rfl := Option.some.inj hc
      rwa [← hi]
    · cases hc
  · exact (h j c hc).mono (hQ j)

omit [Scalar R] [Precision S R] in
theorem Fits.exists_view {r : Registration S R} (h : e.Fits b r) (hc : r.cache < e.scans.size) :
    Nonempty (e.View b) :=
  ⟨⟨r, _, _, _, h.registration, Array.getElem?_eq_getElem hc,
    Array.getElem?_eq_getElem h.rotation_lt, Array.getElem?_eq_getElem h.level_lt⟩⟩

namespace View

/-- The raw score of the block. -/
def raw (v : e.View b) : Int :=
  Registration.rawScore v.grid (2 ^ b.level)
    (scanPixels v.points v.r.pyramid.metersPerPixel v.theta) b.x b.y

/-- The scaled score is too low for the request. -/
def Below (v : e.View b) : Prop :=
  ∃ least, v.r.request.minScore = some least ∧ Arith.ofInt v.raw * v.r.request.scale < least

/-- The same view of a block from another engine. -/
def move (v : e.View b) (hk : e.Keeps e') (hs : e'.scans = e.scans) : e'.View b :=
  { v with
    registration_eq := hk _ _ v.registration_eq
    points_eq := by rw [hs, v.points_eq] }

/-- The view of a part of the block. -/
def inner (v : e.View b) {part : Block R} (h : part.Inside b) : e.View part :=
  have hlt : part.level < v.r.pyramid.levels.size :=
    h.1.2.2.trans_lt (Array.getElem?_eq_some_iff.mp v.grid_eq).1
  { r := v.r
    points := v.points
    theta := v.theta
    grid := v.r.pyramid.levels[part.level]
    registration_eq := by rw [h.1.1, v.registration_eq]
    points_eq := v.points_eq
    theta_eq := by rw [h.1.2.1, v.theta_eq]
    grid_eq := Array.getElem?_eq_getElem hlt }

end View

end

variable {S : Type} [Precision S ℝ]

/-- What the bounds rest on. -/
structure WellPosed (e : Engine S ℝ) (history : History S ℝ) : Prop where
  resolution_pos : ∀ (i : Nat) (r : Registration S ℝ), e.registrations[i]? = some r →
    0 < r.resolution
  scale_nonneg : ∀ (i : Nat) (r : Registration S ℝ), e.registrations[i]? = some r →
    0 ≤ r.request.scale
  admissible : ∀ (i : Nat) (r : Registration S ℝ), e.registrations[i]? = some r →
    ∀ prior, r.request.prior = some prior → prior.Admissible
  distinguished : ∀ i metersPerPixel metersPerPixel' theta theta',
    e.Queries history i metersPerPixel theta → e.Queries history i metersPerPixel' theta' →
      Distinguished metersPerPixel metersPerPixel' theta theta'

/-- The score of a candidate: its scaled correlation less the penalty of its pose. -/
noncomputable def score? (e : Engine S ℝ) (c : Candidate) : Option ℝ := do
  let r ← e.registrations[c.registration]?
  let points ← e.scans[r.cache]?
  let theta ← r.rotations[c.rotation]?
  return r.finalScore points theta c.x c.y

variable {e e' : Engine S ℝ} {history history' : History S ℝ} {b : Block ℝ}

theorem WellPosed.of_keeps (h : e'.WellPosed history') (hk : e.Keeps e')
    (hasked : history.asked ⊆ history'.asked) : e.WellPosed history :=
  ⟨fun i r hr => h.resolution_pos i r (hk i r hr), fun i r hr => h.scale_nonneg i r (hk i r hr),
    fun i r hr => h.admissible i r (hk i r hr),
    fun i _ _ _ _ hq hq' => h.distinguished i _ _ _ _ (hq.mono hk hasked) (hq'.mono hk hasked)⟩

/-- The score of the block, by which it is bounded once it was looked at. -/
noncomputable def View.score (v : e.View b) : ℝ :=
  v.r.blockScore v.grid (scanPixels v.points v.r.pyramid.metersPerPixel v.theta) v.theta b.level
    b.x b.y

/-- A block that was looked at is bounded by its score, which is high enough for the request. One
that was not is coarse. -/
def HasBound (e : Engine S ℝ) (b : Block ℝ) : Prop :=
  ∃ v : e.View b, b.bound = .unbounded ∧ 0 < b.level ∨ b.bound = .score v.score ∧ ¬ v.Below

/-- What holds of all bounds at all times. -/
structure Bounded (e : Engine S ℝ) (history : History S ℝ) : Prop where
  caches : ∀ (i : Nat) (cache : ScanCache S), e.caches[i]? = some cache →
    cache.MadeFor (e.Queries history i)
  blocks : ∀ b ∈ e.frontier.toList, e.HasBound b
  dropped : ∀ b ∈ history.dropped, ∃ v : e.View b, v.Below
  excess : e.stats.maxBoundExcess = 0

theorem HasBound.move (h : e.HasBound b) (hk : e.Keeps e') (hs : e'.scans = e.scans) :
    e'.HasBound b := by
  obtain ⟨v, hbound⟩ := h
  exact ⟨v.move hk hs, hbound⟩

namespace View

variable {take : Frontier ℝ → Block ℝ → Frontier ℝ → Prop}

/-- A part scores no more than the whole, before and after the penalty. -/
theorem inside_le (hrun : Run take e history) {part : Block ℝ} (v : e.View b) (v' : e.View part)
    (h : part.Inside b) : v'.raw ≤ v.raw ∧ (e.WellPosed history → v'.score ≤ v.score) := by
  obtain ⟨r, points, theta, g, hr, hpoints, htheta, hg⟩ := v
  obtain ⟨r', points', theta', g', hr', hpoints', htheta', hg'⟩ := v'
  obtain ⟨⟨hregistration, hrotation, hle⟩, hx, hy⟩ := h
  obtain rfl : r = r' := Option.some.inj (hr.symm.trans (hregistration ▸ hr'))
  obtain rfl : points = points' := Option.some.inj (hpoints.symm.trans hpoints')
  obtain rfl : theta = theta' := Option.some.inj (htheta.symm.trans (hrotation ▸ htheta'))
  obtain ⟨base, hbase⟩ := (hrun.admits hr).built.summarizes
  have hsum := (hbase b.level g hg).2
  have hsum' := (hbase part.level g' hg').2
  constructor
  · have hraw := Registration.rawScore_le hle hsum' hsum
      (scanPixels points r.pyramid.metersPerPixel theta) part.x part.y
    rwa [hx, hy] at hraw
  · intro hp
    have hscore := Registration.blockScore_le (hp.scale_nonneg _ r hr) (hp.admissible _ r hr)
      (hp.resolution_pos _ r hr) hle hsum' hsum
      (scanPixels points r.pyramid.metersPerPixel theta) theta part.x part.y
    rwa [hx, hy] at hscore

theorem score?_eq (hp : e.WellPosed history) {c : Candidate} (v : e.View (.ofCandidate c)) :
    e.score? c = some v.score := by
  obtain ⟨r, points, theta, g, hr, hpoints, htheta, hg⟩ := v
  have hzero := Registration.blockScore_zero (hp.resolution_pos _ r hr) hg points theta c.x c.y
  have hr : e.registrations[c.registration]? = some r := hr
  have htheta : r.rotations[c.rotation]? = some theta := htheta
  simp only [score?, hr, hpoints, htheta, Option.bind_eq_bind, Option.bind_some]
  exact congrArg some hzero.symm

/-- A cache that a query about the block may be answered from. -/
def Answerable (v : e.View b) (history : History S ℝ) (cache : ScanCache S) : Prop :=
  cache.MadeFor (e.Queries history v.r.cache) ∧ cache.points = v.points

omit [Precision S ℝ] in
theorem mem_rotations (v : e.View b) : v.theta ∈ v.r.rotations :=
  Array.mem_of_getElem? v.theta_eq

theorem ensures_correlate (hrun : Run take e history) (hp : e.WellPosed history) (v : e.View b)
    {cache : ScanCache S} (hc : v.Answerable history cache) :
    Ensures (v.r.correlate cache b.rotation b.level b.x b.y) fun out =>
      v.Answerable history out.2 ∧ out.1 = v.raw := by
  obtain ⟨base, hbase⟩ := (hrun.admits v.registration_eq).built.summarizes
  obtain ⟨hlevel, hsum⟩ := hbase b.level v.grid v.grid_eq
  have hquery (theta : ℝ) (h : theta ∈ v.r.rotations) :
      e.Queries history v.r.cache v.r.pyramid.metersPerPixel theta :=
    Or.inl ⟨_, v.r, v.registration_eq, rfl, rfl, h⟩
  have hfaithful := hc.1.faithful (fun mpp' theta' hq =>
    hp.distinguished _ _ _ _ _ (hquery _ v.mem_rotations) hq) b.level
  have hcorrelate := Registration.ensures_correlate b.x b.y v.grid_eq hsum (by omega) v.theta_eq
    hfaithful
  refine hcorrelate.imp ?_
  rintro ⟨n, cache'⟩ hok hn
  obtain ⟨theta, shared, htheta, hget⟩ := Registration.correlate_cases hok
  refine ⟨⟨hc.1.get (hquery theta (Array.mem_of_getElem? htheta)) hget, ?_⟩, ?_⟩
  · rw [(ScanCache.get_points hget).1, hc.2]
  · rw [raw, ← hc.2]
    exact hn

/-- The verdicts that fit the score of a block. -/
def Settles (v : e.View b) : Verdict ℝ → Prop
  | .outside => True
  | .dropped => v.Below
  | .kept score excess => score = v.score ∧ ¬ v.Below ∧ ∀ x, excess = some x → x ≤ 0

theorem ensures_judge (hrun : Run take e history) (hp : e.WellPosed history) (v : e.View b)
    {whole : Bound ℝ} (hwhole : ∀ s, whole.finite? = some s → v.score ≤ s)
    {cache : ScanCache S} (hc : v.Answerable history cache) :
    Ensures (v.r.judge cache whole b.rotation b.level b.x b.y) fun out =>
      v.Answerable history out.2 ∧ v.Settles out.1 := by
  obtain ⟨base, hbase⟩ := (hrun.admits v.registration_eq).built.summarizes
  have hlevel := (hbase b.level v.grid v.grid_eq).1
  refine (ensures_cellSide_pow (by omega)).bind ?_
  rintro d rfl
  refine (Block.ensures_meets _ _ _ _).bind ?_
  rintro (_ | _) -
  · exact ⟨hc, trivial⟩
  refine (Block.ensures_meets _ _ _ _).bind ?_
  rintro (_ | _) -
  · exact ⟨hc, trivial⟩
  refine (v.ensures_correlate hrun hp hc).bind ?_
  rintro ⟨n, cache'⟩ ⟨hc', rfl⟩
  have hkeep (hnot : ¬ v.Below) : Ensures (do
      let score := Arith.ofInt v.raw * v.r.request.scale -
        (← v.r.minPenalty b.rotation b.level b.x b.y)
      let excess ← Registration.boundExcess whole score
      return (Verdict.kept score excess, cache')) fun out =>
        v.Answerable history out.2 ∧ v.Settles out.1 := by
    rw [Registration.minPenalty_eq_ok (hrun.admits v.registration_eq).formed
      (hp.resolution_pos _ _ v.registration_eq) v.theta_eq]
    refine (Registration.ensures_boundExcess hwhole).bind ?_
    intro excess hexcess
    exact ⟨hc', rfl, hnot, hexcess⟩
  dsimp only
  -- whether anything can be dropped is asked before the penalty is known
  cases hleast : v.r.request.minScore with
  | none =>
    refine hkeep ?_
    rintro ⟨least, h, -⟩
    rw [hleast] at h
    cases h
  | some least =>
    dsimp only
    by_cases hlt : Arith.ofInt v.raw * v.r.request.scale < least
    · rw [if_pos (decide_eq_true hlt)]
      exact ⟨hc', least, hleast, hlt⟩
    · rw [if_neg fun hle => hlt (of_decide_eq_true hle)]
      refine hkeep ?_
      rintro ⟨least', h, hlt'⟩
      obtain rfl := Option.some.inj (hleast.symm.trans h)
      exact hlt hlt'

end View

omit [Precision S ℝ] in
theorem boundOf_eq (r : Registration S ℝ) (score : ℝ) : r.boundOf score = .score score := by
  simp [Registration.boundOf]

theorem count_excess {stats : SearchStats ℝ} {verdict : Verdict ℝ}
    (hstats : stats.maxBoundExcess = 0)
    (h : ∀ score x, verdict = .kept score (some x) → x ≤ 0) :
    (stats.count verdict).maxBoundExcess = 0 := by
  cases verdict with
  | outside => exact hstats
  | dropped => exact hstats
  | kept score excess =>
    cases excess with
    | none => exact hstats
    | some x =>
      have hx := h score x rfl
      change Arith.max stats.maxBoundExcess x = 0
      rw [hstats, Arith.max, Exact.isNaN_eq, if_neg (by simp), if_neg (not_lt.mpr hx)]

theorem foldl_count_excess {judged : List (Block ℝ × Verdict ℝ)}
    (h : ∀ j ∈ judged, ∀ score x, j.2 = .kept score (some x) → x ≤ 0) :
    ∀ stats : SearchStats ℝ, stats.maxBoundExcess = 0 →
      (judged.foldl (fun s j => s.count j.2) stats).maxBoundExcess = 0 := by
  induction judged with
  | nil =>
    intro stats hstats
    exact hstats
  | cons j judged ih =>
    intro stats hstats
    exact ih (fun j' hj' => h j' (List.mem_cons_of_mem j hj')) _
      (count_excess hstats (h j List.mem_cons_self))

section

variable {take : Frontier ℝ → Block ℝ → Frontier ℝ → Prop} {whole : Block ℝ} {rest : Frontier ℝ}
  {level : Nat}

/-- A block on the frontier has a scored view, and a cache to answer for it. -/
theorem Bounded.exists_view (h : e.Bounded history) (hmem : whole ∈ e.frontier.toList) :
    ∃ (v : e.View whole) (cache : ScanCache S), e.caches[v.r.cache]? = some cache ∧
      v.Answerable history cache ∧ ∀ s, whole.bound.finite? = some s → s = v.score := by
  obtain ⟨v, hbound⟩ := h.blocks whole hmem
  have hpoints := v.points_eq
  rw [scans, Array.getElem?_map] at hpoints
  obtain ⟨cache, hc, hcp⟩ := Option.map_eq_some_iff.mp hpoints
  refine ⟨v, cache, hc, ⟨h.caches _ _ hc, hcp⟩, ?_⟩
  intro s hs
  rcases hbound with ⟨hbound, -⟩ | ⟨hbound, -⟩
  · rw [hbound] at hs
    cases hs
  · rw [hbound] at hs
    exact (Option.some.inj hs).symm

/-- A split fails for an overflow only, and its verdicts fit the scores of the quarters. -/
theorem ensures_expand (hrun : Run take e history) (h : e.Bounded history)
    (hp : e.WellPosed history) (ht : e.frontier.Takes whole rest) (hl : whole.level = level + 1) :
    Ensures (({ e with frontier := rest } : Engine S ℝ).expand whole level) fun e' =>
      ∃ (v : e.View whole) (judged : List (Block ℝ × Verdict ℝ)) (cache : ScanCache S),
        e' = ({ e with frontier := rest } : Engine S ℝ).afterSplit v.r judged cache ∧
        ({ e with frontier := rest } : Engine S ℝ).droppedQuarters whole level =
          judged.filterMap Verdict.dropped? ∧
        v.Answerable history cache ∧ (∀ s, whole.bound.finite? = some s → s = v.score) ∧
        ∀ j ∈ judged, ∃ v' : e.View j.1, j.1.Inside whole ∧ j.1.level = level ∧ v'.Settles j.2 := by
  obtain ⟨v, cache, hc, hanswerable, hwhole⟩ := h.exists_view (ht.mem_iff.mpr List.mem_cons_self)
  have hr : ({ e with frontier := rest } : Engine S ℝ).registrations[whole.registration]? =
      some v.r := v.registration_eq
  rw [expand_eq hr hc]
  refine (Registration.ensures_judgeAll (P := v.Answerable history)
    (Q := fun b verdict => ∃ v' : e.View b, b.Inside whole ∧ b.level = level ∧ v'.Settles verdict)
    Block.quarters ?_ cache hanswerable).map ?_
  · intro q hq cache hcache
    have hinside := Block.quarter_inside hl hq
    have hscore := (View.inside_le hrun v (v.inner hinside) hinside).2 hp
    have hjudge := View.ensures_judge hrun hp (v.inner hinside)
      (fun s hs => hscore.trans (hwhole s hs).ge) hcache
    exact hjudge.mono fun out hout => ⟨hout.1, v.inner hinside, hinside, rfl, hout.2⟩
  · rintro ⟨judged, cache'⟩ hok ⟨hcache, hall⟩
    exact ⟨v, judged, cache', rfl, droppedQuarters_eq hr hc hok, hcache, hwhole, hall⟩

/-- The blocks that a split keeps are quarters with their scores for bounds. -/
theorem kept_bounded {r : Registration S ℝ} {judged : List (Block ℝ × Verdict ℝ)}
    (h : ∀ j ∈ judged, ∃ v : e.View j.1, j.1.Inside whole ∧ j.1.level = level ∧ v.Settles j.2)
    {b : Block ℝ} (hb : b ∈ judged.filterMap r.kept?) :
    ∃ v : e.View b, b.Inside whole ∧ b.level = level ∧ b.bound = .score v.score ∧ ¬ v.Below := by
  obtain ⟨j, hj, hkept⟩ := List.mem_filterMap.mp hb
  obtain ⟨score, excess, hverdict, rfl⟩ := Registration.kept?_cases hkept
  obtain ⟨v, hinside, hlevel, hsettles⟩ := h j hj
  rw [hverdict] at hsettles
  obtain ⟨rfl, hnot, -⟩ := hsettles
  exact ⟨⟨v.r, v.points, v.theta, v.grid, v.registration_eq, v.points_eq, v.theta_eq, v.grid_eq⟩,
    hinside, hlevel, boundOf_eq r v.score, hnot⟩

theorem Bounded.dropped_move (h : e.Bounded history) (hk : e.Keeps e') (hs : e'.scans = e.scans)
    {b : Block ℝ} (hb : b ∈ history.dropped) : ∃ v : e'.View b, v.Below := by
  obtain ⟨v, hbelow⟩ := h.dropped b hb
  exact ⟨v.move hk hs, hbelow⟩

theorem Bounded.split (hrun : Run take e history) (h : e.Bounded history)
    (hp : e.WellPosed history) (ht : e.frontier.Takes whole rest) (hl : whole.level = level + 1)
    (he : ({ e with frontier := rest } : Engine S ℝ).expand whole level = .ok e') :
    e'.Bounded { history with
      dropped := ({ e with frontier := rest } : Engine S ℝ).droppedQuarters whole level ++
        history.dropped } := by
  obtain ⟨hregistrations, hs⟩ := expand_frame he
  have hk : e.Keeps e' := keeps_of_eq hregistrations
  obtain ⟨v, judged, cache, rfl, hdropped, hcache, -, hall⟩ :=
    (ensures_expand hrun h hp ht hl).of_ok he
  refine ⟨?_, ?_, ?_, ?_⟩
  · exact madeFor_set h.caches (fun _ _ _ hq => hq.mono hk fun _ hmem => hmem)
      (hcache.1.mono fun _ _ hq => hq.mono hk fun _ hmem => hmem)
  · intro b hb
    rcases List.mem_append.mp ((Frontier.toList_insertAll rest _).mem_iff.mp hb) with hb | hb
    · obtain ⟨v', -, -, hbound⟩ := kept_bounded hall hb
      exact HasBound.move ⟨v', Or.inr hbound⟩ hk hs
    · exact (h.blocks b (ht.mem_iff.mpr (List.mem_cons_of_mem _ hb))).move hk hs
  · intro b hb
    rcases List.mem_append.mp hb with hb | hb
    · rw [hdropped] at hb
      obtain ⟨j, hj, hdrop⟩ := List.mem_filterMap.mp hb
      obtain ⟨hverdict, rfl⟩ := Registration.dropped?_cases hdrop
      obtain ⟨v', -, -, hsettles⟩ := hall j hj
      rw [hverdict] at hsettles
      exact ⟨v'.move hk hs, hsettles⟩
    · exact h.dropped_move hk hs hb
  · refine foldl_count_excess ?_ _ h.excess
    intro j hj score x hverdict
    obtain ⟨v', -, -, hsettles⟩ := hall j hj
    rw [hverdict] at hsettles
    exact hsettles.2.2 x rfl

theorem Bounded.report {block : Block ℝ} {found : Found ℝ} (h : e.Bounded history)
    (ht : e.frontier.Takes block rest)
    (hr : ({ e with frontier := rest } : Engine S ℝ).report block = .ok (found, e')) :
    e'.Bounded { history with returned := (block.candidate, found) :: history.returned } := by
  obtain ⟨r, theta, -, -, -, rfl⟩ := report_cases hr
  have hk : e.Keeps { e with
      frontier := rest
      stats.resultsReturned := e.stats.resultsReturned + 1 } := keeps_of_eq rfl
  refine ⟨?_, ?_, ?_, h.excess⟩
  · intro i cache hc
    exact (h.caches i cache hc).mono fun _ _ hq => hq.mono hk fun _ hmem => hmem
  · intro b hb
    exact (h.blocks b (ht.mem_iff.mpr (List.mem_cons_of_mem _ hb))).move hk rfl
  · exact fun _ hb => h.dropped_move hk rfl hb

theorem Bounded.add {i : Nat} {pyramid : Pyramid S} {request : Request ℝ} (h : e.Bounded history)
    (hi : i < e.caches.size) (hbuilt : pyramid.Built) (ha : e.add i pyramid request = .ok e') :
    e'.Bounded history := by
  obtain ⟨hk, -⟩ := add_keeps ha
  obtain ⟨r, blocks, rfl, hcache, hseeds, -⟩ := add_seeds hbuilt ha
  refine ⟨?_, ?_, ?_, h.excess⟩
  · intro i cache hc
    exact (h.caches i cache hc).mono fun _ _ hq => hq.mono hk fun _ hmem => hmem
  · intro b hb
    rcases List.mem_append.mp ((Frontier.toList_insertAll e.frontier _).mem_iff.mp hb) with hb | hb
    · obtain ⟨-, hfits, hlevel, hbound⟩ := hseeds b hb
      obtain ⟨v⟩ := hfits.exists_view (by rwa [hcache, scans_size])
      exact ⟨v, Or.inl ⟨hbound, hlevel⟩⟩
    · exact (h.blocks b hb).move hk rfl
  · exact fun _ hb => h.dropped_move hk rfl hb

/-- Clearing a scan or asking it something leaves the bounds as they are. -/
theorem Bounded.of_cache (h : e.Bounded history) {i : Nat} {cache cache' : ScanCache S}
    {asked : List (Nat × S × ℝ)} (hc : e.caches[i]? = some cache)
    (hpoints : cache'.points = cache.points) (hasked : history.asked ⊆ asked)
    (hmade : cache'.MadeFor (e.Queries { history with asked } i)) :
    ({ e with caches := e.caches.set! i cache' } : Engine S ℝ).Bounded { history with asked } := by
  have hk : e.Keeps { e with caches := e.caches.set! i cache' } := keeps_of_eq rfl
  have hs : (e.caches.set! i cache').map ScanCache.points = e.scans := scans_set hc hpoints
  refine ⟨?_, fun b hb => (h.blocks b hb).move hk hs, fun b hb => h.dropped_move hk hs hb, h.excess⟩
  exact madeFor_set h.caches (fun _ _ _ hq => hq.mono hk hasked) hmade

/-- Posed well in the end, an engine was posed well at every step before. -/
theorem Run.bounded (hrun : Run Frontier.Takes e history) :
    e.WellPosed history → e.Bounded history := by
  induction hrun with
  | start scans =>
    intro _
    refine ⟨?_, nofun, nofun, Exact.zero_eq⟩
    intro i cache hc
    refine ScanCache.madeFor_of_empty ?_ _
    simp only [ofCaches, List.getElem?_toArray, List.getElem?_map] at hc
    obtain ⟨scan, -, rfl⟩ := Option.map_eq_some_iff.mp hc
    rfl
  | add _ hi hbuilt ha ih =>
    intro hp
    exact (ih (hp.of_keeps (add_keeps ha).1 fun _ hmem => hmem)).add hi hbuilt ha
  | @clear e history i _ ih =>
    intro hp
    rcases e.clearCache_cases i with heq | ⟨cache, hc, heq⟩
    · rw [heq] at hp ⊢
      exact ih hp
    · rw [heq] at hp ⊢
      have h := ih (hp.of_keeps (keeps_of_eq rfl) fun _ hmem => hmem)
      exact h.of_cache hc rfl (fun _ hmem => hmem) (ScanCache.madeFor_of_empty rfl _)
  | @query e history i cache mpp theta level shared cache' _ hc hq ih =>
    intro hp
    have hmem : history.asked ⊆ (i, mpp, theta) :: history.asked :=
      fun _ hmem => List.mem_cons_of_mem _ hmem
    have h := ih (hp.of_keeps (keeps_of_eq rfl) hmem)
    refine h.of_cache hc (ScanCache.get_points hq).1 hmem ?_
    refine ((h.caches i cache hc).mono ?_).get (Or.inr List.mem_cons_self) hq
    exact fun _ _ hq => hq.mono (keeps_of_eq rfl) hmem
  | @split e e' history whole rest level hrun ht hl _ he ih =>
    intro hp
    have hk : e.Keeps e' := keeps_of_eq (expand_frame he).1
    have hp' : e.WellPosed history := hp.of_keeps hk fun _ hmem => hmem
    exact (ih hp').split hrun hp' ht hl he
  | @report e e' history block rest found _ ht hl hr ih =>
    intro hp
    have hk : e.Keeps e' := by
      obtain ⟨r, theta, -, -, -, rfl⟩ := report_cases hr
      exact keeps_of_eq rfl
    exact (ih (hp.of_keeps hk fun _ hmem => hmem)).report ht hr

theorem HasBound.of_holds (hrun : Run take e history) (hp : e.WellPosed history)
    (h : e.HasBound b) {s : ℝ} (hs : b.bound.finite? = some s) {c : Candidate} (hc : b.Holds c) :
    ∃ t, e.score? c = some t ∧ t ≤ s := by
  obtain ⟨v, ⟨hbound, -⟩ | ⟨hbound, -⟩⟩ := h
  · rw [hbound] at hs
    cases hs
  · rw [hbound] at hs
    obtain rfl : v.score = s := Option.some.inj hs
    have hinside := Block.ofCandidate_inside (R := ℝ) hc
    exact ⟨_, (v.inner hinside).score?_eq hp, (v.inside_le hrun (v.inner hinside) hinside).2 hp⟩

theorem wellPosed_small {e : Engine ℝ ℝ} {r : Registration ℝ ℝ}
    (hregistrations : e.registrations = #[r]) (hrequest : r.request = Request.small)
    (hrotations : r.rotations = #[0, 1]) (hmpp : r.pyramid.metersPerPixel = 1) :
    e.WellPosed ⟨[], [], []⟩ := by
  have honly (i : Nat) (r' : Registration ℝ ℝ) (h : e.registrations[i]? = some r') : r' = r := by
    rw [hregistrations] at h
    obtain ⟨hi, rfl⟩ := Array.getElem?_eq_some_iff.mp h
    obtain rfl : i = 0 := Nat.lt_one_iff.mp hi
    rfl
  refine ⟨?_, ?_, ?_, ?_⟩
  · intro i r' hr'
    rw [honly i r' hr']
    change 0 < r.pyramid.metersPerPixel
    rw [hmpp]
    exact one_pos
  · intro i r' hr'
    rw [honly i r' hr', hrequest]
    exact zero_le_one
  · intro i r' hr' prior hprior
    rw [honly i r' hr', hrequest] at hprior
    obtain rfl := Option.some.inj hprior
    refine ⟨⟨rfl, rfl, rfl, ?_⟩, Or.inr ?_, Or.inl rfl⟩
    · intro x y t
      dsimp only
      nlinarith [mul_self_nonneg x, mul_self_nonneg t]
    · norm_num
  · have hquery {i : Nat} {mpp theta : ℝ} (h : e.Queries ⟨[], [], []⟩ i mpp theta) :
        mpp = 1 ∧ ∃ k : ℤ, |k| ≤ 9000000000 ∧ theta = k := by
      rcases h with ⟨j, r', hr', -, hmpp', htheta⟩ | h
      · obtain rfl := honly j r' hr'
        rw [hrotations] at htheta
        refine ⟨hmpp'.symm.trans hmpp, ?_⟩
        have : theta = 0 ∨ theta = 1 := by simpa using htheta
        rcases this with rfl | rfl
        · exact ⟨0, by decide, by simp⟩
        · exact ⟨1, by decide, by simp⟩
      · cases h
    intro i mpp mpp' theta theta' hq hq'
    obtain ⟨rfl, k, hk, rfl⟩ := hquery hq
    obtain ⟨rfl, k', hk', rfl⟩ := hquery hq'
    exact distinguished_of_int rfl hk hk'

/-- A finite bound is one on the scores of all translations of its block. A split can fail for an
overflow only, no quarter that it keeps is bounded above its whole, and so the greatest excess
stays zero. -/
theorem Run.bounds_hold (hrun : Run Frontier.Takes e history) (hp : e.WellPosed history) :
    (∀ b ∈ e.frontier.toList, ∀ s, b.bound.finite? = some s → ∀ c, b.Holds c →
      ∃ t, e.score? c = some t ∧ t ≤ s) ∧
    e.stats.maxBoundExcess = 0 ∧
    (∀ whole rest level, e.frontier.Takes whole rest → whole.level = level + 1 →
      Ensures (({ e with frontier := rest } : Engine S ℝ).expand whole level) fun e' =>
        ∃ kept, e'.frontier.toList.Perm (kept ++ rest.toList) ∧
          ∀ b ∈ kept, b.Inside whole ∧ b.level = level ∧ ∃ t, b.bound.finite? = some t ∧
            ∀ s, whole.bound.finite? = some s → t ≤ s) := by
  have h := hrun.bounded hp
  refine ⟨fun b hb s hs c hc => (h.blocks b hb).of_holds hrun hp hs hc, h.excess, ?_⟩
  intro whole rest level ht hl
  refine (ensures_expand hrun h hp ht hl).mono ?_
  rintro e' ⟨v, judged, cache, rfl, -, -, hwhole, hall⟩
  refine ⟨judged.filterMap v.r.kept?, Frontier.toList_insertAll rest _, ?_⟩
  intro b hb
  obtain ⟨v', hinside, hlevel, hbound, -⟩ := kept_bounded hall hb
  refine ⟨hinside, hlevel, v'.score, by rw [hbound]; rfl, ?_⟩
  intro s hs
  rw [hwhole s hs]
  exact (v.inside_le hrun v' hinside).2 hp

/-- The small request meets all that the bounds rest on, and has blocks to split. -/
theorem Run.bounds_hold_small : ∃ (e : Engine ℝ ℝ) (whole : Block ℝ) (rest : Frontier ℝ),
    Run Frontier.Takes e ⟨[], [], []⟩ ∧ e.WellPosed ⟨[], [], []⟩ ∧
      e.frontier.Takes whole rest ∧ whole.level = 0 + 1 ∧ e.stats.maxBoundExcess = 0 ∧
      Ensures (({ e with frontier := rest } : Engine ℝ ℝ).expand whole 0) fun e' =>
        ∃ kept, e'.frontier.toList.Perm (kept ++ rest.toList) ∧
          ∀ b ∈ kept, b.Inside whole ∧ b.level = 0 ∧ ∃ t, b.bound.finite? = some t ∧
            ∀ s, whole.bound.finite? = some s → t ≤ s := by
  obtain ⟨e, r, hrun, hregistrations, hrequest, hrotations, hmpp, -, whole, rest, hpop, hlevel⟩ :=
    Run.exists_small Frontier.Takes
  have hp := wellPosed_small hregistrations hrequest hrotations hmpp
  have ht := Frontier.toList_pop? hpop
  obtain ⟨-, hexcess, hsplit⟩ := Run.bounds_hold hrun hp
  exact ⟨e, whole, rest, hrun, hp, ht, hlevel, hexcess, hsplit whole rest 0 ht hlevel⟩

end

end Engine

end ScanMatch
