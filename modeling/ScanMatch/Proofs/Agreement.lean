import ScanMatch.Proofs.CacheHistory
import ScanMatch.Proofs.Climbing

/-! # Search and climb agree

In exact arithmetic every pose that a search returns has, for the climb, the score that the search
returned with it. The scan's sets must be those of the rotation that found the pose, as they are
unless another query met the same key, and so runs are looked at in which every split meets a
condition.
-/
namespace ScanMatch

namespace Registration

/-- A sum that is answered met no index above the greatest one. -/
theorem weightedSum_reaches {g : Grid} {offX offY : ℤ} {cells : List WeightedCell} {n : ℤ}
    (h : weightedSum g offX offY cells = .ok n) :
    ∀ w ∈ cells, w.x + offX ≤ 2147483647 ∧ w.y + offY ≤ 2147483647 := by
  unfold weightedSum at h
  generalize (0 : ℤ) = start at h
  induction cells generalizing start with
  | nil => nofun
  | cons w cells ih =>
    rw [List.foldlM_cons] at h
    obtain ⟨sum, hstep, h⟩ := Checked.bind_eq_ok h
    obtain ⟨x, hx, hstep⟩ := Checked.bind_eq_ok hstep
    obtain ⟨y, hy, -⟩ := Checked.bind_eq_ok hstep
    intro w' hw'
    rcases List.mem_cons.mp hw' with rfl | hw'
    · exact ⟨((Checked.ensures_int32 _).of_ok hx).2.2, ((Checked.ensures_int32 _).of_ok hy).2.2⟩
    · exact ih sum h w' hw'

variable {S : Type} [Precision S ℝ] {r : Registration S ℝ} {cache cache' : ScanCache S}
  {theta : ℝ} {g : Grid} {i : ℕ} {x y : ℤ}

/-- What it rests on that a reported pose has the score that it was found with. -/
structure Ratable (r : Registration S ℝ) (points : Array (Point S)) (theta : ℝ) : Prop where
  resolution_pos : 0 < r.resolution
  prior : ∀ prior, r.request.prior = some prior →
    prior.information.PosSemidef ∧ prior.information.block.WellConditioned
  pixels : r.PixelsFit points theta

/-- The raw score of a single translation, and how far the pixels under the scan reach. -/
theorem correlate_zero {n : ℤ} (hg : r.pyramid.levels[0]? = some g)
    (htheta : r.rotations[i]? = some theta)
    (hc : cache.Faithful r.pyramid.metersPerPixel theta 0)
    (h : r.correlate cache i 0 x y = .ok (n, cache')) :
    n = r.correlation cache.points theta x y ∧ r.Reaches cache.points theta g x y := by
  have hn := (ensures_correlate x y hg (Grid.summarizes_self g) (by decide) htheta hc).of_ok h
  refine ⟨hn.trans (rawScore_zero hg _ theta x y), ?_⟩
  obtain ⟨g', hg', h⟩ := Checked.bind_eq_ok h
  obtain ⟨theta', htheta', h⟩ := Checked.bind_eq_ok h
  obtain rfl := Except.ok.inj ((Pyramid.level_eq_ok hg).symm.trans hg')
  obtain rfl := Except.ok.inj ((rotation_eq_ok htheta).symm.trans htheta')
  obtain ⟨⟨shared, cache''⟩, hget, h⟩ := Checked.bind_eq_ok h
  obtain ⟨d, hd, h⟩ := Checked.bind_eq_ok h
  obtain ⟨offX, hoffX, h⟩ := Checked.bind_eq_ok h
  obtain ⟨offY, hoffY, h⟩ := Checked.bind_eq_ok h
  obtain ⟨sum, hsum, h⟩ := Checked.bind_eq_ok h
  obtain rfl : (1 : ℤ) = d := Except.ok.inj hd
  obtain rfl := Checked.int32_eq_ok hoffX
  obtain rfl := Checked.int32_eq_ok hoffY
  have hcells : shared.set.cells = _ := (hc.ensures_get (by decide)).of_ok hget
  intro c hmem
  have hmem : c ∈ (scanPixels cache.points r.pyramid.metersPerPixel theta).map
      (Cell.coarsen (2 ^ 0)) := by
    rwa [Cell.map_coarsen_zero]
  obtain ⟨w, hw, rfl⟩ := CellSet.mem_of_mem_group cache.merge hmem
  have := weightedSum_reaches hsum w (hcells ▸ hw)
  rw [Int.tdiv_one, Int.tdiv_one] at this
  omega

/-- A single translation is kept with the score of the pose that it reports. -/
theorem Judged.kept_zero {whole : Bound ℝ} {score : ℝ} {excess : Option ℝ} (hr : r.Formed)
    (hg : r.pyramid.levels[0]? = some g) (htheta : r.rotations[i]? = some theta)
    (hc : cache.Faithful r.pyramid.metersPerPixel theta 0) (hrate : r.Ratable cache.points theta)
    (h : r.Judged cache whole i 0 x y (.kept score excess) cache') :
    score = ((r.scorer cache.points g).evaluate (r.reportedPose theta x y).normalized).score := by
  cases h with
  | kept _ _ _ hraw _ hpenalty =>
    obtain ⟨rfl, hreach⟩ := correlate_zero hg htheta hc hraw
    rw [minPenalty_eq_ok hr hrate.resolution_pos htheta, charge_zero hrate.resolution_pos]
      at hpenalty
    obtain rfl := Except.ok.inj hpenalty
    rw [evaluate_reported hg hrate.resolution_pos hrate.prior hrate.pixels hreach, finalScore,
      mul_comm]
    rfl

/-- What is kept of a block of level 1 has the score of the pose that it reports. -/
theorem judgeAll_rates {whole : Block ℝ} {judged : List (Block ℝ × Verdict ℝ)} (hr : r.Formed)
    (hg : r.pyramid.levels[0]? = some g) (htheta : r.rotations[whole.rotation]? = some theta)
    (hc : cache.Faithful r.pyramid.metersPerPixel theta 0) (hrate : r.Ratable cache.points theta)
    (h : r.judgeAll whole 0 Block.quarters cache = .ok (judged, cache')) {b : Block ℝ}
    (hb : b ∈ judged.filterMap r.kept?) : b.bound = .score
      ((r.scorer cache.points g).evaluate (r.reportedPose theta b.x b.y).normalized).score := by
  obtain ⟨-, hmap, hall⟩ := judgeAll_cases
    (fun c => c.points = cache.points ∧ c.Faithful r.pyramid.metersPerPixel theta 0)
    (fun _ _ _ _ _ hP hjudged =>
      ⟨hjudged.points.trans hP.1, hjudged.faithful htheta hP.2⟩) ⟨rfl, hc⟩ h
  obtain ⟨q, -, score, excess, hmem, rfl⟩ := kept_quarter hmap hb
  obtain ⟨c, c', ⟨hpoints, hfaithful⟩, hjudged⟩ := hall _ hmem
  rw [← hpoints] at hrate ⊢
  rw [Engine.boundOf_eq, hjudged.kept_zero hr hg htheta hfaithful hrate]

end Registration

namespace Engine

section

variable {S R : Type} [Scalar R] [Precision S R]

/-- If the block falls into single translations of the registration at the rotation, the set that
they are scored with is the one of this very rotation. -/
def OwnSets (registration rotation : Nat) (e : Engine S R) (whole : Block R) : Prop :=
  whole.registration = registration → whole.rotation = rotation → whole.level = 1 →
    ∀ r cache theta, e.registrations[registration]? = some r → e.caches[r.cache]? = some cache →
      r.rotations[rotation]? = some theta → cache.Faithful r.pyramid.metersPerPixel theta 0

end

variable {S : Type} [Precision S ℝ]

/-- The score of a candidate is the one of the pose that it reports. -/
def Rates (e : Engine S ℝ) (c : Candidate) (score : ℝ) : Prop :=
  ∃ r points theta g, e.registrations[c.registration]? = some r ∧ e.scans[r.cache]? = some points ∧
    r.rotations[c.rotation]? = some theta ∧ r.pyramid.levels[0]? = some g ∧
    (r.Ratable points theta →
      score = ((r.scorer points g).evaluate (r.reportedPose theta c.x c.y).normalized).score)

/-- Of one registration at one rotation, single translations are rated once they are looked at. -/
structure Rated (e : Engine S ℝ) (history : History S ℝ) (registration rotation : Nat) :
    Prop where
  blocks : ∀ b ∈ e.frontier.toList, b.registration = registration → b.rotation = rotation →
    b.level = 0 → e.Rates b.candidate b.bound.value
  returned : ∀ p ∈ history.returned, p.1.registration = registration → p.1.rotation = rotation →
    e.Rates p.1 p.2.score

variable {e e' : Engine S ℝ} {history : History S ℝ} {registration rotation : Nat}

theorem Rates.mono {c : Candidate} {score : ℝ} (h : e.Rates c score) (hk : e.Keeps e')
    (hs : e'.scans = e.scans) : e'.Rates c score := by
  obtain ⟨r, points, theta, g, hr, hpoints, hrates⟩ := h
  exact ⟨r, points, theta, g, hk _ _ hr, by rw [hs, hpoints], hrates⟩

/-- Steps that bring no single translation rate none. -/
theorem Rated.mono (h : e.Rated history registration rotation) (hk : e.Keeps e')
    (hs : e'.scans = e.scans)
    (hf : ∀ b ∈ e'.frontier.toList, b.level = 0 → b ∈ e.frontier.toList)
    (asked : List (Nat × S × ℝ)) : e'.Rated { history with asked } registration rotation := by
  refine ⟨?_, ?_⟩
  · intro b hb hregistration hrotation hl
    exact (h.blocks b (hf b hb hl) hregistration hrotation hl).mono hk hs
  · intro p hp hregistration hrotation
    exact (h.returned p hp hregistration hrotation).mono hk hs

theorem Rated.split {whole : Block ℝ} {rest : Frontier ℝ} {level : Nat}
    (hrun : Run Frontier.Takes e history) (h : e.Rated history registration rotation)
    (ht : e.frontier.Takes whole rest) (hl : whole.level = level + 1)
    (hown : OwnSets registration rotation e whole)
    (he : ({ e with frontier := rest } : Engine S ℝ).expand whole level = .ok e')
    (dropped : List (Block ℝ)) : e'.Rated { history with dropped } registration rotation := by
  obtain ⟨hregistrations, hs⟩ := expand_frame he
  have hk : e.Keeps e' := keeps_of_eq hregistrations
  obtain ⟨r, cache, judged, cache', hr, hc, hj, rfl⟩ := expand_cases he
  obtain ⟨r', hfits, -⟩ := hrun.partitioned.blocks whole (ht.mem_iff.mpr List.mem_cons_self)
  obtain rfl : r = r' := Option.some.inj (hr.symm.trans hfits.registration)
  refine ⟨?_, fun p hp hi hrot => (h.returned p hp hi hrot).mono hk hs⟩
  intro b hb hi hrot h0
  rcases List.mem_append.mp ((Frontier.toList_insertAll rest _).mem_iff.mp hb) with hb | hb
  · obtain ⟨-, hmap, -⟩ := Registration.judgeAll_cases (fun _ => True)
      (fun _ _ _ _ _ _ _ => trivial) trivial hj
    obtain ⟨q, -, score, excess, -, hquarter⟩ := Registration.kept_quarter hmap hb
    subst hquarter
    obtain rfl : level = 0 := h0
    have htheta := Array.getElem?_eq_getElem hfits.rotation_lt
    have hg := Array.getElem?_eq_getElem (Nat.zero_lt_of_lt hfits.level_lt)
    obtain rfl : whole.registration = registration := hi
    obtain rfl : whole.rotation = rotation := hrot
    have hfaithful := hown rfl rfl hl r cache _ hr hc htheta
    refine ⟨r, cache.points, _, _, hr, by rw [hs, scans_get hc], htheta, hg, ?_⟩
    intro hrate
    have := Registration.judgeAll_rates (hrun.admits hr).formed hg htheta hfaithful hrate hj hb
    rw [this]
    rfl
  · have hb := ht.mem_iff.mpr (List.mem_cons_of_mem whole hb)
    exact (h.blocks b hb hi hrot h0).mono hk hs

theorem Rated.report {block : Block ℝ} {rest : Frontier ℝ} {found : Found ℝ}
    (h : e.Rated history registration rotation) (ht : e.frontier.Takes block rest)
    (hl : block.level = 0)
    (hr : ({ e with frontier := rest } : Engine S ℝ).report block = .ok (found, e')) :
    e'.Rated { history with returned := (block.candidate, found) :: history.returned }
      registration rotation := by
  obtain ⟨r, theta, -, -, rfl, rfl⟩ := report_cases hr
  have hk : e.Keeps { e with
      frontier := rest
      stats.resultsReturned := e.stats.resultsReturned + 1 } := keeps_of_eq rfl
  refine ⟨?_, ?_⟩
  · intro b hb hi hrot h0
    have hb := ht.mem_iff.mpr (List.mem_cons_of_mem block hb)
    exact (h.blocks b hb hi hrot h0).mono hk rfl
  · intro p hp hi hrot
    rcases List.mem_cons.mp hp with rfl | hp
    · exact (h.blocks block (ht.mem_iff.mpr List.mem_cons_self) hi hrot hl).mono hk rfl
    · exact (h.returned p hp hi hrot).mono hk rfl

theorem RunIf.rated
    (hrun : RunIf (OwnSets registration rotation) Frontier.Takes e history) :
    e.Rated history registration rotation := by
  induction hrun with
  | start scans => exact ⟨nofun, nofun⟩
  | @add e e' history i pyramid request hrun hi hp ha ih =>
    obtain ⟨r, blocks, rfl, -, hseeds, -⟩ := add_seeds hp ha
    refine ih.mono (add_keeps ha).1 rfl ?_ history.asked
    intro b hb h0
    rcases List.mem_append.mp ((Frontier.toList_insertAll e.frontier _).mem_iff.mp hb) with hb | hb
    · exact absurd h0 (hseeds b hb).2.2.1.ne'
    · exact hb
  | @clear e history i _ ih =>
    have hk : e.Keeps (e.clearCache i) := keeps_of_eq rfl
    exact ih.mono hk (scans_clearCache e i) (fun _ hb _ => hb) history.asked
  | @query e history i cache mpp theta level shared cache' _ hc hq ih =>
    have hk : e.Keeps { e with caches := e.caches.set! i cache' } := keeps_of_eq rfl
    exact ih.mono hk (scans_set hc (ScanCache.get_points hq).1) (fun _ hb _ => hb) _
  | split hrun ht hl hown he ih => exact ih.split hrun.run ht hl hown he _
  | report _ ht hl hr ih => exact ih.report ht hl hr

/-- A reported pose scores what it was found with, so no climb from it ends below that. -/
theorem RunIf.search_and_climb_agree {c : Candidate} {found : Found ℝ}
    (hrun : RunIf (OwnSets c.registration c.rotation) Frontier.Takes e history)
    (hfound : (c, found) ∈ history.returned) {r : Registration S ℝ} {points : Array (Point S)}
    {theta : ℝ} (hr : e.registrations[found.registration]? = some r)
    (hpoints : e.scans[r.cache]? = some points) (htheta : r.rotations[c.rotation]? = some theta)
    (hrate : r.Ratable points theta) :
    ∃ scorer, PoseScorer.ofPyramid points r.pyramid r.request.scale r.request.prior =
        .ok scorer ∧
      (scorer.evaluate found.pose.normalized).score = found.score ∧
      ∀ params, ∃ summit,
        hillClimb points r.pyramid found.pose params r.request.scale r.request.prior =
          .ok summit ∧
        found.score ≤ summit.score ∧ (params.maxIterations = 0 → summit.score = found.score) := by
  obtain ⟨-, hregistration, r₁, theta₁, hr₁, htheta₁, hpose⟩ :=
    hrun.partitioned.returned _ hfound
  obtain ⟨r₂, points₂, theta₂, g, hr₂, hpoints₂, htheta₂, hg, hscore⟩ :=
    hrun.rated.returned _ hfound rfl rfl
  rw [hregistration] at hr
  obtain rfl := Option.some.inj (hr.symm.trans hr₁)
  obtain rfl := Option.some.inj (hr.symm.trans hr₂)
  obtain rfl := Option.some.inj (hpoints.symm.trans hpoints₂)
  obtain rfl := Option.some.inj (htheta.symm.trans htheta₁)
  obtain rfl := Option.some.inj (htheta.symm.trans htheta₂)
  have hscore := hscore hrate
  rw [← hpose] at hscore
  have hscorer := Registration.ofPyramid_eq_ok points hg
  refine ⟨r.scorer points g, hscorer, hscore.symm, ?_⟩
  intro params
  refine ⟨(r.scorer points g).climb found.pose params, ?_, ?_, ?_⟩
  · rw [hillClimb, hscorer]
    rfl
  · rw [hscore]
    exact PoseScorer.le_climb _ _ params
  · intro h0
    rw [PoseScorer.climb_eq _ _ h0, hscore]

end Engine

/-! ### One translation

A request for a single translation, by which a scan of one point falls into the one pixel of a grid.
-/

noncomputable section

/-- One translation at the rotation by one radian. -/
def Request.pinned (scale : ℝ) (prior : Option (Prior ℝ)) : Request ℝ :=
  { Request.ofWindow 0 0 0 0 with rotationMin := 1, rotationMax := 1, scale, prior }

theorem Request.pinned_rotations (scale : ℝ) (prior : Option (Prior ℝ)) :
    (pinned scale prior).rotations = .ok #[1] := by
  unfold rotations pinned
  rw [if_neg (by simp), if_pos (by simp [Arith.isZero])]
  rfl

def pinnedScan : Array (Point ℝ) := #[⟨1, 0⟩]

def pinnedGrid : Grid := Grid.ofFn ⟨1, 1, 0, 0⟩ fun _ _ => 7

theorem pinnedScan_pixel : (⟨1, 0⟩ : Point ℝ).pixel 1 1 = ⟨0, 0⟩ := by
  have hcos : ⌊(Real.cos 1 * 1 - Real.sin 1 * 0) / 1⌋ = 0 := by
    rw [Int.floor_eq_zero_iff]
    have := Real.cos_one_pos
    have := Real.cos_one_le
    constructor <;> linarith
  have hsin : ⌊(Real.sin 1 * 1 + Real.cos 1 * 0) / 1⌋ = 0 := by
    rw [Int.floor_eq_zero_iff]
    have := Real.sin_pos_of_pos_of_lt_pi one_pos (by linarith [Real.pi_gt_three])
    have := Real.sin_lt one_pos
    constructor <;> linarith
  exact congrArg₂ Cell.mk hcos hsin

/-- A registration of the pinned request. -/
structure Registration.Pinned (r : Registration ℝ ℝ) (scale : ℝ) (prior : Option (Prior ℝ)) :
    Prop where
  formed : r.Formed
  request : r.request = Request.pinned scale prior
  metersPerPixel : r.pyramid.metersPerPixel = 1
  levels : r.pyramid.levels[0]? = some pinnedGrid

namespace Registration.Pinned

variable {r : Registration ℝ ℝ} {scale : ℝ} {prior : Option (Prior ℝ)}

theorem rotations (h : r.Pinned scale prior) : r.rotations = #[1] := by
  have := h.formed.rotations
  rw [h.request, Request.pinned_rotations] at this
  exact (Except.ok.inj this).symm

theorem resolution (h : r.Pinned scale prior) : r.resolution = 1 := h.metersPerPixel

theorem pixelsFit (h : r.Pinned scale prior) : r.PixelsFit pinnedScan 1 := by
  intro p hp
  obtain rfl : p = ⟨1, 0⟩ := by simpa [pinnedScan] using hp
  rw [h.resolution, pinnedScan_pixel]
  exact ⟨by decide, by decide⟩

theorem scanPixels (h : r.Pinned scale prior) :
    ScanMatch.scanPixels pinnedScan r.pyramid.metersPerPixel (1 : ℝ) = [⟨0, 0⟩] := by
  rw [scanPixels_eq h.pixelsFit, h.resolution]
  simp [pinnedScan, pinnedScan_pixel]

theorem correlate (h : r.Pinned scale prior) : ∃ cache',
    r.correlate (ScanCache.ofPoints pinnedScan true) 0 0 0 0 = .ok (7, cache') := by
  have htheta : r.rotations[0]? = some 1 := by
    rw [h.rotations]
    rfl
  obtain ⟨shared, cache', hget, -, -, -, hcells⟩ := ScanCache.exists_get
    (ScanCache.ofPoints pinnedScan true) (⟨r.pyramid.metersPerPixel, 1, 0⟩ : Query ℝ ℝ)
    (by simp [ScanCache.ofPoints]) (show 0 < 31 by decide)
    (show pinnedScan.size ≤ 4294967295 by decide)
  have hcells : shared.set.cells = [⟨⟨0, 0⟩, 1⟩] := by
    rw [hcells, Query.pixels]
    change CellSet.group true ((ScanMatch.scanPixels pinnedScan _ (1 : ℝ)).map _) = _
    rw [h.scanPixels]
    simp [CellSet.group, CellSet.tally, Cell.coarsen]
  refine ⟨cache', ?_⟩
  unfold Registration.correlate
  rw [Pyramid.level_eq_ok h.levels, rotation_eq_ok htheta]
  simp only [bind, Except.bind, hget]
  rw [hcells]
  rfl

theorem judge_kept (h : r.Pinned scale prior) : ∃ score cache',
    r.judge (ScanCache.ofPoints pinnedScan true) .unbounded 0 0 0 0 =
      .ok (.kept score none, cache') := by
  have htheta : r.rotations[0]? = some 1 := by
    rw [h.rotations]
    rfl
  obtain ⟨cache', hcorrelate⟩ := h.correlate
  have hpenalty := minPenalty_eq_ok h.formed (by rw [h.resolution]; exact one_pos) htheta 0 0 0
  refine ⟨Arith.ofInt 7 * scale - r.charge 1 0 0 0, cache', ?_⟩
  unfold judge
  rw [h.request, hcorrelate, hpenalty]
  rfl

theorem judge_outside (h : r.Pinned scale prior) (cache : ScanCache ℝ) {x y : ℤ}
    (hxy : (x, y) ∈ [((1 : ℤ), (0 : ℤ)), (0, 1), (1, 1)]) :
    r.judge cache .unbounded 0 0 x y = .ok (.outside, cache) := by
  unfold judge
  rw [h.request]
  simp only [List.mem_cons, Prod.mk.injEq, List.not_mem_nil, or_false] at hxy
  rcases hxy with ⟨rfl, rfl⟩ | ⟨rfl, rfl⟩ | ⟨rfl, rfl⟩ <;> rfl

/-- Of the one block that covers the window, one quarter is kept. -/
theorem judgeAll (h : r.Pinned scale prior) (i : ℕ) : ∃ score cache',
    r.judgeAll ⟨i, 1, 0, 0, 0, .unbounded⟩ 0 Block.quarters (ScanCache.ofPoints pinnedScan true) =
      .ok ([(⟨i, 0, 0, 0, 0, .unbounded⟩, .kept score none),
        (⟨i, 0, 0, 1, 0, .unbounded⟩, .outside), (⟨i, 0, 0, 0, 1, .unbounded⟩, .outside),
        (⟨i, 0, 0, 1, 1, .unbounded⟩, .outside)], cache') := by
  obtain ⟨score, cache', hkept⟩ := h.judge_kept
  have h10 := h.judge_outside cache' (x := 1) (y := 0) (by simp)
  have h01 := h.judge_outside cache' (x := 0) (y := 1) (by simp)
  have h11 := h.judge_outside cache' (x := 1) (y := 1) (by simp)
  refine ⟨score, cache', ?_⟩
  have hint (n : ℤ) (hn : n = 0 ∨ n = 1) : Checked.int32 n = .ok n := by
    rcases hn with rfl | rfl <;> rfl
  simp only [Registration.judgeAll, Block.quarters, bind, Except.bind, pure, Except.pure, mul_zero,
    zero_add, hint, true_or, or_true, hkept, h10, h01, h11]

end Registration.Pinned

theorem Pyramid.exists_pinned : ∃ p : Pyramid ℝ, p.Built ∧ p.numLevels = 2 ∧
    p.metersPerPixel = 1 ∧ p.levels[0]? = some pinnedGrid := by
  have hbuild : build pinnedGrid (1 : ℝ) 2 ≠ .error .overflow := nofun
  obtain ⟨p, hp, hrep⟩ := (ensures_build _ _ (show 1 ≤ 2 by decide)).exists_ok hbuild
  have hlevels : p.numLevels = 2 := hrep.ascend.length
  have hlt : 0 < p.levels.size := by
    unfold numLevels at hlevels
    omega
  have hg := Array.getElem?_eq_getElem hlt
  have hlevel := hrep.ascend.isLevel 0 _ (by rwa [Array.getElem?_toList])
  refine ⟨p, ⟨_, _, _, Or.inl hp⟩, hlevels, hrep.metersPerPixel, ?_⟩
  rw [hg, hlevel.unique pinnedGrid.isLevel_zero]

theorem Frontier.pop?_single {R : Type} [Scalar R] (b : Block R) :
    (Frontier.empty.insertAll [b]).pop? = some (b, .empty) := by
  simp [insertAll, insert, merge, pop?]

namespace Engine

theorem add_pinned (e : Engine ℝ ℝ) {p : Pyramid ℝ} (hn : p.numLevels = 2)
    (hmpp : p.metersPerPixel = 1) (hg : p.levels[0]? = some pinnedGrid) (scale : ℝ)
    (prior : Option (Prior ℝ)) : ∃ r, r.Pinned scale prior ∧ r.cache = 0 ∧
      e.add 0 p (Request.pinned scale prior) = .ok { e with
        registrations := e.registrations.push r
        frontier := e.frontier.insertAll [⟨e.registrations.size, 1, 0, 0, 0, .unbounded⟩] } := by
  let r : Registration ℝ ℝ := ⟨0, p, Request.pinned scale prior, #[1],
    prior.map fun prior => #[1].map prior.condition⟩
  have hrotations := Request.pinned_rotations scale prior
  have hr : Registration.ofRequest 0 p (Request.pinned scale prior) = .ok r := by
    rw [Registration.ofRequest, hrotations]
    rfl
  refine ⟨r, ⟨⟨hrotations, rfl⟩, rfl, hmpp, hg⟩, rfl, ?_⟩
  unfold add
  rw [hn, hr]
  rfl

/-- The scan before any of its sets was asked for. -/
noncomputable def pinnedCache : ScanCache ℝ := ScanCache.ofPoints pinnedScan true

/-- The one block that covers the window. -/
def pinnedBlock : Block ℝ := ⟨0, 1, 0, 0, 0, .unbounded⟩

/-- A search for one translation, before it begins. -/
theorem exists_added_pinned (scale : ℝ) (prior : Option (Prior ℝ)) :
    ∃ (p : Pyramid ℝ) (e : Engine ℝ ℝ) (r : Registration ℝ ℝ), p.Built ∧ p.numLevels = 2 ∧
      (ofCaches #[pinnedCache]).add 0 p (Request.pinned scale prior) = .ok e ∧
      r.Pinned scale prior ∧ e.registrations[0]? = some r ∧
      e.caches[r.cache]? = some pinnedCache ∧ e.frontier.pop? = some (pinnedBlock, .empty) := by
  obtain ⟨p, hbuilt, hn, hmpp, hg⟩ := Pyramid.exists_pinned
  obtain ⟨r, hpinned, hcache, hadd⟩ :=
    add_pinned (ofCaches #[pinnedCache]) hn hmpp hg scale prior
  refine ⟨p, _, r, hbuilt, hn, hadd, hpinned, rfl, ?_, Frontier.pop?_single _⟩
  rw [hcache]
  rfl

/-- Of the one block, one translation is left. -/
theorem expand_pinned {e : Engine ℝ ℝ} {r : Registration ℝ ℝ} {scale : ℝ}
    {prior : Option (Prior ℝ)} (h : r.Pinned scale prior) (hr : e.registrations[0]? = some r)
    (hc : e.caches[r.cache]? = some pinnedCache) : ∃ bound e',
      ({ e with frontier := .empty } : Engine ℝ ℝ).expand pinnedBlock 0 = .ok e' ∧
        e'.frontier.pop? = some (⟨0, 0, 0, 0, 0, bound⟩, .empty) := by
  obtain ⟨score, cache, hjudged⟩ := h.judgeAll 0
  rw [expand_eq (e := { e with frontier := .empty }) hr hc 0, pinnedBlock, pinnedCache, hjudged]
  exact ⟨r.boundOf score, _, rfl, Frontier.pop?_single _⟩

/-- A search that returns its one translation. -/
theorem RunIf.exists_pinned (scale : ℝ) (prior : Option (Prior ℝ)) :
    ∃ (e : Engine ℝ ℝ) (history : History ℝ ℝ) (found : Found ℝ) (r : Registration ℝ ℝ),
      RunIf (OwnSets 0 0) Frontier.Takes e history ∧ (⟨0, 0, 0, 0⟩, found) ∈ history.returned ∧
      found.registration = 0 ∧ e.registrations[0]? = some r ∧ r.Pinned scale prior ∧
      e.scans[r.cache]? = some pinnedScan := by
  obtain ⟨p, e, r, hbuilt, -, hadd, hpinned, hr, hc, hpop⟩ := exists_added_pinned scale prior
  have hstart : RunIf (OwnSets 0 0) Frontier.Takes (ofCaches #[pinnedCache] : Engine ℝ ℝ)
      ⟨[], [], []⟩ := RunIf.start [(pinnedScan, true)]
  have hrun := hstart.add Nat.zero_lt_one hbuilt hadd
  have hown : OwnSets 0 0 e pinnedBlock := by
    intro _ _ _ r' cache' theta' hr' hc' _
    obtain rfl := Option.some.inj (hr.symm.trans hr')
    obtain rfl := Option.some.inj (hc.symm.trans hc')
    exact ScanCache.faithful_of_empty rfl _ _ _
  -- the block is split, and the translation that is kept is reported
  obtain ⟨bound, e₁, hexpand, hpop₁⟩ := expand_pinned hpinned hr hc
  obtain ⟨hregistrations, hscans⟩ := expand_frame hexpand
  have hr₁ : e₁.registrations[0]? = some r := by rw [hregistrations, hr]
  have htheta : r.rotations[0]? = some 1 := by
    rw [hpinned.rotations]
    rfl
  obtain ⟨⟨found, e₂⟩, hreport⟩ : ∃ out,
      ({ e₁ with frontier := .empty } : Engine ℝ ℝ).report ⟨0, 0, 0, 0, 0, bound⟩ = .ok out :=
    report_ok hr₁ htheta
  have hdone := (hrun.split (Frontier.toList_pop? hpop) rfl hown hexpand).report
    (Frontier.toList_pop? hpop₁) rfl hreport
  obtain ⟨r', theta, -, -, rfl, rfl⟩ := report_cases hreport
  refine ⟨_, _, _, r, hdone, List.mem_cons_self, rfl, hr₁, hpinned, ?_⟩
  have hscan : e₁.scans[r.cache]? = some pinnedScan := by
    rw [hscans]
    exact scans_get (e := e) hc
  exact hscan

/-- A translation found under a prior that ties all coordinates, at a rotation by one radian. -/
theorem RunIf.search_and_climb_agree_pinned :
    ∃ (e : Engine ℝ ℝ) (history : History ℝ ℝ) (c : Candidate) (found : Found ℝ)
      (r : Registration ℝ ℝ) (points : Array (Point ℝ)) (theta : ℝ),
      RunIf (OwnSets c.registration c.rotation) Frontier.Takes e history ∧
      (c, found) ∈ history.returned ∧ e.registrations[found.registration]? = some r ∧
      e.scans[r.cache]? = some points ∧ r.rotations[c.rotation]? = some theta ∧
      r.Ratable points theta ∧ r.request.prior = some Registration.slantedPrior ∧
      ∃ scorer, PoseScorer.ofPyramid points r.pyramid r.request.scale r.request.prior =
          .ok scorer ∧
        (scorer.evaluate found.pose.normalized).score = found.score ∧
        ∀ params, ∃ summit,
          hillClimb points r.pyramid found.pose params r.request.scale r.request.prior =
            .ok summit ∧
          found.score ≤ summit.score ∧
          (params.maxIterations = 0 → summit.score = found.score) := by
  obtain ⟨e, history, found, r, hrun, hfound, hregistration, hr, hpinned, hscan⟩ :=
    RunIf.exists_pinned 2 (some Registration.slantedPrior)
  have hr : e.registrations[found.registration]? = some r := by rw [hregistration, hr]
  have htheta : r.rotations[0]? = some 1 := by
    rw [hpinned.rotations]
    rfl
  obtain ⟨hadmissible, hconditioned⟩ := Registration.slantedPrior_admissible
  have hprior : r.request.prior = some Registration.slantedPrior := by
    rw [hpinned.request]
    rfl
  have hrate : r.Ratable pinnedScan 1 := by
    refine ⟨by rw [hpinned.resolution]; exact one_pos, ?_, hpinned.pixelsFit⟩
    intro prior hp
    obtain rfl := Option.some.inj (hprior.symm.trans hp)
    exact ⟨hadmissible.information, hconditioned⟩
  exact ⟨e, history, ⟨0, 0, 0, 0⟩, found, r, pinnedScan, 1, hrun, hfound, hr, hscan, htheta, hrate,
    hprior, hrun.search_and_climb_agree hfound hr hscan htheta hrate⟩

end Engine

end

end ScanMatch
