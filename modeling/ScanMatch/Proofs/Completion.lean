import ScanMatch.Proofs.CacheHistory
import ScanMatch.Proofs.Climbing
import ScanMatch.Proofs.Draining
import ScanMatch.Proofs.Ranges

/-! # Searches in range complete

A block that meets its window lies near it, and so do its quarters. In exact arithmetic nothing
but an overflow can stop a search, and with the scan, the grid and the window near the origin no
integer overflows.
-/
namespace ScanMatch

open Checked (Contained InInt32)

theorem Block.quarter_offset {q : Int × Int} (hq : q ∈ quarters) :
    (0 ≤ q.1 ∧ q.1 ≤ 1) ∧ 0 ≤ q.2 ∧ q.2 ≤ 1 := by
  simp only [quarters, List.mem_cons, List.not_mem_nil, or_false] at hq
  rcases hq with rfl | rfl | rfl | rfl <;> decide

/-- The block and the window have a translation in common along each axis. -/
structure Registration.Touches {S R : Type} (r : Registration S R) (b : Block R) : Prop where
  x1 : b.x * 2 ^ b.level ≤ r.request.tx1
  x0 : r.request.tx0 ≤ b.x * 2 ^ b.level + 2 ^ b.level - 1
  y1 : b.y * 2 ^ b.level ≤ r.request.ty1
  y0 : r.request.ty0 ≤ b.y * 2 ^ b.level + 2 ^ b.level - 1

namespace Engine

section

variable {S R : Type} [Scalar R] [Precision S R] {e e' : Engine S R} {history : History S R}

omit [Scalar R] [Precision S R] in
theorem mem_covering_touches {b t0 t1 : Int} {level : Nat}
    (h : t0 / 2 ^ level ≤ b ∧ b ≤ t1 / 2 ^ level) :
    b * 2 ^ level ≤ t1 ∧ t0 ≤ b * 2 ^ level + 2 ^ level - 1 := by
  have hd : (0 : Int) < 2 ^ level := by positivity
  have hlow := Int.lt_ediv_add_one_mul_self t0 hd
  have hhigh := (Int.le_ediv_iff_mul_le hd).mp h.2
  have hmul := mul_le_mul_of_nonneg_right h.1 hd.le
  constructor
  · exact hhigh
  · linarith

omit [Scalar R] [Precision S R] in
theorem seeds_touch {i level : Nat} {r : Registration S R} {blocks : List (Block R)}
    (hl : level < 31) (h : seeds i r level = .ok blocks) {b : Block R} (hb : b ∈ blocks) :
    b.registration = i ∧ r.Touches b := by
  obtain ⟨d, hd, h⟩ := Checked.bind_eq_ok h
  obtain ⟨ys, hys, h⟩ := Checked.bind_eq_ok h
  obtain ⟨xs, hxs, h⟩ := Checked.bind_eq_ok h
  cases h
  obtain rfl : (2 : Int) ^ level = d := Except.ok.inj ((Checked.cellSide_of_lt hl).symm.trans hd)
  obtain ⟨rotation, -, hb⟩ := List.mem_flatMap.mp hb
  obtain ⟨y, hy, hb⟩ := List.mem_flatMap.mp hb
  obtain ⟨x, hx, rfl⟩ := List.mem_map.mp hb
  obtain ⟨hx1, hx0⟩ := mem_covering_touches (((Block.covering_cases hxs).2 x).mp hx)
  obtain ⟨hy1, hy0⟩ := mem_covering_touches (((Block.covering_cases hys).2 y).mp hy)
  exact ⟨rfl, hx1, hx0, hy1, hy0⟩

/-- Every block on the frontier meets the window of its registration. -/
def Near (e : Engine S R) : Prop :=
  ∀ b ∈ e.frontier.toList, ∃ r, e.registrations[b.registration]? = some r ∧ r.Touches b

theorem Near.split (h : e.Near) {whole : Block R} {rest : Frontier R} {level : Nat}
    (hlevel : level < 31) (ht : e.frontier.Takes whole rest)
    (he : { e with frontier := rest }.expand whole level = .ok e') : e'.Near := by
  obtain ⟨r, cache, judged, cache', hr, hc, hj, rfl⟩ := expand_cases he
  obtain ⟨-, hmap, hall⟩ := Registration.judgeAll_cases (fun _ => True)
    (fun _ _ _ _ _ _ _ => trivial) trivial hj
  intro b hb
  rcases List.mem_append.mp ((Frontier.toList_insertAll rest _).mem_iff.mp hb) with hb | hb
  · obtain ⟨q, hq, score, excess, hmem, rfl⟩ := Registration.kept_quarter hmap hb
    refine ⟨r, hr, ?_⟩
    obtain ⟨c, c', -, hjudged⟩ := hall _ hmem
    cases hjudged with
    | kept hd hy hx =>
      obtain rfl := Except.ok.inj ((Checked.cellSide_of_lt hlevel).symm.trans hd)
      obtain ⟨hx1, hx0⟩ := (Block.meets_cases hx).mp rfl
      obtain ⟨hy1, hy0⟩ := (Block.meets_cases hy).mp rfl
      exact ⟨hx1, hx0, hy1, hy0⟩
  · exact h b (ht.mem_iff.mpr (List.mem_cons_of_mem whole hb))

theorem Run.near (hrun : Run Frontier.Takes e history) : e.Near := by
  induction hrun with
  | start scans => nofun
  | @add e e' history i pyramid request hrun hi hp ha ih =>
    obtain ⟨hk, -⟩ := add_keeps ha
    obtain ⟨level, d, r, blocks, -, -, hn, hlevel, -, -, hblocks, rfl⟩ := add_cases ha
    obtain ⟨base, hbase⟩ := hp.summarizes
    have hlt := Registration.startLevel_cases hlevel (by omega)
    have hlevels : level < pyramid.levels.size := by
      rw [Pyramid.numLevels] at hn hlt
      omega
    have := (hbase level _ (Array.getElem?_eq_getElem hlevels)).1
    intro b hb
    rcases List.mem_append.mp ((Frontier.toList_insertAll e.frontier _).mem_iff.mp hb) with hb | hb
    · obtain ⟨hregistration, htouch⟩ := seeds_touch (by omega) hblocks hb
      refine ⟨r, ?_, htouch⟩
      rw [hregistration]
      exact Array.getElem?_push_size
    · obtain ⟨r', hr', htouch⟩ := ih b hb
      exact ⟨r', hk _ _ hr', htouch⟩
  | clear i _ ih => exact ih
  | query _ _ _ ih => exact ih
  | @split e e' history whole rest level hrun ht hl _ he ih =>
    obtain ⟨r, hfits, -⟩ := hrun.partitioned.blocks whole (ht.mem_iff.mpr List.mem_cons_self)
    obtain ⟨base, hbase⟩ := (hrun.admits hfits.registration).built.summarizes
    have := (hbase whole.level _ (Array.getElem?_eq_getElem hfits.level_lt)).1
    exact ih.split (by omega) ht he
  | report _ ht _ hr ih =>
    obtain ⟨r, theta, -, -, -, rfl⟩ := report_cases hr
    exact fun b hb => ih b (ht.mem_iff.mpr (List.mem_cons_of_mem _ hb))

end

end Engine

/-- The cell is at most 2^28 cells from the origin along each axis. -/
structure Cell.Moderate (c : Cell) : Prop where
  x : -268435456 ≤ c.x ∧ c.x ≤ 268435456
  y : -268435456 ≤ c.y ∧ c.y ≤ 268435456

/-- Grid, window and turned scan are near the origin, and the scan has fewer than 2^32 points. -/
structure Registration.InRange {S R : Type} [Scalar R] [Precision S R] (r : Registration S R)
    (points : Array (Point S)) : Prop where
  built : ∃ (base : Grid) (n : Nat), base.toFrame.Moderate ∧ 1 ≤ n ∧
    Pyramid.build base r.pyramid.metersPerPixel n = .ok r.pyramid
  window : r.request.Within 268435456
  size : points.size ≤ 4294967295
  pixels : ∀ theta ∈ r.rotations, ∀ c ∈ scanPixels points r.pyramid.metersPerPixel theta,
    c.Moderate

namespace Registration

section

variable {S R : Type} [Scalar R] [Precision S R] {r : Registration S R} {cache : ScanCache S}

theorem InRange.origin {points : Array (Point S)} (h : r.InRange points) {level : Nat} {g : Grid}
    (hg : r.pyramid.levels[level]? = some g) : level < 30 ∧
      (-268435458 ≤ g.x0.tdiv (2 ^ level) ∧ g.x0.tdiv (2 ^ level) ≤ 268435456) ∧
      (-268435458 ≤ g.y0.tdiv (2 ^ level) ∧ g.y0.tdiv (2 ^ level) ≤ 268435456) := by
  obtain ⟨base, n, hbase, hn, hbuild⟩ := h.built
  have hascend := ((Pyramid.ensures_build base _ hn).of_ok hbuild).ascend
  have hlevel := hascend.isLevel level g (by rwa [Array.getElem?_toList])
  rw [zero_add] at hlevel
  have hframe := hlevel.frame
  split at hframe
  · next h0 =>
    have hx := hbase.x0
    have hy := hbase.y0
    rw [h0, hframe, pow_zero, Int.tdiv_one, Int.tdiv_one]
    omega
  · have hcoarse := (Frame.ensures_coarse base.toFrame level).of_ok hframe
    have hd : (0 : Int) < 2 ^ level := by positivity
    have hx := ediv_mem hd (by decide) hbase.x0
    have hy := ediv_mem hd (by decide) hbase.y0
    rw [Int.tdiv_eq_ediv_of_dvd hcoarse.dvd_x0, Int.tdiv_eq_ediv_of_dvd hcoarse.dvd_y0, hcoarse.x0,
      hcoarse.y0, Frame.coarseOrigin_ediv hd, Frame.coarseOrigin_ediv hd]
    have := hcoarse.level_lt
    omega

theorem contained_get {cache : ScanCache S} (hsize : cache.points.size ≤ 4294967295)
    (metersPerPixel : S) (theta : R) {level : Nat} (hlevel : level < 31) :
    Contained (cache.get metersPerPixel theta level) := by
  rw [ScanCache.get]
  dsimp only
  split
  · exact Checked.contained_ok _
  · rw [CellSet.quantize_eq_ok _ _ _ _ hlevel hsize]
    exact Checked.contained_ok _

/-- What stops a correlation of fewer than 2^32 points is a cell that the offset moves too far. -/
theorem exists_correlate_iff {i level : Nat} {g : Grid} {theta : R} {x y : Int}
    (hg : r.pyramid.levels[level]? = some g) (hlevel : level < 31)
    (htheta : r.rotations[i]? = some theta)
    (hc : cache.Faithful r.pyramid.metersPerPixel theta level)
    (hsize : cache.points.size ≤ 4294967295) (hx : InInt32 (x - g.x0.tdiv (2 ^ level)))
    (hy : InInt32 (y - g.y0.tdiv (2 ^ level))) :
    (∃ out, r.correlate cache i level x y = .ok out) ↔
      ∀ c ∈ (scanPixels cache.points r.pyramid.metersPerPixel theta).map (Cell.coarsen (2 ^ level)),
        Lands (x - g.x0.tdiv (2 ^ level)) (y - g.y0.tdiv (2 ^ level)) c := by
  obtain ⟨⟨shared, cache'⟩, hget, hcells⟩ :=
    (hc.ensures_get hlevel).exists_ok (contained_get hsize _ theta hlevel)
  have hlength : ((scanPixels cache.points r.pyramid.metersPerPixel theta).map
      (Cell.coarsen (2 ^ level))).length ≤ 4294967295 := by
    simpa [scanPixels] using hsize
  rw [← weightedSum_group_iff g _ _ cache.merge hlength, ← hcells, correlate,
    Pyramid.level_eq_ok hg, rotation_eq_ok htheta]
  simp only [bind, Except.bind, hget, Checked.cellSide_of_lt hlevel, Checked.int32_of_mem hx,
    Checked.int32_of_mem hy]
  cases weightedSum g _ _ shared.set.cells with
  | ok n => simp [pure, Except.pure]
  | error f => simp

/-- At full resolution a scan of which no pixel is moved out of range scores what lies under it. -/
theorem correlate_finest {i : Nat} {g : Grid} {theta : R} {x y : Int} {pixels : List Cell}
    (hg : r.pyramid.levels[0]? = some g) (htheta : r.rotations[i]? = some theta)
    (hc : cache.Faithful r.pyramid.metersPerPixel theta 0)
    (hsize : cache.points.size ≤ 4294967295)
    (hpixels : scanPixels cache.points r.pyramid.metersPerPixel theta = pixels)
    (hx : InInt32 (x - g.x0)) (hy : InInt32 (y - g.y0))
    (hlands : ∀ c ∈ pixels, Lands (x - g.x0) (y - g.y0) c) :
    ∃ cache', r.correlate cache i 0 x y = .ok (rawScore g (2 ^ 0) pixels x y, cache') := by
  subst hpixels
  have horigin (o : Int) : o.tdiv (2 ^ 0) = o := by rw [pow_zero, Int.tdiv_one]
  have hcompletes := exists_correlate_iff (x := x) (y := y) hg (by decide) htheta hc hsize
    (by rwa [horigin]) (by rwa [horigin])
  rw [Cell.map_coarsen_zero, horigin, horigin] at hcompletes
  obtain ⟨⟨n, cache'⟩, hout⟩ := hcompletes.mpr hlands
  obtain rfl := (ensures_correlate x y hg (Grid.summarizes_self g) (by decide) htheta hc).of_ok hout
  exact ⟨cache', hout⟩

/-- A block whose indices are within 2^30 moves no point out of range. -/
theorem contained_correlate (h : r.InRange cache.points) {i level : Nat} {x y : Int}
    (hx : -1610612736 ≤ x ∧ x ≤ 1073741824) (hy : -1610612736 ≤ y ∧ y ≤ 1073741824)
    (hc : ∀ theta, r.rotations[i]? = some theta →
      cache.Faithful r.pyramid.metersPerPixel theta level) :
    Contained (r.correlate cache i level x y) := by
  cases hg : r.pyramid.levels[level]? with
  | none =>
    rw [correlate, Pyramid.level, hg]
    exact Checked.contained_error (by decide)
  | some g =>
  cases htheta : r.rotations[i]? with
  | none =>
    rw [correlate, Pyramid.level_eq_ok hg, rotation, htheta]
    exact Checked.contained_error (by decide)
  | some theta =>
  obtain ⟨hlevel, hx0, hy0⟩ := h.origin hg
  obtain ⟨out, hout⟩ := (exists_correlate_iff hg (by omega) htheta (hc theta htheta) h.size
    (x := x) (y := y) (by constructor <;> omega) (by constructor <;> omega)).mpr (by
      intro c hc
      obtain ⟨pixel, hpixel, rfl⟩ := List.mem_map.mp hc
      have hmoderate := h.pixels theta (Array.mem_of_getElem? htheta) pixel hpixel
      have hd : (0 : Int) < 2 ^ level := by positivity
      have hpx := ediv_mem hd (by decide) hmoderate.x
      have hpy := ediv_mem hd (by decide) hmoderate.y
      simp only [Lands, InInt32, Cell.coarsen]
      omega)
  exact Checked.contained_of_ok hout

theorem contained_minPenalty (r : Registration S R) (i level : Nat) (x y : Int) :
    Contained (r.minPenalty i level x y) := by
  rw [minPenalty]
  split
  · exact Checked.contained_ok _
  · dsimp only
    split
    · exact Checked.contained_error (by decide)
    · apply Contained.bind
      · apply Contained.bind
        · exact Checked.contained_require _ (by decide)
        · exact fun _ _ => Checked.contained_ok _
      · exact fun _ _ => Checked.contained_ok _

omit [Precision S R] in
theorem contained_boundExcess (whole : Bound R) (score : R) :
    Contained (boundExcess whole score) := by
  rw [boundExcess]
  split
  · exact Checked.contained_ok _
  · dsimp only
    split
    · exact Checked.contained_ok _
    · exact Checked.contained_error (by decide)

theorem contained_judge (h : r.InRange cache.points) {whole : Bound R} {i level : Nat} {x y : Int}
    (hlevel : level < 30)
    (hx : -1610612736 ≤ x * 2 ^ level ∧ x * 2 ^ level ≤ 1073741824)
    (hy : -1610612736 ≤ y * 2 ^ level ∧ y * 2 ^ level ≤ 1073741824)
    (hc : ∀ theta, r.rotations[i]? = some theta →
      cache.Faithful r.pyramid.metersPerPixel theta level) :
    Contained (r.judge cache whole i level x y) := by
  have hd := pow_level_mem hlevel
  rw [judge, Checked.cellSide_of_lt (by omega)]
  refine (Block.contained_meets hd hy).bind ?_
  intro inY _
  cases inY with
  | false => exact Checked.contained_ok _
  | true =>
  refine (Block.contained_meets hd hx).bind ?_
  intro inX _
  cases inX with
  | false => exact Checked.contained_ok _
  | true =>
  have hx' : -1610612736 ≤ x ∧ x ≤ 1073741824 := by
    constructor <;> nlinarith
  have hy' : -1610612736 ≤ y ∧ y ≤ 1073741824 := by
    constructor <;> nlinarith
  refine (contained_correlate h hx' hy' hc).bind ?_
  rintro ⟨raw, cache'⟩ -
  dsimp only
  split
  all_goals
    split
    · exact Checked.contained_ok _
    · refine (r.contained_minPenalty i level x y).bind fun penalty _ => ?_
      refine (contained_boundExcess whole _).bind fun excess _ => ?_
      exact Checked.contained_ok _

/-- The quarters of a block that meets the window keep near it. -/
theorem contained_judgeAll {P : ScanCache S → Prop} {whole : Block R} {level : Nat}
    (quarters : List (Int × Int))
    (hplace : ∀ q ∈ quarters, InInt32 (2 * whole.x) ∧ InInt32 (2 * whole.x + q.1) ∧
      InInt32 (2 * whole.y) ∧ InInt32 (2 * whole.y + q.2))
    (hjudge : ∀ q ∈ quarters, ∀ cache, P cache →
      Contained (r.judge cache whole.bound whole.rotation level (2 * whole.x + q.1)
        (2 * whole.y + q.2)) ∧
      ∀ out, r.judge cache whole.bound whole.rotation level (2 * whole.x + q.1)
        (2 * whole.y + q.2) = .ok out → P out.2) :
    ∀ cache, P cache → Contained (r.judgeAll whole level quarters cache) := by
  induction quarters with
  | nil => exact fun cache _ => Checked.contained_ok ([], cache)
  | cons q quarters ih =>
    intro cache hP
    have ih := ih (fun q' hq' => hplace q' (List.mem_cons_of_mem q hq'))
      fun q' hq' => hjudge q' (List.mem_cons_of_mem q hq')
    obtain ⟨hx₀, hx, hy₀, hy⟩ := hplace q List.mem_cons_self
    obtain ⟨hcontained, hkeep⟩ := hjudge q List.mem_cons_self cache hP
    rw [judgeAll]
    refine Contained.bind_int32 hx₀ ?_
    refine Contained.bind_int32 hx ?_
    refine Contained.bind_int32 hy₀ ?_
    refine Contained.bind_int32 hy ?_
    refine hcontained.bind ?_
    rintro ⟨verdict, cache₁⟩ hout
    refine (ih cache₁ (hkeep _ hout)).bind ?_
    exact fun _ _ => Checked.contained_ok _

omit [Scalar R] [Precision S R] in
/-- Along one axis, where a quarter of a block lies that meets a window near the origin. -/
theorem quarter_mem {b t0 t1 dx : Int} {level : Nat} (hlevel : level + 1 < 30)
    (ht0 : -268435456 ≤ t0) (ht1 : t1 ≤ 268435456) (h1 : b * 2 ^ (level + 1) ≤ t1)
    (h0 : t0 ≤ b * 2 ^ (level + 1) + 2 ^ (level + 1) - 1) (hdx : 0 ≤ dx ∧ dx ≤ 1) :
    (-1610612736 ≤ (2 * b + dx) * 2 ^ level ∧ (2 * b + dx) * 2 ^ level ≤ 1073741824) ∧
      InInt32 (2 * b) ∧ InInt32 (2 * b + dx) := by
  obtain ⟨hone, -⟩ := pow_level_mem (show level < 30 by omega)
  obtain ⟨-, hhigh⟩ := pow_level_mem hlevel
  rw [pow_succ] at h1 h0 hhigh
  have hwhole : b * (2 ^ level * 2) = 2 * b * 2 ^ level := by ring
  rw [hwhole] at h1 h0
  have hsplit : (2 * b + dx) * 2 ^ level = 2 * b * 2 ^ level + dx * 2 ^ level := by ring
  have hdx0 : 0 ≤ dx * 2 ^ level := by nlinarith
  have hdx1 : dx * 2 ^ level ≤ 2 ^ level := by nlinarith
  have hb : -1073741824 ≤ 2 * b ∧ 2 * b ≤ 1073741824 := by
    constructor <;> nlinarith
  refine ⟨?_, ?_, ?_⟩
  · rw [hsplit]
    constructor <;> linarith
  · constructor <;> linarith
  · constructor <;> linarith

end

end Registration

/-- What can be asked for: a window near the origin, and one rotation or at most 2^32. -/
structure Request.Searchable (request : Request ℝ) : Prop where
  window : request.Within 268435456
  ordered : request.rotationMin ≤ request.rotationMax
  sampled : request.rotationMin = request.rotationMax ∨ 0 < request.rotationStep ∧
    ⌊(request.rotationMax - request.rotationMin) / request.rotationStep + 1e-9⌋ + 1 ≤ 2 ^ 32

theorem Request.Searchable.exists_rotations {request : Request ℝ} (h : request.Searchable) :
    ∃ rotations, request.rotations = .ok rotations := by
  obtain hsingle | hrange := h.ordered.eq_or_lt
  · exact ⟨_, rotations_single hsingle⟩
  · obtain heq | ⟨hstep, hcount⟩ := h.sampled
    · exact absurd heq hrange.ne
    · refine ⟨_, rotations_eq hrange hstep ?_⟩
      rw [stepsIn]
      omega

namespace Engine

variable {S : Type} [Precision S ℝ] {e e' : Engine S ℝ} {history : History S ℝ}

/-- Every registration of the engine is in range, with the scan that it is on. -/
def InRange (e : Engine S ℝ) : Prop :=
  ∀ (i : ℕ) (r : Registration S ℝ), e.registrations[i]? = some r →
    ∀ points, e.scans[r.cache]? = some points → r.InRange points

theorem InRange.of_frame (h : e.InRange) (hr : e'.registrations = e.registrations)
    (hs : e'.scans = e.scans) : e'.InRange := by
  intro i r
  rw [hr, hs]
  exact h i r

theorem WellPosed.of_resumes {history' : History S ℝ} (h : e.WellPosed history)
    (hr : Resumes Frontier.Takes e history e' history') : e'.WellPosed history' :=
  h.of_keeps (keeps_of_eq hr.registrations.symm) (by rw [hr.asked]; exact fun _ hmem => hmem)

theorem contained_expand (hrun : Run Frontier.Takes e history) (hp : e.WellPosed history)
    (hrange : e.InRange) {whole : Block ℝ} {rest : Frontier ℝ} {level : ℕ}
    (ht : e.frontier.Takes whole rest) (hl : whole.level = level + 1) :
    Contained (({ e with frontier := rest } : Engine S ℝ).expand whole level) := by
  have hmem := ht.mem_iff.mpr List.mem_cons_self
  obtain ⟨v, cache, hc, hanswerable, hbound⟩ := (hrun.bounded hp).exists_view hmem
  obtain ⟨r, hr, htouch⟩ := hrun.near whole hmem
  obtain rfl : v.r = r := Option.some.inj (v.registration_eq.symm.trans hr)
  have hrange := hrange _ _ hr _ v.points_eq
  obtain ⟨hlevel, -, -⟩ := hrange.origin v.grid_eq
  rw [hl] at hlevel
  have hplace (q : ℤ × ℤ) (hq : q ∈ Block.quarters) := And.intro
    (Registration.quarter_mem hlevel hrange.window.x0 hrange.window.x1 (hl ▸ htouch.x1)
      (hl ▸ htouch.x0) (Block.quarter_offset hq).1)
    (Registration.quarter_mem hlevel hrange.window.y0 hrange.window.y1 (hl ▸ htouch.y1)
      (hl ▸ htouch.y0) (Block.quarter_offset hq).2)
  rw [expand_eq (e := { e with frontier := rest }) hr hc level]
  apply Contained.map
  apply Registration.contained_judgeAll (P := v.Answerable history) Block.quarters
  · intro q hq
    obtain ⟨⟨-, hx⟩, -, hy⟩ := hplace q hq
    exact ⟨hx.1, hx.2, hy.1, hy.2⟩
  · intro q hq cache hcache
    obtain ⟨⟨hx, -⟩, hy, -⟩ := hplace q hq
    have hinside := Block.quarter_inside hl hq
    have hfaithful (theta : ℝ) (htheta : v.r.rotations[whole.rotation]? = some theta) :
        cache.Faithful v.r.pyramid.metersPerPixel theta level := by
      have hquery : e.Queries history v.r.cache v.r.pyramid.metersPerPixel theta :=
        Or.inl ⟨_, v.r, v.registration_eq, rfl, rfl, Array.mem_of_getElem? htheta⟩
      exact hcache.1.faithful (fun _ _ hq => hp.distinguished _ _ _ _ _ hquery hq) level
    constructor
    · apply Registration.contained_judge _ (by omega) hx hy hfaithful
      rw [hcache.2]
      exact hrange
    · intro out hout
      have hscore := (View.inside_le hrun v (v.inner hinside) hinside).2 hp
      have hjudge := View.ensures_judge hrun hp (v.inner hinside)
        (fun s hs => hscore.trans (hbound s hs).ge) hcache
      exact (hjudge.of_ok hout).1
  · exact hanswerable

/-- Nothing stops the request for a next translation. -/
theorem Next.completes {out : Checked (Option (Found ℝ) × Engine S ℝ)}
    (h : Next Frontier.Takes e out) : ∀ {history : History S ℝ}, Run Frontier.Takes e history →
      e.WellPosed history → e.InRange → ∃ found e', out = .ok (found, e') := by
  induction h with
  | drained => exact fun _ _ _ => ⟨_, _, rfl⟩
  | report => exact fun _ _ _ => ⟨_, _, rfl⟩
  | @reportFault e block rest f ht hl hfault =>
    intro history hrun hp _
    obtain ⟨v, -⟩ := (hrun.bounded hp).blocks block (ht.mem_iff.mpr List.mem_cons_self)
    have hr : ({ e with frontier := rest } : Engine S ℝ).registrations[block.registration]? =
        some v.r := v.registration_eq
    obtain ⟨out, hok⟩ := report_ok hr v.theta_eq
    rw [hok] at hfault
    cases hfault
  | @split e e' whole rest level out ht hl he _ ih =>
    intro history hrun hp hrange
    obtain ⟨hregistrations, hscans⟩ := expand_frame he
    have hp' := hp.of_keeps (keeps_of_eq hregistrations.symm) fun _ hmem => hmem
    exact ih (hrun.split ht hl trivial he)
      ⟨hp'.resolution_pos, hp'.scale_nonneg, hp'.admissible, hp'.distinguished⟩
      (hrange.of_frame hregistrations hscans)
  | @splitFault e whole rest level f ht hl hfault =>
    intro history hrun hp hrange
    have hcontained := contained_expand hrun hp hrange ht hl
    obtain ⟨e', hok, -⟩ :=
      (ensures_expand hrun (hrun.bounded hp) hp ht hl).exists_ok hcontained
    rw [hok] at hfault
    cases hfault

/-- So many answers can be asked for as one likes. -/
theorem takeOnto_completes (n : ℕ) : ∀ {e : Engine S ℝ} {history : History S ℝ}
    (taken : Array (Found ℝ)), Run Frontier.Takes e history → e.WellPosed history → e.InRange →
      ∃ out, takeOnto taken n e = .ok out := by
  induction n with
  | zero => exact fun _ _ _ _ => ⟨_, rfl⟩
  | succ n ih =>
    intro e history taken hrun hp hrange
    have hnext := next_takes e
    obtain ⟨found, e₁, hout⟩ := hnext.completes hrun hp hrange
    rw [hout] at hnext
    obtain ⟨history₁, hresumes, -⟩ := hrun.next hnext
    rw [takeOnto, hout]
    cases found with
    | none => exact ⟨_, rfl⟩
    | some found =>
      exact ih _ hresumes.run (hp.of_resumes hresumes)
        (hrange.of_frame hresumes.registrations hresumes.scans)

/-- In range, a request is accepted, and so is every later request for a next translation. -/
theorem Run.search_completes (hrun : Run Frontier.Takes e history) (hp : e.WellPosed history)
    (hrange : e.InRange) :
    (∀ (i : ℕ) (points : Array (Point S)) (base : Grid) (metersPerPixel : S) (n : ℕ)
      (request : Request ℝ), e.scans[i]? = some points → points.size < 2 ^ 32 →
        base.toFrame.Moderate → 2 ≤ n → n ≤ 29 → request.Searchable →
        (∀ rotations, request.rotations = .ok rotations → ∀ theta ∈ rotations,
          ∀ c ∈ scanPixels points metersPerPixel theta, c.Moderate) →
        ∃ pyramid e', Pyramid.build base metersPerPixel n = .ok pyramid ∧
          e.add i pyramid request = .ok e' ∧ Run Frontier.Takes e' history ∧ e'.InRange) ∧
    (∀ out, Next Frontier.Takes e out → ∃ found e' history', out = .ok (found, e') ∧
      Resumes Frontier.Takes e history e' history' ∧ e'.WellPosed history' ∧ e'.InRange) ∧
    ∀ n, ∃ out, e.take n = .ok out := by
  refine ⟨?_, ?_, ?_⟩
  · intro i points base metersPerPixel n request hscan hsize hbase hn hn' hrequest hpixels
    obtain ⟨rotations, hrotations⟩ := hrequest.exists_rotations
    obtain ⟨pyramid, hbuild, hlevels, hmpp⟩ :=
      Pyramid.build_ok hbase metersPerPixel (show 1 ≤ n by omega) (by omega)
    obtain ⟨-, -, hx0, hx1, hy0, hy1⟩ := hrequest.window
    obtain ⟨e', hadd⟩ := add_ok e i (show 2 ≤ pyramid.numLevels by omega) (by omega)
      (hrequest.window.mono (by decide)) (by omega) (by omega) hrotations
    have hi : i < e.caches.size := by
      rw [← scans_size]
      exact (Array.getElem?_eq_some_iff.mp hscan).1
    refine ⟨pyramid, e', hbuild, hadd, hrun.add hi ⟨base, _, n, Or.inl hbuild⟩ hadd, ?_⟩
    obtain ⟨level, d, r, blocks, -, -, -, -, -, hr, -, rfl⟩ := add_cases hadd
    obtain ⟨hformed, rfl, rfl, rfl⟩ := Registration.formed_of_ofRequest hr
    intro j r' hr' points' hpoints'
    rw [Array.getElem?_push] at hr'
    split at hr'
    · obtain rfl := Option.some.inj hr'
      obtain rfl := Option.some.inj (hscan.symm.trans hpoints')
      refine ⟨⟨base, n, hbase, show 1 ≤ n by omega, by rw [hmpp]; exact hbuild⟩, hrequest.window,
        by omega, ?_⟩
      rw [hmpp]
      exact hpixels _ hformed.rotations
    · exact hrange j r' hr' points' hpoints'
  · intro out hnext
    obtain ⟨found, e', rfl⟩ := hnext.completes hrun hp hrange
    obtain ⟨history', hresumes, -⟩ := hrun.next hnext
    exact ⟨found, e', history', rfl, hresumes, hp.of_resumes hresumes,
      hrange.of_frame hresumes.registrations hresumes.scans⟩
  · intro n
    exact takeOnto_completes n _ hrun hp hrange

/-- No rotation turns a point of the unit square out of the two pixels around the origin. -/
theorem moderate_of_unit {p : Point ℝ} (hx : |p.x| ≤ 1) (hy : |p.y| ≤ 1) (theta : ℝ) :
    (Cell.ofPoint (Scalar.sin theta) (Scalar.cos theta) (widen (1 : ℝ) : ℝ) p).Moderate := by
  have hsin := Real.abs_sin_le_one theta
  have hcos := Real.abs_cos_le_one theta
  have hproduct {a b : ℝ} (ha : |a| ≤ 1) (hb : |b| ≤ 1) : -1 ≤ a * b ∧ a * b ≤ 1 := by
    rw [← abs_le, abs_mul]
    exact mul_le_one₀ ha (abs_nonneg b) hb
  have hfloor {x : ℝ} (h : -2 ≤ x ∧ x ≤ 2) : -2 ≤ ⌊x / 1⌋ ∧ ⌊x / 1⌋ ≤ 2 := by
    rw [div_one]
    constructor
    · exact Int.le_floor.mpr (by exact_mod_cast h.1)
    · exact Int.floor_le_iff.mpr (by push_cast; linarith [h.2])
  obtain ⟨hcx, hcx'⟩ := hproduct hcos hx
  obtain ⟨hsy, hsy'⟩ := hproduct hsin hy
  obtain ⟨hsx, hsx'⟩ := hproduct hsin hx
  obtain ⟨hcy, hcy'⟩ := hproduct hcos hy
  have hcolumn := hfloor (x := Real.cos theta * p.x - Real.sin theta * p.y)
    ⟨by linarith, by linarith⟩
  have hrow := hfloor (x := Real.sin theta * p.x + Real.cos theta * p.y)
    ⟨by linarith, by linarith⟩
  have hcell : Cell.ofPoint (Scalar.sin theta) (Scalar.cos theta) (1 : ℝ) p =
      p.pixel (1 : ℝ) theta := by
    apply Cell.ofPoint_eq
    constructor
    · exact ⟨hcolumn.1.trans' (by decide), hcolumn.2.trans (by decide)⟩
    · exact ⟨hrow.1.trans' (by decide), hrow.2.trans (by decide)⟩
  change (Cell.ofPoint (Scalar.sin theta) (Scalar.cos theta) (1 : ℝ) p).Moderate
  rw [hcell]
  constructor
  · exact ⟨hcolumn.1.trans' (by decide), hcolumn.2.trans (by decide)⟩
  · exact ⟨hrow.1.trans' (by decide), hrow.2.trans (by decide)⟩

theorem searchable_small : Request.small.Searchable := by
  refine ⟨?_, zero_le_one, Or.inr ⟨one_pos, ?_⟩⟩
  · constructor <;> decide
  · have hfloor : ⌊((1 : ℝ) - 0) / 1 + 1e-9⌋ = 1 := by
      rw [Int.floor_eq_iff]
      norm_num
    change ⌊((1 : ℝ) - 0) / 1 + 1e-9⌋ + 1 ≤ 2 ^ 32
    rw [hfloor]
    decide

theorem Run.search_completes_small : ∃ (pyramid : Pyramid ℝ) (e : Engine ℝ ℝ),
    small.add 0 pyramid Request.small = .ok e ∧ e.WellPosed ⟨[], [], []⟩ ∧ e.InRange ∧
      ∀ n, ∃ out, e.take n = .ok out := by
  have hstart : Run Frontier.Takes small ⟨[], [], []⟩ := RunIf.start [(#[⟨0, 1⟩, ⟨1, 1⟩], true)]
  have hnone (i : ℕ) (r : Registration ℝ ℝ) : small.registrations[i]? ≠ some r := by
    simp [small, ofCaches]
  have hposed : small.WellPosed ⟨[], [], []⟩ := by
    refine ⟨fun i r hr => absurd hr (hnone i r), fun i r hr => absurd hr (hnone i r),
      fun i r hr => absurd hr (hnone i r), ?_⟩
    rintro i mpp mpp' theta theta' (⟨j, r, hr, -⟩ | hasked)
    · exact absurd hr (hnone j r)
    · cases hasked
  have hrange : small.InRange := fun i r hr => absurd hr (hnone i r)
  obtain ⟨haccepts, -, -⟩ := hstart.search_completes hposed hrange
  obtain ⟨pyramid, e, hbuild, hadd, hrun, hinrange⟩ := haccepts 0 #[⟨0, 1⟩, ⟨1, 1⟩]
    (Grid.ofFn ⟨3, 2, -1, 0⟩ fun x y => UInt8.ofNat (40 * x + 7 * y)) 1 2 Request.small
    (by simp [small, scans, ofCaches, ScanCache.ofPoints]) (by decide) (by constructor <;> decide)
    (by decide) (by decide) searchable_small (by
      intro rotations _ theta _ c hc
      obtain ⟨p, hp, rfl⟩ := List.mem_map.mp hc
      have hp : p = ⟨0, 1⟩ ∨ p = ⟨1, 1⟩ := by simpa using hp
      rcases hp with rfl | rfl <;> exact moderate_of_unit (by simp) (by simp) theta)
  have hwell : e.WellPosed ⟨[], [], []⟩ := by
    have hmpp := ((Pyramid.ensures_build _ _ (show 1 ≤ 2 by decide)).of_ok hbuild).metersPerPixel
    obtain ⟨level, d, r, blocks, -, -, -, -, -, hr, -, rfl⟩ := add_cases hadd
    obtain ⟨hformed, -, rfl, hrequest⟩ := Registration.formed_of_ofRequest hr
    have hrotations := hformed.rotations
    rw [hrequest, Request.small_rotations] at hrotations
    exact wellPosed_small rfl hrequest (Except.ok.inj hrotations).symm hmpp
  exact ⟨pyramid, e, hadd, hwell, hinrange, (hrun.search_completes hwell hinrange).2.2⟩

end Engine

end ScanMatch
