import ScanMatch.Proofs.Admissibility
import ScanMatch.Proofs.Exact

/-! # Points far from the origin

A pixel that no 32-bit number can name is cut off at the ends of the range. The cells it is grouped
into are as far from a grid near the origin as those of the pixel itself, so it adds nothing to a
correlation. Only at full resolution is there no room left beyond the ends, and there the offset of
the block can move it out of range.
-/
namespace ScanMatch

open Checked (Ensures InInt32)

/-! ### Whole numbers of any size -/

/-- The value is this whole number: cut off to any range, it becomes the nearest number there. -/
def Scalar.Denotes {R : Type} [Scalar R] (v : R) (n : Int) : Prop :=
  ∀ lo hi, lo ≤ hi → truncate lo hi v = max lo (min hi n)

theorem Scalar.Denotes.unique {R : Type} [Scalar R] {v : R} {m n : Int} (hm : Denotes v m)
    (hn : Denotes v n) : m = n := by
  have h := (hm (min m n) (max m n) (by omega)).symm.trans (hn (min m n) (max m n) (by omega))
  omega

theorem Exact.denotes_floor (x : ℝ) : Scalar.Denotes (Scalar.floor x) ⌊x⌋ := by
  intro lo hi _
  change max lo (min hi (integerPart (⌊x⌋ : ℝ))) = _
  rw [integerPart_intCast]

section

variable {S R : Type} [Scalar R] [Precision S R]

/-- The pixel of a point turned by `theta`, however far away. -/
structure Point.FallsInto (p : Point S) (resolution theta : R) (c : Cell) : Prop where
  x : Scalar.Denotes (Scalar.floor
    ((Scalar.cos theta * widen p.x - Scalar.sin theta * widen p.y) / resolution)) c.x
  y : Scalar.Denotes (Scalar.floor
    ((Scalar.sin theta * widen p.x + Scalar.cos theta * widen p.y) / resolution)) c.y

/-- A point has one pixel at most. -/
theorem Point.FallsInto.unique {p : Point S} {resolution theta : R} {c c' : Cell}
    (h : p.FallsInto resolution theta c) (h' : p.FallsInto resolution theta c') : c = c' := by
  obtain ⟨hx, hy⟩ := h
  obtain ⟨hx', hy'⟩ := h'
  exact congrArg₂ Cell.mk (hx.unique hx') (hy.unique hy')

/-- The cell with 32-bit indices that is nearest to a cell along each axis. -/
def Cell.clip (c : Cell) : Cell :=
  ⟨max (-2147483648) (min 2147483647 c.x), max (-2147483648) (min 2147483647 c.y)⟩

theorem Cell.ofPoint_eq_clip {p : Point S} {resolution theta : R} {c : Cell}
    (h : p.FallsInto resolution theta c) :
    Cell.ofPoint (Scalar.sin theta) (Scalar.cos theta) resolution p = c.clip :=
  congrArg₂ Cell.mk (h.x _ _ (by decide)) (h.y _ _ (by decide))

theorem scanPixels_eq_clip {points : Array (Point S)} {metersPerPixel : S} {theta : R}
    {pixels : List Cell} (h : List.Forall₂
      (fun p c => p.FallsInto (widen metersPerPixel) theta c) points.toList pixels) :
    scanPixels points metersPerPixel theta = pixels.map Cell.clip := by
  rw [scanPixels]
  generalize points.toList = points at h
  induction h with
  | nil => rfl
  | cons h _ ih => rw [List.map_cons, List.map_cons, Cell.ofPoint_eq_clip h, ih]

end

/-- In exact arithmetic every point has its pixel. -/
theorem forall₂_fallsInto_pixel {S : Type} [Precision S ℝ] (points : List (Point S))
    (m theta : ℝ) : List.Forall₂ (fun p c => p.FallsInto m theta c) points
      (points.map fun p => p.pixel m theta) := by
  rw [List.forall₂_map_right_iff, List.forall₂_same]
  intro p _
  exact ⟨Exact.denotes_floor _, Exact.denotes_floor _⟩

/-! ### Indices near and far

All is counted in cells of side `d`, of which `q` reach 2^28.
-/

section

variable {d q : Int}

/-- Along one axis, an index that is cut off stays beside a grid near the origin. -/
theorem clip_index (c off : Int) {size : Nat} (hd : 0 < d) (hq : 0 < q)
    (hdq : d * q = 268435456) (hoff : -(2 * q) ≤ off ∧ off ≤ 2 * q + 2) (hsize : size ≤ q + 4) :
    max (-2147483648) (min 2147483647 c) / d = c / d ∨
      max (-2147483648) (min 2147483647 c) / d + off < 0 ∧ c / d + off < 0 ∨
      (size : Int) ≤ max (-2147483648) (min 2147483647 c) / d + off ∧ size ≤ c / d + off := by
  rcases lt_or_ge c (-2147483648) with hc | hc
  · have hclip : max (-2147483648) (min 2147483647 c) = -(8 * q) * d := by
      have : max (-2147483648) (min 2147483647 c) = -2147483648 := by omega
      linarith
    have hle : c / d ≤ -(8 * q) := by
      rw [← Int.lt_add_one_iff, Int.ediv_lt_iff_lt_mul hd]
      linarith
    rw [hclip, Int.mul_ediv_cancel _ hd.ne']
    omega
  · rcases lt_or_ge 2147483647 c with hc' | hc'
    · have hclip : max (-2147483648) (min 2147483647 c) = (8 * q - 1) * d + (d - 1) := by
        have : max (-2147483648) (min 2147483647 c) = 2147483647 := by omega
        linarith
      have hle : 8 * q - 1 ≤ c / d := by
        rw [Int.le_ediv_iff_mul_le hd]
        linarith
      have hlast : (d - 1) / d = 0 := Int.ediv_eq_zero_of_lt (by omega) (by omega)
      rw [hclip, add_comm, Int.add_mul_ediv_right _ _ hd.ne', hlast]
      omega
    · left
      congr 1
      omega

/-- Above full resolution, no offset of this size moves a 32-bit index out of range. -/
theorem clip_lands {c off : Int} (hd : 2 ≤ d) (hdq : d * q = 268435456)
    (hoff : -(2 * q) ≤ off ∧ off ≤ 2 * q + 2) :
    InInt32 (max (-2147483648) (min 2147483647 c) / d + off) := by
  have hend : d * (8 * q) = 2147483648 := by linarith
  have hmem := ediv_mem_of_mul (n := max (-2147483648) (min 2147483647 c)) (q := 8 * q)
    (by omega : 0 < d) (by omega)
  have hsmall : q ≤ 134217728 := by nlinarith
  constructor <;> omega

end

theorem two_pow_mul_two_pow {k : Nat} (h : k ≤ 28) :
    (2 : Int) ^ k * 2 ^ (28 - k) = 268435456 := by
  rw [← pow_add, Nat.add_sub_cancel' h]
  rfl

theorem Grid.IsLevel.placed {g base : Grid} {k : Nat} {q : Int} (h : g.IsLevel base k)
    (hbase : base.toFrame.Moderate) (hdq : 2 ^ k * q = 268435456) :
    (-(q + 2) ≤ g.x0 / 2 ^ k ∧ g.x0 / 2 ^ k ≤ q) ∧
      (-(q + 2) ≤ g.y0 / 2 ^ k ∧ g.y0 / 2 ^ k ≤ q) ∧
      (g.width : Int) ≤ q + 4 ∧ (g.height : Int) ≤ q + 4 := by
  have hd : (0 : Int) < 2 ^ k := by positivity
  obtain ⟨hx0, hy0, hwidth, hheight⟩ := hbase
  have hframe := h.frame
  split at hframe
  · next h0 =>
    rw [h0, pow_zero, one_mul] at hdq
    rw [h0, hframe, pow_zero, Int.ediv_one, Int.ediv_one]
    omega
  · have hcoarse := (Frame.ensures_coarse base.toFrame k).of_ok hframe
    have hsize (size : Nat) (hle : size ≤ 268435456) : ((size / 2 ^ k : Nat) : Int) ≤ q := by
      push_cast
      exact (ediv_mem_of_mul hd ⟨by omega, by omega⟩).2
    have hx := ediv_mem_of_mul hd (hdq.symm ▸ hx0)
    have hy := ediv_mem_of_mul hd (hdq.symm ▸ hy0)
    have hw := hsize _ hwidth
    have hh := hsize _ hheight
    rw [hcoarse.x0, hcoarse.y0, hcoarse.width, hcoarse.height, Frame.coarseOrigin_ediv hd,
      Frame.coarseOrigin_ediv hd]
    omega

theorem Registration.Touches.index {S R : Type} {r : Registration S R} {b : Block R}
    {q : Int} (h : r.Touches b) (hwindow : r.request.Within 268435456)
    (hdq : 2 ^ b.level * q = 268435456) : (-q ≤ b.x ∧ b.x ≤ q) ∧ (-q ≤ b.y ∧ b.y ≤ q) := by
  have hd : (0 : Int) < 2 ^ b.level := by positivity
  have axis {i t0 t1 : Int} (ht0 : -268435456 ≤ t0) (ht1 : t1 ≤ 268435456)
      (h1 : i * 2 ^ b.level ≤ t1) (h0 : t0 ≤ i * 2 ^ b.level + 2 ^ b.level - 1) :
      -q ≤ i ∧ i ≤ q := by
    constructor
    · have : -q * 2 ^ b.level < (i + 1) * 2 ^ b.level := by linarith
      exact Int.lt_add_one_iff.mp (lt_of_mul_lt_mul_right this hd.le)
    · exact le_of_mul_le_mul_right (by linarith) hd
  exact ⟨axis hwindow.x0 hwindow.x1 h.x1 h.x0, axis hwindow.y0 hwindow.y1 h.y1 h.y0⟩

/-- Cut off or not, a pixel that a block near the origin moves has the same cell or none. -/
theorem Grid.IsLevel.get?_clip {g base : Grid} {k : Nat} {q x y : Int} (h : g.IsLevel base k)
    (hbase : base.toFrame.Moderate) (hq : 0 < q) (hdq : 2 ^ k * q = 268435456)
    (hx : -q ≤ x ∧ x ≤ q) (hy : -q ≤ y ∧ y ≤ q) (c : Cell) :
    g.get? (c.clip.x / 2 ^ k + (x - g.x0 / 2 ^ k)) (c.clip.y / 2 ^ k + (y - g.y0 / 2 ^ k)) =
      g.get? (c.x / 2 ^ k + (x - g.x0 / 2 ^ k)) (c.y / 2 ^ k + (y - g.y0 / 2 ^ k)) := by
  obtain ⟨hx0, hy0, hwidth, hheight⟩ := h.placed hbase hdq
  have hd : (0 : Int) < 2 ^ k := by positivity
  have hcolumn := clip_index c.x (x - g.x0 / 2 ^ k) hd hq hdq ⟨by omega, by omega⟩ hwidth
  have hrow := clip_index c.y (y - g.y0 / 2 ^ k) hd hq hdq ⟨by omega, by omega⟩ hheight
  have outside {ix iy jx jy : Int}
      (hi : ix < 0 ∨ iy < 0 ∨ (g.width : Int) ≤ ix ∨ (g.height : Int) ≤ iy)
      (hj : jx < 0 ∨ jy < 0 ∨ (g.width : Int) ≤ jx ∨ (g.height : Int) ≤ jy) :
      g.get? ix iy = g.get? jx jy :=
    (g.get?_eq_none_iff.mpr hi).trans (g.get?_eq_none_iff.mpr hj).symm
  rcases hcolumn with hcolumn | ⟨h₁, h₂⟩ | ⟨h₁, h₂⟩
  · rcases hrow with hrow | ⟨h₁, h₂⟩ | ⟨h₁, h₂⟩
    · rw [Cell.clip, hcolumn, hrow]
    · exact outside (Or.inr (Or.inl h₁)) (Or.inr (Or.inl h₂))
    · exact outside (Or.inr (Or.inr (Or.inr h₁))) (Or.inr (Or.inr (Or.inr h₂)))
  · exact outside (Or.inl h₁) (Or.inl h₂)
  · exact outside (Or.inr (Or.inr (Or.inl h₁))) (Or.inr (Or.inr (Or.inl h₂)))

namespace Registration

/-- The scores that a block moves pixels onto, one for each pixel that falls into the grid. -/
def hits (g : Grid) (d : Int) (pixels : List Cell) (x y : Int) : List UInt8 :=
  pixels.filterMap fun c => g.get? (c.x / d + (x - g.x0 / d)) (c.y / d + (y - g.y0 / d))

theorem rawScore_eq_hits (g : Grid) (d : Int) (pixels : List Cell) (x y : Int) :
    rawScore g d pixels x y = ((hits g d pixels x y).map fun v => (v.toNat : Int)).sum := by
  rw [rawScore, hits]
  induction pixels with
  | nil => rfl
  | cons c pixels ih =>
    rw [List.map_cons, List.sum_cons, ih, List.filterMap_cons, Grid.value]
    cases g.get? (c.x / d + (x - g.x0 / d)) (c.y / d + (y - g.y0 / d)) with
    | none => simp
    | some v => simp

section

variable {S R : Type} [Scalar R] [Precision S R] {r : Registration S R} {cache : ScanCache S}
  {base g : Grid} {b : Block R} {theta : R} {pixels : List Cell}

/-- Only at full resolution can a point that is cut off stop the correlation of a block near the
origin. -/
theorem exists_correlate_clip_iff (hg : r.pyramid.levels[b.level]? = some g)
    (hgrid : g.IsLevel base b.level) (hbase : base.toFrame.Moderate) (hlevel : b.level ≤ 28)
    (hwindow : r.request.Within 268435456) (htouch : r.Touches b)
    (htheta : r.rotations[b.rotation]? = some theta) (hsize : cache.points.size < 2 ^ 32)
    (hpixels : scanPixels cache.points r.pyramid.metersPerPixel theta = pixels.map Cell.clip)
    (hc : cache.Faithful r.pyramid.metersPerPixel theta b.level) :
    (∃ out, r.correlate cache b.rotation b.level b.x b.y = .ok out) ↔
      (b.level = 0 → ∀ c ∈ pixels, Lands (b.x - base.x0) (b.y - base.y0) c.clip) := by
  have hdq := two_pow_mul_two_pow hlevel
  have hq : (0 : Int) < 2 ^ (28 - b.level) := by positivity
  have hone : (1 : Int) ≤ 2 ^ b.level := one_le_pow₀ (by decide)
  have hle : (2 : Int) ^ (28 - b.level) ≤ 268435456 := by nlinarith
  generalize (2 : Int) ^ (28 - b.level) = q at hdq hq hle
  obtain ⟨hx0, hy0, -⟩ := hgrid.placed hbase hdq
  obtain ⟨hx, hy⟩ := htouch.index hwindow hdq
  have hox := Int.tdiv_eq_ediv_of_dvd hgrid.summarizes.dvd_x0
  have hoy := Int.tdiv_eq_ediv_of_dvd hgrid.summarizes.dvd_y0
  rw [exists_correlate_iff hg (by omega) htheta hc (by omega), hox, hoy]
  · simp only [hpixels, List.map_map, List.forall_mem_map]
    by_cases h0 : b.level = 0
    · obtain rfl := hgrid.unique (h0 ▸ base.isLevel_zero)
      simp [h0, Cell.coarsen]
    · -- halving the indices leaves room for the offset
      have htwo : (2 : Int) ≤ 2 ^ b.level := le_self_pow₀ (by decide) h0
      constructor
      · exact fun _ h => absurd h h0
      · intro _ c _
        exact ⟨clip_lands htwo hdq ⟨by omega, by omega⟩, clip_lands htwo hdq ⟨by omega, by omega⟩⟩
  · rw [hox]
    constructor <;> omega
  · rw [hoy]
    constructor <;> omega

/-- A correlation adds up the scores under the points that fall into the grid, however far away the
others are, and above full resolution it always completes. At full resolution it stops on a point
whose pixel, cut off at the ends of the range, the block moves out of it. -/
theorem correlate_far_iff {metersPerPixel : S} {n : Nat}
    (hbuild : Pyramid.build base metersPerPixel n = .ok r.pyramid ∨
      Pyramid.buildReference base metersPerPixel n = .ok r.pyramid)
    (hbase : base.toFrame.Moderate) (hn : n ≤ 29) (hwindow : r.request.Within 268435456)
    (htouch : r.Touches b) (hlevel : b.level < n)
    (htheta : r.rotations[b.rotation]? = some theta) (hsize : cache.points.size < 2 ^ 32)
    (hpixels : List.Forall₂ (fun p c => p.FallsInto (widen metersPerPixel) theta c)
      cache.points.toList pixels)
    (hc : cache.Faithful metersPerPixel theta b.level) :
    ∃ g, r.pyramid.level b.level = .ok g ∧
      ((∃ out, r.correlate cache b.rotation b.level b.x b.y = .ok out) ↔
        (b.level = 0 → ∀ c ∈ pixels, Lands (b.x - base.x0) (b.y - base.y0) c.clip)) ∧
      Ensures (r.correlate cache b.rotation b.level b.x b.y) fun out =>
        out.1 = ((hits g (2 ^ b.level) pixels b.x b.y).map fun v => (v.toNat : Int)).sum := by
  have hrep := Pyramid.represents_of_built hbuild
  obtain ⟨g, hg, hgrid⟩ := hrep.exists_level hlevel
  obtain rfl := hrep.metersPerPixel
  have hscan := scanPixels_eq_clip hpixels
  refine ⟨g, Pyramid.level_eq_ok hg, exists_correlate_clip_iff hg hgrid hbase (by omega) hwindow
    htouch htheta hsize hscan hc, ?_⟩
  have hdq := two_pow_mul_two_pow (show b.level ≤ 28 by omega)
  obtain ⟨hx, hy⟩ := htouch.index hwindow hdq
  refine (ensures_correlate b.x b.y hg hgrid.summarizes (by omega) htheta hc).mono ?_
  intro out hout
  rw [hout, hscan, rawScore_eq_hits, hits, List.filterMap_map]
  congr 2
  exact List.filterMap_congr fun c _ => hgrid.get?_clip hbase (by positivity) hdq hx hy c

end

/-- A grid one pixel beside the origin. -/
def besideOrigin : Grid := Grid.ofFn ⟨3, 3, -1, 0⟩ fun x y => if x + y = 0 then 255 else 0

theorem moderate_besideOrigin : besideOrigin.toFrame.Moderate := by
  constructor <;> decide

/-- A search over a single translation. -/
noncomputable def still (p : Pyramid ℝ) : Registration ℝ ℝ :=
  ⟨0, p, Request.ofWindow 0 0 0 0, #[0], none⟩

theorem within_still (p : Pyramid ℝ) : (still p).request.Within 1048576 := by
  have hwindow : (Request.ofWindow 0 0 0 0 : Request ℝ).Within 1048576 := by
    constructor <;> decide
  exact hwindow

theorem touches_still (p : Pyramid ℝ) (level : Nat) :
    (still p).Touches ⟨0, level, 0, 0, 0, .unbounded⟩ := by
  have hd : (1 : Int) ≤ 2 ^ level := one_le_pow₀ (by decide)
  constructor
  case x1 => exact (zero_mul _).le
  case y1 => exact (zero_mul _).le
  case x0 =>
    change (0 : Int) ≤ 0 * 2 ^ level + 2 ^ level - 1
    omega
  case y0 =>
    change (0 : Int) ≤ 0 * 2 ^ level + 2 ^ level - 1
    omega

/-- A point beyond the 32-bit pixels and one near the origin. -/
noncomputable def farScan : ScanCache ℝ := ScanCache.ofPoints #[⟨4294967296, 0⟩, ⟨1, 1⟩] true

theorem farScan_faithful (level : Nat) : farScan.Faithful (1 : ℝ) (0 : ℝ) level :=
  ScanCache.faithful_of_empty rfl _ _ _

theorem farScan_pixels (theta : ℝ) : List.Forall₂
    (fun p c => p.FallsInto (widen (1 : ℝ)) theta c) farScan.points.toList
      (farScan.points.toList.map fun p => p.pixel 1 theta) :=
  forall₂_fallsInto_pixel _ _ _

/-- On the coarse level the distant point of the scan is passed over. -/
theorem correlate_far_iff_coarse :
    let b : Block ℝ := ⟨0, 1, 0, 0, 0, .unbounded⟩
    let pixels := farScan.points.toList.map fun p => p.pixel 1 0
    ∃ r : Registration ℝ ℝ, (Pyramid.build besideOrigin 1 2 = .ok r.pyramid ∨
        Pyramid.buildReference besideOrigin 1 2 = .ok r.pyramid) ∧
      besideOrigin.toFrame.Moderate ∧ 2 ≤ 29 ∧ r.request.Within 268435456 ∧ r.Touches b ∧
      b.level < 2 ∧ r.rotations[b.rotation]? = some 0 ∧ farScan.points.size < 2 ^ 32 ∧
      List.Forall₂ (fun p c => p.FallsInto (widen (1 : ℝ)) (0 : ℝ) c) farScan.points.toList
        pixels ∧ farScan.Faithful (1 : ℝ) (0 : ℝ) b.level ∧
      ∃ g, r.pyramid.level b.level = .ok g ∧
        ((∃ out, r.correlate farScan b.rotation b.level b.x b.y = .ok out) ↔
          (b.level = 0 → ∀ c ∈ pixels,
            Lands (b.x - besideOrigin.x0) (b.y - besideOrigin.y0) c.clip)) ∧
        Ensures (r.correlate farScan b.rotation b.level b.x b.y) fun out =>
          out.1 = ((hits g (2 ^ b.level) pixels b.x b.y).map fun v => (v.toNat : Int)).sum := by
  intro b pixels
  obtain ⟨p, hbuild, -, -⟩ := Pyramid.build_ok moderate_besideOrigin (1 : ℝ)
    (show 1 ≤ 2 by decide) (by decide)
  have hwindow := (within_still p).mono (show 1048576 ≤ 268435456 by decide)
  exact ⟨still p, Or.inl hbuild, moderate_besideOrigin, by decide, hwindow, touches_still p 1,
    by decide, rfl, by decide, farScan_pixels 0, farScan_faithful 1,
    correlate_far_iff (Or.inl hbuild) moderate_besideOrigin (by decide) hwindow
      (touches_still p 1) (by decide) rfl (by decide) (farScan_pixels 0) (farScan_faithful 1)⟩

/-- On the full-resolution level it stops the only translation of the window. -/
theorem correlate_overflow_far :
    let b : Block ℝ := ⟨0, 0, 0, 0, 0, .unbounded⟩
    ∃ r : Registration ℝ ℝ, Pyramid.build besideOrigin 1 2 = .ok r.pyramid ∧
      besideOrigin.toFrame.Within 1048576 ∧ r.request.Within 1048576 ∧ r.Touches b ∧
      r.rotations[b.rotation]? = some 0 ∧ farScan.points.size < 2 ^ 32 ∧
      farScan.Faithful (1 : ℝ) (0 : ℝ) b.level ∧
      r.correlate farScan b.rotation b.level b.x b.y = .error .overflow := by
  intro b
  obtain ⟨p, hbuild, -, hmpp⟩ := Pyramid.build_ok moderate_besideOrigin (1 : ℝ)
    (show 1 ≤ 2 by decide) (by decide)
  have hgrid : besideOrigin.toFrame.Within 1048576 := by constructor <;> decide
  refine ⟨still p, hbuild, hgrid, within_still p, touches_still p 0, rfl, by decide,
    farScan_faithful 0, ?_⟩
  obtain ⟨g, hg, hlevel⟩ :=
    ((Pyramid.ensures_build _ _ (show 1 ≤ 2 by decide)).of_ok hbuild).exists_level
      (show b.level < 2 by decide)
  have hwindow := (within_still p).mono (show 1048576 ≤ 268435456 by decide)
  have htheta : (still p).rotations[b.rotation]? = some 0 := rfl
  have hmpp : (still p).pyramid.metersPerPixel = 1 := hmpp
  have hfaithful : farScan.Faithful (still p).pyramid.metersPerPixel (0 : ℝ) b.level :=
    hmpp ▸ farScan_faithful b.level
  have hscan : scanPixels farScan.points (still p).pyramid.metersPerPixel (0 : ℝ) =
      (farScan.points.toList.map fun p => p.pixel 1 0).map Cell.clip := by
    rw [hmpp]
    exact scanPixels_eq_clip (farScan_pixels 0)
  have hiff := exists_correlate_clip_iff hg hlevel moderate_besideOrigin (by decide) hwindow
    (touches_still p 0) htheta (by decide) hscan hfaithful
  have hraw := ensures_correlate b.x b.y hg hlevel.summarizes (by decide) htheta hfaithful
  cases hout : (still p).correlate farScan b.rotation b.level b.x b.y with
  | error f => rw [hraw.of_error hout]
  | ok out =>
    -- the distant pixel is cut off at 2^31 - 1, and the grid moves it by one
    have hpixel : (⟨4294967296, 0⟩ : Point ℝ).pixel 1 0 = ⟨4294967296, 0⟩ := by
      simp [Point.pixel, widen]
    have hlands := hiff.mp ⟨out, hout⟩ rfl ⟨4294967296, 0⟩
      (by simp [farScan, ScanCache.ofPoints, hpixel])
    exact absurd hlands.1.2 (by decide)

end Registration

end ScanMatch
