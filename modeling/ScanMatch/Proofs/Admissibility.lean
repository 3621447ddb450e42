import Mathlib.Order.Bounds.Defs
import ScanMatch.Proofs.Completion

/-! # Coarse scores bound fine ones

A cell of a coarse level is the greatest of the base pixels that it stands for, in the grid of the
level or not. So a turned scan scores no less on a coarse level than on any finer one, and a point
that falls beside the coarse grid would have scored nothing anywhere in the block.
-/
namespace ScanMatch

/-- The least upper bound of bytes is one of them. -/
theorem UInt8.isGreatest_of_upper_bounds {a : UInt8} {s : Set UInt8} (hzero : 0 ∈ s)
    (h : ∀ m, a ≤ m ↔ ∀ v ∈ s, v ≤ m) : IsGreatest s a := by
  have hupper := (h a).mp (UInt8.le_refl a)
  refine ⟨?_, hupper⟩
  by_contra hmem
  have hpos : a.toNat ≠ 0 := by
    intro ha
    obtain rfl : a = 0 := UInt8.toNat_inj.mp ha
    exact hmem hzero
  -- were it none of them, its predecessor would bound them too
  have hbelow : (UInt8.ofNat (a.toNat - 1)).toNat = a.toNat - 1 := by
    rw [UInt8.toNat_ofNat']
    have := a.toNat_lt
    omega
  have hle : a ≤ UInt8.ofNat (a.toNat - 1) := by
    rw [h]
    intro v hv
    have hva := hupper v hv
    have hne : v.toNat ≠ a.toNat := by
      intro e
      obtain rfl := UInt8.toNat_inj.mp e
      exact hmem hv
    rw [UInt8.le_iff_toNat_le] at hva ⊢
    omega
  rw [UInt8.le_iff_toNat_le] at hle
  omega

namespace Grid

theorem pixel_of_get? {g : Grid} {ix iy : Int} {v : UInt8} (h : g.get? ix iy = some v) :
    g.pixel (g.x0 + ix) (g.y0 + iy) = v := by
  rw [pixel, value, add_sub_cancel_left, add_sub_cancel_left, h, Option.getD_some]

/-- The scores of the base pixels in the window of a cell. -/
def windowScores (base : Grid) (f : Frame) (d cx cy : Int) : Set UInt8 :=
  {v | ∃ ix iy, base.get? ix iy = some v ∧ InWindow f d cx cy (base.x0 + ix) (base.y0 + iy)}

theorem Summarizes.isGreatest {g base : Grid} {d : Int} (h : g.Summarizes base d) (cx cy : Int) :
    IsGreatest (insert 0 (base.windowScores g.toFrame d cx cy)) (g.value cx cy) := by
  apply UInt8.isGreatest_of_upper_bounds (Set.mem_insert 0 _)
  intro m
  rw [h.value_le_iff]
  constructor
  · rintro hall v (rfl | ⟨ix, iy, hv, hin⟩)
    · exact UInt8.zero_le
    · have := hall _ _ hin
      rwa [pixel_of_get? hv] at this
  · intro hall px py hin
    rw [pixel, value]
    cases hv : base.get? (px - base.x0) (py - base.y0) with
    | none => exact UInt8.zero_le
    | some v =>
      refine hall v (Or.inr ⟨_, _, hv, ?_⟩)
      rwa [add_sub_cancel, add_sub_cancel]

end Grid

namespace Pyramid

variable {S : Type}

/-- Every integer cell of a coarse level, in its grid or not, is the greatest of the base pixels in
its window, and zero if there are none. -/
theorem coarse_cell_isGreatest (base : Grid) (metersPerPixel : S) {n : Nat} (hn : 1 ≤ n)
    (hbuild : build base metersPerPixel n ≠ .error .overflow) :
    ∃ p, build base metersPerPixel n = .ok p ∧ p.numLevels = n ∧ ∀ k, 1 ≤ k → k < n →
      ∃ g, p.level k = .ok g ∧ g.x0 = 2 ^ k * (base.x0 / 2 ^ k) - 2 * 2 ^ k ∧
        g.y0 = 2 ^ k * (base.y0 / 2 ^ k) - 2 * 2 ^ k ∧
        ∀ cx cy, IsGreatest (insert 0 (base.windowScores g.toFrame (2 ^ k) cx cy))
          ((g.get? cx cy).getD 0) := by
  obtain ⟨p, hp, hrep⟩ := (ensures_build base metersPerPixel hn).exists_ok hbuild
  refine ⟨p, hp, hrep.ascend.length, ?_⟩
  intro k hk hkn
  obtain ⟨g, hg, hlevel⟩ := hrep.exists_level hkn
  have hframe := hlevel.frame
  rw [if_neg (by omega)] at hframe
  have hcoarse := (Frame.ensures_coarse base.toFrame k).of_ok hframe
  exact ⟨g, level_eq_ok hg, hcoarse.x0, hcoarse.y0, hlevel.summarizes.isGreatest⟩

/-- Two coarse levels over a grid whose origin is aligned with neither. -/
theorem coarse_cell_isGreatest_unaligned :
    let base := Grid.ofFn ⟨3, 2, -3, 5⟩ fun x y => UInt8.ofNat (40 * x + 7 * y)
    1 ≤ 3 ∧ build base 1 3 ≠ .error .overflow ∧
    ∃ p : Pyramid Nat, build base 1 3 = .ok p ∧ p.numLevels = 3 ∧ ∀ k, 1 ≤ k → k < 3 →
      ∃ g, p.level k = .ok g ∧ g.x0 = 2 ^ k * (base.x0 / 2 ^ k) - 2 * 2 ^ k ∧
        g.y0 = 2 ^ k * (base.y0 / 2 ^ k) - 2 * 2 ^ k ∧
        ∀ cx cy, IsGreatest (insert 0 (base.windowScores g.toFrame (2 ^ k) cx cy))
          ((g.get? cx cy).getD 0) :=
  ⟨by decide, nofun, coarse_cell_isGreatest
    (Grid.ofFn ⟨3, 2, -3, 5⟩ fun x y => UInt8.ofNat (40 * x + 7 * y)) 1 (by decide) nofun⟩

end Pyramid

namespace Registration

section

variable {S R : Type} [Scalar R] [Precision S R] {r : Registration S R}
  {cache cache' : ScanCache S}

/-- Where no integer overflows, a block scores no less than any block of a finer level inside it.
Within the block, no translation moves a point onto a pixel that scores if the point's coarse cell
lies beside the coarse grid. -/
theorem correlate_admissible {base : Grid} {metersPerPixel : S} {n i j k : Nat} {theta : R}
    {x y x' y' : Int} (hbuild : Pyramid.build base metersPerPixel n = .ok r.pyramid)
    (hjk : j < k) (hk : k < n) (htheta : r.rotations[i]? = some theta)
    (hscan : cache'.points = cache.points)
    (hfine : cache.Faithful r.pyramid.metersPerPixel theta j)
    (hcoarse : cache'.Faithful r.pyramid.metersPerPixel theta k)
    (hx : x / 2 ^ (k - j) = x') (hy : y / 2 ^ (k - j) = y')
    (hoverflow : r.correlate cache i j x y ≠ .error .overflow)
    (hoverflow' : r.correlate cache' i k x' y' ≠ .error .overflow) :
    ∃ fine coarse, r.correlate cache i j x y = .ok fine ∧
      r.correlate cache' i k x' y' = .ok coarse ∧ fine.1 ≤ coarse.1 ∧
      ∃ g, r.pyramid.level k = .ok g ∧ ∀ (c : Cell) (tx ty : Int),
        tx / 2 ^ k = x' → ty / 2 ^ k = y' →
        g.get? (c.x / 2 ^ k + (x' - g.x0.tdiv (2 ^ k)))
          (c.y / 2 ^ k + (y' - g.y0.tdiv (2 ^ k))) = none →
        base.pixel (c.x + tx) (c.y + ty) = 0 := by
  subst hx hy
  have hrep := (Pyramid.ensures_build base metersPerPixel (by omega)).of_ok hbuild
  obtain ⟨_, hlt⟩ := Pyramid.Built.summarizes ⟨_, _, _, Or.inl hbuild⟩
  obtain ⟨f, hf, hflevel⟩ := hrep.exists_level (hjk.trans hk)
  obtain ⟨g, hg, hglevel⟩ := hrep.exists_level hk
  have hk30 := (hlt k g hg).1
  obtain ⟨fine, hfineok, hfineraw⟩ :=
    (ensures_correlate x y hf hflevel.summarizes (by omega) htheta hfine).exists_ok hoverflow
  obtain ⟨coarse, hcoarseok, hcoarseraw⟩ :=
    (ensures_correlate _ _ hg hglevel.summarizes (by omega) htheta hcoarse).exists_ok hoverflow'
  refine ⟨fine, coarse, hfineok, hcoarseok, ?_, g, Pyramid.level_eq_ok hg, ?_⟩
  · rw [hfineraw, hcoarseraw, hscan]
    exact rawScore_le hjk.le hflevel.summarizes hglevel.summarizes _ x y
  · intro c tx ty htx hty hnone
    have hle := base.isLevel_zero.summarizes.value_le_coarser hglevel.summarizes k.zero_le c tx ty
    simp only [pow_zero, Int.ediv_one, Nat.sub_zero, htx, hty] at hle
    rw [Int.tdiv_eq_ediv_of_dvd hglevel.summarizes.dvd_x0,
      Int.tdiv_eq_ediv_of_dvd hglevel.summarizes.dvd_y0] at hnone
    rw [Grid.value, Grid.value, hnone, ← add_sub_assoc, ← add_sub_assoc] at hle
    exact UInt8.le_antisymm hle UInt8.zero_le

end

/-- A translation and the block of the coarsest level that holds it, over a grid whose origin is
aligned with no level, under a scan turned by one radian. -/
theorem correlate_admissible_unaligned :
    let base := Grid.ofFn ⟨3, 2, -3, 5⟩ fun x y => UInt8.ofNat (40 * x + 7 * y)
    let scan : ScanCache ℝ := ScanCache.ofPoints #[⟨0, 1⟩, ⟨1, 1⟩] true
    ∃ r : Registration ℝ ℝ, Pyramid.build base 1 3 = .ok r.pyramid ∧ 0 < 2 ∧ 2 < 3 ∧
      r.rotations[0]? = some 1 ∧ scan.points = scan.points ∧
      scan.Faithful r.pyramid.metersPerPixel (1 : ℝ) 0 ∧
      scan.Faithful r.pyramid.metersPerPixel (1 : ℝ) 2 ∧
      (-3 : Int) / 2 ^ (2 - 0) = -1 ∧ (6 : Int) / 2 ^ (2 - 0) = 1 ∧
      r.correlate scan 0 0 (-3) 6 ≠ .error .overflow ∧
      r.correlate scan 0 2 (-1) 1 ≠ .error .overflow ∧
      ∃ fine coarse, r.correlate scan 0 0 (-3) 6 = .ok fine ∧
        r.correlate scan 0 2 (-1) 1 = .ok coarse ∧ fine.1 ≤ coarse.1 ∧
        ∃ g, r.pyramid.level 2 = .ok g ∧ ∀ (c : Cell) (tx ty : Int),
          tx / 2 ^ 2 = -1 → ty / 2 ^ 2 = 1 →
          g.get? (c.x / 2 ^ 2 + (-1 - g.x0.tdiv (2 ^ 2)))
            (c.y / 2 ^ 2 + (1 - g.y0.tdiv (2 ^ 2))) = none →
          base.pixel (c.x + tx) (c.y + ty) = 0 := by
  intro base scan
  have hbase : base.Moderate := by constructor <;> decide
  obtain ⟨p, hbuild, -, hmpp⟩ := Pyramid.build_ok hbase (1 : ℝ) (show 1 ≤ 3 by decide) (by decide)
  let r : Registration ℝ ℝ := ⟨0, p, Request.ofWindow (-3) (-3) 6 6, #[1], none⟩
  have hwindow : (Request.ofWindow (-3) (-3) 6 6 : Request ℝ).Within 268435456 := by
    constructor <;> decide
  have hrange : r.InRange scan.points := by
    refine ⟨⟨base, 3, hbase, by decide, ?_⟩, hwindow, by decide, ?_⟩
    · exact (congrArg (Pyramid.build base · 3) hmpp).trans hbuild
    · intro theta _ c hc
      change c ∈ scanPixels _ p.metersPerPixel theta at hc
      rw [hmpp] at hc
      obtain ⟨q, hq, rfl⟩ := List.mem_map.mp hc
      have hq : q = ⟨0, 1⟩ ∨ q = ⟨1, 1⟩ := by simpa [scan, ScanCache.ofPoints] using hq
      rcases hq with rfl | rfl <;> exact Engine.moderate_of_unit (by simp) (by simp) theta
  have hfaithful (theta : ℝ) (level : ℕ) : scan.Faithful r.pyramid.metersPerPixel theta level :=
    ScanCache.faithful_of_empty rfl _ _ _
  have hfine : Checked.Contained (r.correlate scan 0 0 (-3) 6) :=
    contained_correlate hrange (by decide) (by decide) fun theta _ => hfaithful theta 0
  have hcoarse : Checked.Contained (r.correlate scan 0 2 (-1) 1) :=
    contained_correlate hrange (by decide) (by decide) fun theta _ => hfaithful theta 2
  exact ⟨r, hbuild, by decide, by decide, rfl, rfl, hfaithful 1 0, hfaithful 1 2, by decide,
    by decide, hfine, hcoarse, correlate_admissible hbuild (by decide) (by decide) rfl rfl
      (hfaithful 1 0) (hfaithful 1 2) (by decide) (by decide) hfine hcoarse⟩

end Registration

end ScanMatch
