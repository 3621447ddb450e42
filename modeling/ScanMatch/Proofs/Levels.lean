import ScanMatch.Proofs.Window

/-! # Levels of a pyramid

Three windows of one level, one cell apart, tile the window of the next. So levels made one from
the other hold the same maxima as levels made from the base.
-/
namespace ScanMatch

open Checked (Ensures)

namespace Frame

theorem ensures_coarseOrigin (o : Int) {d : Int} (hd : d ≠ 0) :
    Ensures (coarseOrigin o d) fun x => x = d * (o / d) - 2 * d ∧ -2147483648 ≤ 2 * d ∧
      2 * d ≤ 2147483647 := by
  refine (Checked.ensures_floorDiv o hd).bind ?_
  rintro q rfl
  refine (Checked.ensures_int32 _).bind ?_
  rintro aligned ⟨rfl, -⟩
  refine (Checked.ensures_int32 _).bind ?_
  rintro back ⟨rfl, hback⟩
  exact (Checked.ensures_int32 _).mono fun x hx => ⟨hx.1, hback⟩

theorem ensures_requireStart {c o d : Int} (fault : Fault) (h : c + 2 * d - 2 ≤ o) :
    Ensures (requireStart c o d fault) fun _ => True := by
  refine (Checked.ensures_int32 _).bind ?_
  rintro twice ⟨rfl, -⟩
  refine (Checked.ensures_int32 _).bind ?_
  rintro past ⟨rfl, -⟩
  refine (Checked.ensures_int32 _).bind ?_
  rintro last ⟨rfl, -⟩
  exact Checked.ensures_require fault h

theorem ensures_requireEnd {c o d : Int} {size baseSize : Nat} (fault : Fault)
    (h : o + baseSize ≤ c + size * d) :
    Ensures (requireEnd c size o baseSize d fault) fun _ => True := by
  refine (Checked.ensures_int64 _).bind ?_
  rintro length rfl
  refine (Checked.ensures_int64 _).bind ?_
  rintro past rfl
  refine (Checked.ensures_int64 _).bind ?_
  rintro last rfl
  refine (Checked.ensures_int64 _).bind ?_
  rintro basePast rfl
  refine (Checked.ensures_int64 _).bind ?_
  rintro baseLast rfl
  exact Checked.ensures_require fault (by omega)

/-- Four cells of slack reach past the last pixel, whatever the remainders. -/
theorem end_le_coarse_end (o : Int) (size d : Nat) (hd : 0 < d) :
    o + size ≤ d * (o / d) - 2 * d + ((size / d + 4 : Nat) : Int) * d := by
  have hd' : (0 : Int) < d := by exact_mod_cast hd
  have ho := Int.lt_ediv_add_one_mul_self o hd'
  have hs := Nat.lt_div_mul_add (a := size) hd
  push_cast
  have hs' : (size : Int) < (size / d : Int) * d + d := by exact_mod_cast hs
  linarith

/-- What makes the frame of a coarse level of a base frame. -/
structure CoarseOf (f base : Frame) (level : Nat) : Prop where
  level_lt : level < 30
  x0 : f.x0 = 2 ^ level * (base.x0 / 2 ^ level) - 2 * 2 ^ level
  y0 : f.y0 = 2 ^ level * (base.y0 / 2 ^ level) - 2 * 2 ^ level
  width : f.width = base.width / 2 ^ level + 4
  height : f.height = base.height / 2 ^ level + 4

theorem ensures_coarse (base : Frame) (level : Nat) :
    Ensures (base.coarse level) fun f => f.CoarseOf base level := by
  refine (Checked.ensures_cellSide level).bind ?_
  intro d hd
  have hd0 : d ≠ 0 := by
    rcases hd with ⟨-, rfl⟩ | ⟨-, rfl⟩
    · positivity
    · decide
  refine (ensures_coarseOrigin base.x0 hd0).bind ?_
  rintro x0 ⟨hx0, hlow, hhigh⟩
  obtain ⟨hlevel, rfl⟩ : level < 31 ∧ d = 2 ^ level := by
    rcases hd with h | ⟨-, rfl⟩
    · exact h
    · omega
  have hd1 : 0 < 2 ^ level := by positivity
  refine (ensures_coarseOrigin base.y0 hd0).bind ?_
  rintro y0 ⟨hy0, -⟩
  have hnat : ((2 : Int) ^ level).toNat = 2 ^ level := by
    rw [← Int.toNat_natCast (2 ^ level)]
    norm_cast
  have hx := Int.ediv_mul_le base.x0 hd0
  have hy := Int.ediv_mul_le base.y0 hd0
  have hxe := end_le_coarse_end base.x0 base.width (2 ^ level) hd1
  have hye := end_le_coarse_end base.y0 base.height (2 ^ level) hd1
  push_cast at hxe hye
  refine (ensures_requireStart _ (by linarith)).bind fun _ _ => ?_
  refine (ensures_requireStart _ (by linarith)).bind fun _ _ => ?_
  refine (ensures_requireEnd _ (by rw [hnat, hx0]; push_cast; exact hxe)).bind fun _ _ => ?_
  refine (ensures_requireEnd _ (by rw [hnat, hy0]; push_cast; exact hye)).bind fun _ _ => ?_
  refine ⟨?_, hx0, hy0, by rw [hnat], by rw [hnat]⟩
  by_contra hge
  obtain rfl : level = 30 := by omega
  norm_num at hhigh

theorem CoarseOf.dvd_x0 {f base : Frame} {level : Nat} (h : f.CoarseOf base level) :
    (2 : Int) ^ level ∣ f.x0 := by
  rw [h.x0]
  exact Int.dvd_sub (dvd_mul_right _ _) (dvd_mul_left _ _)

theorem CoarseOf.dvd_y0 {f base : Frame} {level : Nat} (h : f.CoarseOf base level) :
    (2 : Int) ^ level ∣ f.y0 := by
  rw [h.y0]
  exact Int.dvd_sub (dvd_mul_right _ _) (dvd_mul_left _ _)

theorem ensures_requireWindows (stride : Int) (count : Nat) (offset reach : Int) :
    Ensures (requireWindows stride count offset reach) fun _ => True := by
  refine (Checked.ensures_int32 _).bind fun _ _ => ?_
  refine (Checked.ensures_int32 _).bind fun _ _ => ?_
  refine (Checked.ensures_int32 _).bind fun _ _ => ?_
  refine (Checked.ensures_int32 _).bind fun _ _ => ?_
  exact (Checked.ensures_int32 _).bind fun _ _ => trivial

end Frame

/-- Along one axis, the window of a cell beyond the coarse frame holds no base pixel. -/
theorem window_misses_base (o : Int) (size d : Nat) (hd : 0 < d) {c p : Int}
    (hc : c < 0 ∨ ((size / d + 4 : Nat) : Int) ≤ c)
    (hlow : d * c + (d * (o / d) - 2 * d) ≤ p)
    (hhigh : p ≤ d * c + (d * (o / d) - 2 * d) + 2 * d - 2) : p - o < 0 ∨ (size : Int) ≤ p - o := by
  have hd' : (0 : Int) < d := by exact_mod_cast hd
  rcases hc with hc | hc
  · have ho := Int.ediv_mul_le o (ne_of_gt hd')
    have hm := Int.mul_le_mul_of_nonneg_left (show c ≤ -1 by omega) hd'.le
    left
    linarith
  · have he := Frame.end_le_coarse_end o size d hd
    have hm := Int.mul_le_mul_of_nonneg_left hc hd'.le
    right
    linarith

/-- Three windows of side `2 * h - 1`, a stride of `h` apart, cover one of side `4 * h - 1`. -/
theorem exists_tile {h s o p : Int} (hh : 0 < h) (hlow : h * s + o ≤ p)
    (hhigh : p ≤ h * s + o + 4 * h - 2) :
    ∃ i, s ≤ i ∧ i < s + 3 ∧ h * i + o ≤ p ∧ p ≤ h * i + o + 2 * h - 2 := by
  by_cases h0 : p ≤ h * s + o + 2 * h - 2
  · exact ⟨s, le_refl _, by omega, hlow, h0⟩
  by_cases h2 : h * s + o + 2 * h ≤ p
  · refine ⟨s + 2, by omega, by omega, ?_, ?_⟩ <;> rw [mul_add] <;> linarith
  · refine ⟨s + 1, by omega, by omega, ?_, ?_⟩ <;> rw [mul_add] <;> linarith [Int.not_le.mp h2]

theorem tile_subset {h s o p i : Int} (hh : 0 < h) (hlow : s ≤ i) (hhigh : i < s + 3)
    (hp : h * i + o ≤ p) (hp' : p ≤ h * i + o + 2 * h - 2) :
    h * s + o ≤ p ∧ p ≤ h * s + o + 4 * h - 2 := by
  have h1 := Int.mul_le_mul_of_nonneg_left hlow hh.le
  have h2 := Int.mul_le_mul_of_nonneg_left (show i ≤ s + 2 by omega) hh.le
  rw [mul_add] at h2
  constructor <;> linarith

namespace Grid

/-- The base pixels from `d * cx + x0` on, `2 * d - 1` of them along each axis. -/
def InWindow (f : Frame) (d cx cy px py : Int) : Prop :=
  (d * cx + f.x0 ≤ px ∧ px ≤ d * cx + f.x0 + 2 * d - 2) ∧
    (d * cy + f.y0 ≤ py ∧ py ≤ d * cy + f.y0 + 2 * d - 2)

/-- Every integer cell, in the grid or not, is the maximum of its window of base pixels. -/
structure Summarizes (g base : Grid) (d : Int) : Prop where
  dvd_x0 : d ∣ g.x0
  dvd_y0 : d ∣ g.y0
  value_le_iff : ∀ cx cy m, g.value cx cy ≤ m ↔
    ∀ px py, InWindow g.toFrame d cx cy px py → base.pixel px py ≤ m

theorem summarizes_self (g : Grid) : g.Summarizes g 1 := by
  refine ⟨one_dvd _, one_dvd _, ?_⟩
  intro cx cy m
  constructor
  · rintro h px py ⟨hx, hy⟩
    have hx' : px - g.x0 = cx := by omega
    have hy' : py - g.y0 = cy := by omega
    rwa [pixel, hx', hy']
  · intro h
    have := h (cx + g.x0) (cy + g.y0) ⟨by omega, by omega⟩
    simpa [pixel] using this

/-- It is enough to know the cells inside: a window beyond the frame misses the base. -/
theorem summarizes_ofFn {base : Grid} {frame : Frame} {level : Nat} {f : Nat → Nat → UInt8}
    (hf : frame.CoarseOf base.toFrame level)
    (h : ∀ (x y : Nat) m, f x y ≤ m ↔
      ∀ px py, InWindow frame (2 ^ level) x y px py → base.pixel px py ≤ m) :
    (ofFn frame f).Summarizes base (2 ^ level) := by
  have hd : 0 < 2 ^ level := by positivity
  refine ⟨hf.dvd_x0, hf.dvd_y0, ?_⟩
  intro cx cy m
  change _ ↔ ∀ px py, InWindow frame (2 ^ level) cx cy px py → base.pixel px py ≤ m
  by_cases hin : (0 ≤ cx ∧ cx < frame.width) ∧ (0 ≤ cy ∧ cy < frame.height)
  · obtain ⟨⟨hx, hx'⟩, hy, hy'⟩ := hin
    have hv := value_ofFn frame f cx.toNat cy.toNat (by omega) (by omega)
    have hw := h cx.toNat cy.toNat m
    rw [Int.toNat_of_nonneg hx, Int.toNat_of_nonneg hy] at hv hw
    rw [hv, hw]
  · have hzero : (ofFn frame f).value cx cy = 0 := by
      apply value_of_outside
      change cx < 0 ∨ cy < 0 ∨ (frame.width : Int) ≤ cx ∨ (frame.height : Int) ≤ cy
      omega
    rw [hzero]
    refine ⟨?_, fun _ => UInt8.zero_le⟩
    rintro - px py ⟨⟨hx, hx'⟩, hy, hy'⟩
    rw [hf.x0] at hx hx'
    rw [hf.y0] at hy hy'
    suffices hout : px - base.x0 < 0 ∨ py - base.y0 < 0 ∨ (base.width : Int) ≤ px - base.x0 ∨
        (base.height : Int) ≤ py - base.y0 by
      rw [pixel, base.value_of_outside hout]
      exact UInt8.zero_le
    by_cases hcx : cx < 0 ∨ (frame.width : Int) ≤ cx
    · have := window_misses_base base.x0 base.width (2 ^ level) hd (c := cx) (p := px)
        (by rwa [hf.width] at hcx) (by push_cast; exact hx) (by push_cast; exact hx')
      tauto
    · have hcy : cy < 0 ∨ (frame.height : Int) ≤ cy := by omega
      have := window_misses_base base.y0 base.height (2 ^ level) hd (c := cy) (p := py)
        (by rwa [hf.height] at hcy) (by push_cast; exact hy) (by push_cast; exact hy')
      tauto

/-- The frame and the maxima determine a level. -/
structure IsLevel (g base : Grid) (level : Nat) : Prop where
  frame : if level = 0 then g.toFrame = base.toFrame else base.coarse level = .ok g.toFrame
  summarizes : g.Summarizes base (2 ^ level)

theorem isLevel_zero (g : Grid) : g.IsLevel g 0 := ⟨rfl, by simpa using summarizes_self g⟩

theorem IsLevel.unique {g g' base : Grid} {level : Nat} (h : g.IsLevel base level)
    (h' : g'.IsLevel base level) : g = g' := by
  have hf : g.toFrame = g'.toFrame := by
    have h1 := h.frame
    have h2 := h'.frame
    split at h1
    · rw [if_pos ‹_›] at h2
      exact h1.trans h2.symm
    · rw [if_neg ‹_›, h1] at h2
      exact Except.ok.inj h2
  apply eq_of_values hf
  intro ix iy
  apply UInt8.eq_of_upper_bounds
  intro m
  rw [h.summarizes.value_le_iff, h'.summarizes.value_le_iff, hf]

theorem ensures_tabulate (frame : Frame) (f : Nat → Nat → UInt8) :
    Ensures (tabulate frame f) (· = ofFn frame f) :=
  (Checked.ensures_nat64 _).bind fun _ _ => rfl

theorem ensures_windowLevel (base : Grid) {level : Nat} (hl : 0 < level) :
    Ensures (base.windowLevel level) fun g => g.IsLevel base level := by
  refine ((Frame.ensures_coarse base.toFrame level).imp fun f e h => And.intro e h).bind ?_
  rintro frame ⟨hcoarse, hf⟩
  rw [Checked.cellSide_of_lt (by have := hf.level_lt; omega)]
  refine (Frame.ensures_requireWindows _ _ _ _).bind fun _ _ => ?_
  refine (Frame.ensures_requireWindows _ _ _ _).bind fun _ _ => ?_
  refine (Frame.ensures_requireWindows _ _ _ _).bind fun _ _ => ?_
  refine (Frame.ensures_requireWindows _ _ _ _).bind fun _ _ => ?_
  refine (ensures_tabulate _ _).mono ?_
  rintro g rfl
  refine ⟨by rw [if_neg hl.ne']; exact hcoarse, summarizes_ofFn hf ?_⟩
  intro x y m
  have hd : (0 : Int) < 2 ^ level := by positivity
  rw [squareMax_le_iff, Int.toNat_of_nonneg (by omega)]
  constructor
  · rintro h px py ⟨hx, hy⟩
    exact h (px - base.x0) (py - base.y0) (by omega) (by omega) (by omega) (by omega)
  · intro h i j hi hi' hj hj'
    have := h (i + base.x0) (j + base.y0) ⟨by omega, by omega⟩
    simpa [pixel] using this

/-- The window of a coarse cell starts where that of its first cell on the level before does. -/
theorem decimate_start {c c' : Int} {level : Nat} (hc : (2 : Int) ^ level ∣ c)
    (hc' : (2 : Int) ^ (level + 1) ∣ c') (n : Nat) :
    2 ^ level * (2 * n - (c - c').tdiv (2 ^ level)) + c = 2 ^ (level + 1) * n + c' := by
  have hdvd : (2 : Int) ^ level ∣ c - c' :=
    Int.dvd_sub hc ((pow_dvd_pow 2 (Nat.le_succ level)).trans hc')
  rw [mul_sub, Int.mul_tdiv_cancel' hdvd, pow_succ]
  ring

theorem ensures_decimate {prev base : Grid} {level : Nat}
    (hprev : prev.Summarizes base (2 ^ level)) :
    Ensures (prev.decimate base.toFrame (level + 1)) fun g => g.IsLevel base (level + 1) := by
  refine ((Frame.ensures_coarse base.toFrame (level + 1)).imp fun f e h => And.intro e h).bind ?_
  rintro frame ⟨hcoarse, hf⟩
  rw [Nat.add_sub_cancel, Checked.cellSide_of_lt (by have := hf.level_lt; omega)]
  refine (Checked.ensures_int32 _).bind ?_
  rintro gapX ⟨rfl, -⟩
  refine (Checked.ensures_int32 _).bind ?_
  rintro gapY ⟨rfl, -⟩
  refine (Frame.ensures_requireWindows _ _ _ _).bind fun _ _ => ?_
  refine (Frame.ensures_requireWindows _ _ _ _).bind fun _ _ => ?_
  refine (ensures_tabulate _ _).mono ?_
  rintro g rfl
  refine ⟨hcoarse, summarizes_ofFn hf ?_⟩
  intro x y m
  have hx0 := decimate_start hprev.dvd_x0 hf.dvd_x0 x
  have hy0 := decimate_start hprev.dvd_y0 hf.dvd_y0 y
  have hh : (0 : Int) < 2 ^ level := by positivity
  have hd : (2 : Int) ^ (level + 1) = 2 * 2 ^ level := by rw [pow_succ, mul_comm]
  rw [squareMax_le_iff]
  -- the windows of the three cells along each axis make up the window of the new one
  constructor
  · rintro h px py ⟨⟨hx, hx'⟩, hy, hy'⟩
    obtain ⟨i, hi⟩ := exists_tile hh (hx0 ▸ hx) (by rw [hx0]; linarith)
    obtain ⟨j, hj⟩ := exists_tile hh (hy0 ▸ hy) (by rw [hy0]; linarith)
    exact (hprev.value_le_iff i j m).mp (h i j hi.1 hi.2.1 hj.1 hj.2.1) px py
      ⟨hi.2.2, hj.2.2⟩
  · intro h i j hi hi' hj hj'
    apply (hprev.value_le_iff i j m).mpr
    rintro px py ⟨hx, hy⟩
    have hpx := tile_subset hh hi hi' hx.1 hx.2
    have hpy := tile_subset hh hj hj' hy.1 hy.2
    rw [hx0] at hpx
    rw [hy0] at hpy
    exact h px py ⟨⟨hpx.1, by linarith [hpx.2]⟩, hpy.1, by linarith [hpy.2]⟩

end Grid

end ScanMatch
