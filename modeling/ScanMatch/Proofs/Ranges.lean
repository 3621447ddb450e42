import ScanMatch.Proofs.Partition
import ScanMatch.Proofs.Regrouping

/-! # Computations that stay in range

Where the inputs are bounded, no integer overflows: not while a pyramid is built, not while a
request is seeded, and not in a weighted sum over a scan.
-/
namespace ScanMatch

open Checked (Ensures)

namespace Checked

variable {α β : Type}

/-- No integer leaves its range. -/
def Contained (a : Checked α) : Prop := a ≠ .error .overflow

theorem contained_ok (x : α) : Contained (.ok x) := by simp [Contained]

theorem contained_error {f : Fault} (h : f ≠ .overflow) : Contained (.error f : Checked α) :=
  fun heq => h (Except.error.inj heq)

theorem contained_of_ok {a : Checked α} {x : α} (h : a = .ok x) : Contained a := by
  rw [h]
  exact contained_ok x

theorem Contained.bind {a : Checked α} {f : α → Checked β} (ha : Contained a)
    (hf : ∀ x, a = .ok x → Contained (f x)) : Contained (a >>= f) := by
  cases a with
  | ok x => exact hf x rfl
  | error e => exact contained_error fun h => ha (congrArg Except.error h)

theorem Contained.map {a : Checked α} (ha : Contained a) (f : α → β) : Contained (a.map f) := by
  cases a with
  | ok x => exact contained_ok (f x)
  | error e => exact contained_error fun h => ha (congrArg Except.error h)

/-- The signed 32-bit numbers. -/
def InInt32 (n : Int) : Prop := -2147483648 ≤ n ∧ n ≤ 2147483647

theorem int32_of_mem {n : Int} (h : InInt32 n) : int32 n = .ok n := if_pos h

theorem int64_of_mem {n : Int} (h : -9223372036854775808 ≤ n ∧ n ≤ 9223372036854775807) :
    int64 n = .ok n := if_pos h

theorem nat32_of_le {n : Nat} (h : n ≤ 4294967295) : nat32 n = .ok n := if_pos h

theorem nat64_of_le {n : Nat} (h : n ≤ 18446744073709551615) : nat64 n = .ok n := if_pos h

theorem floorDiv_of_mem {a b : Int} (hb : b ≠ 0) (h : InInt32 (a / b)) :
    floorDiv a b = .ok (a / b) := by
  rw [floorDiv, if_neg hb, int32_of_mem h]

theorem Contained.bind_int32 {n : Int} {f : Int → Checked β} (h : InInt32 n)
    (hf : Contained (f n)) : Contained (int32 n >>= f) := by
  rw [int32_of_mem h]
  exact hf

theorem Contained.bind_int64 {n : Int} {f : Int → Checked β}
    (h : -9223372036854775808 ≤ n ∧ n ≤ 9223372036854775807) (hf : Contained (f n)) :
    Contained (int64 n >>= f) := by
  rw [int64_of_mem h]
  exact hf

theorem contained_require (p : Prop) [Decidable p] {f : Fault} (h : f ≠ .overflow) :
    Contained (require p f) := by
  rw [require]
  split
  · exact contained_ok ()
  · exact contained_error h

end Checked

open Checked (Contained InInt32)

theorem ediv_mem_of_mul {n d q : Int} (hd : 0 < d) (h : -(d * q) ≤ n ∧ n ≤ d * q) :
    -q ≤ n / d ∧ n / d ≤ q := by
  constructor
  · rw [Int.le_ediv_iff_mul_le hd]
    linarith
  · rw [← Int.lt_add_one_iff, Int.ediv_lt_iff_lt_mul hd]
    linarith

/-- Division by a positive number leads no further away from zero. -/
theorem ediv_mem {n d b : Int} (hd : 0 < d) (hb : 0 ≤ b) (h : -b ≤ n ∧ n ≤ b) :
    -b ≤ n / d ∧ n / d ≤ b := by
  have hle : b ≤ d * b := le_mul_of_one_le_left hb hd
  exact ediv_mem_of_mul hd ⟨by linarith, by linarith⟩

theorem pow_level_mem {level : Nat} (h : level < 30) :
    (1 : Int) ≤ 2 ^ level ∧ (2 : Int) ^ level ≤ 536870912 := by
  have hpow : (2 : Int) ^ level ≤ 2 ^ 29 := pow_le_pow_right₀ (by decide) (by omega)
  exact ⟨one_le_pow₀ (by decide), by simpa using hpow⟩

/-! ### Pyramids -/

namespace Frame

/-- Neither the origin nor the size exceeds `b`. -/
structure Within (f : Frame) (b : Int) : Prop where
  x0 : -b ≤ f.x0 ∧ f.x0 ≤ b
  y0 : -b ≤ f.y0 ∧ f.y0 ≤ b
  width : f.width ≤ b
  height : f.height ≤ b

/-- Neither the origin nor the size exceeds 2^28. -/
structure Moderate (f : Frame) : Prop where
  x0 : -268435456 ≤ f.x0 ∧ f.x0 ≤ 268435456
  y0 : -268435456 ≤ f.y0 ∧ f.y0 ≤ 268435456
  width : f.width ≤ 268435456
  height : f.height ≤ 268435456

theorem Moderate.within {f : Frame} (h : f.Moderate) : f.Within 268435456 :=
  ⟨h.x0, h.y0, Int.ofNat_le.mpr h.width, Int.ofNat_le.mpr h.height⟩

theorem contained_coarseOrigin {o b d : Int} (hd : 1 ≤ d) (hfit : b + 3 * d ≤ 2147483648)
    (ho : -b ≤ o ∧ o ≤ b) : Contained (coarseOrigin o d) := by
  have hdiv := ediv_mem (by omega : 0 < d) (by omega) ho
  have hle := Int.mul_ediv_self_le (x := o) (by omega : d ≠ 0)
  have hlt := Int.lt_mul_ediv_self_add (x := o) (by omega : 0 < d)
  rw [coarseOrigin, Checked.floorDiv_of_mem (by omega) (by constructor <;> omega)]
  refine Contained.bind_int32 (by constructor <;> omega) ?_
  refine Contained.bind_int32 (by constructor <;> omega) ?_
  exact Checked.contained_of_ok (Checked.int32_of_mem (by constructor <;> omega))

theorem coarseOrigin_mem {o d : Int} (hd : 0 < d) :
    o - 3 * d < d * (o / d) - 2 * d ∧ d * (o / d) - 2 * d ≤ o - 2 * d := by
  have hle := Int.mul_ediv_self_le (x := o) hd.ne'
  have hlt := Int.lt_mul_ediv_self_add (x := o) hd
  constructor <;> omega

theorem coarseOrigin_ediv {o d : Int} (hd : 0 < d) :
    (d * (o / d) - 2 * d) / d = o / d - 2 := by
  rw [mul_comm 2, ← mul_sub, Int.mul_ediv_cancel_left _ hd.ne']

theorem contained_requireStart {c o d : Int} {fault : Fault} (hfault : fault ≠ .overflow)
    (hd : 1 ≤ d) (hc : -2147483648 ≤ c) (hc' : c + 2 * d ≤ 2147483647)
    (hd' : 2 * d ≤ 2147483647) : Contained (requireStart c o d fault) := by
  refine Contained.bind_int32 (by constructor <;> omega) ?_
  refine Contained.bind_int32 (by constructor <;> omega) ?_
  refine Contained.bind_int32 (by constructor <;> omega) ?_
  exact Checked.contained_require _ hfault

theorem contained_requireEnd {c o d : Int} {size baseSize : Nat} {fault : Fault}
    (hfault : fault ≠ .overflow) (hc : InInt32 c) (ho : InInt32 o)
    (hsize : 0 ≤ size * d ∧ size * d ≤ 4294967296) (hbase : (baseSize : Int) ≤ 2147483648) :
    Contained (requireEnd c size o baseSize d fault) := by
  obtain ⟨hc, hc'⟩ := hc
  obtain ⟨ho, ho'⟩ := ho
  refine Contained.bind_int64 (by constructor <;> omega) ?_
  refine Contained.bind_int64 (by constructor <;> omega) ?_
  refine Contained.bind_int64 (by constructor <;> omega) ?_
  refine Contained.bind_int64 (by constructor <;> omega) ?_
  refine Contained.bind_int64 (by constructor <;> omega) ?_
  exact Checked.contained_require _ hfault

/-- All cells of a coarse axis together are little longer than the base. -/
theorem coarse_length_mem (size d : Nat) :
    (0 : Int) ≤ (size / d + 4 : Nat) * d ∧ ((size / d + 4 : Nat) : Int) * d ≤ size + 4 * d := by
  have hdiv : ((size / d * d : Nat) : Int) ≤ size := Int.ofNat_le.mpr (Nat.div_mul_le_self size d)
  push_cast at hdiv ⊢
  constructor
  · positivity
  · rw [add_mul]
    omega

/-- Coarse cells up to a third of what 32 bits leave beside the base are not too wide. -/
theorem contained_coarse {base : Frame} {b : Int} {level : Nat} (hbase : base.Within b)
    (hfit : b + 3 * 2 ^ level ≤ 2147483648) : Contained (base.coarse level) := by
  obtain ⟨hx0, hy0, hwidth, hheight⟩ := hbase
  have hd : (1 : Int) ≤ 2 ^ level := one_le_pow₀ (by decide)
  have hlevel : level < 31 := by
    by_contra hge
    have hpow : (2 : Int) ^ 31 ≤ 2 ^ level := pow_le_pow_right₀ (by decide) (by omega)
    omega
  have hnat : ((2 : Int) ^ level).toNat = 2 ^ level := by
    rw [← Int.toNat_natCast (2 ^ level)]
    norm_cast
  have hcast : ((2 ^ level : Nat) : Int) = 2 ^ level := by push_cast; rfl
  rw [coarse, Checked.cellSide_of_lt hlevel]
  refine (contained_coarseOrigin hd hfit hx0).bind ?_
  intro x0 hx
  obtain ⟨rfl, -⟩ := (ensures_coarseOrigin base.x0 (by omega)).of_ok hx
  refine (contained_coarseOrigin hd hfit hy0).bind ?_
  intro y0 hy
  obtain ⟨rfl, -⟩ := (ensures_coarseOrigin base.y0 (by omega)).of_ok hy
  obtain ⟨hx, hx'⟩ := coarseOrigin_mem (o := base.x0) (by omega : (0 : Int) < 2 ^ level)
  obtain ⟨hy, hy'⟩ := coarseOrigin_mem (o := base.y0) (by omega : (0 : Int) < 2 ^ level)
  have hlengthX := coarse_length_mem base.width (2 ^ level)
  have hlengthY := coarse_length_mem base.height (2 ^ level)
  rw [hcast] at hlengthX hlengthY
  rw [hnat]
  apply Contained.bind
  · exact contained_requireStart (by simp) hd (by omega) (by omega) (by omega)
  intro _ _
  apply Contained.bind
  · exact contained_requireStart (by simp) hd (by omega) (by omega) (by omega)
  intro _ _
  apply Contained.bind
  · exact contained_requireEnd (by simp) ⟨by omega, by omega⟩ ⟨by omega, by omega⟩
      ⟨hlengthX.1, by omega⟩ (by omega)
  intro _ _
  apply Contained.bind
  · exact contained_requireEnd (by simp) ⟨by omega, by omega⟩ ⟨by omega, by omega⟩
      ⟨hlengthY.1, by omega⟩ (by omega)
  exact fun _ _ => Checked.contained_ok _

theorem contained_requireWindows {count : Nat} {offset : Int} (hcount : count ≤ 536870916)
    (hoffset : -5 ≤ offset ∧ offset ≤ 0) : Contained (requireWindows 2 count offset 2) := by
  refine Contained.bind_int32 (by constructor <;> omega) ?_
  refine Contained.bind_int32 (by constructor <;> omega) ?_
  refine Contained.bind_int32 (by constructor <;> omega) ?_
  refine Contained.bind_int32 (by constructor <;> omega) ?_
  refine Contained.bind_int32 (by constructor <;> omega) ?_
  exact Checked.contained_ok _

end Frame

namespace Grid

/-- Along one axis, a level starts at most five cells of the level before ahead of it. -/
theorem exists_gap {o h p : Int} (hh : 0 < h) (hp : p = h * (o / h) - 2 * h ∨ h = 1 ∧ p = o) :
    ∃ k, 0 ≤ k ∧ k ≤ 5 ∧ p - (h * 2 * (o / (h * 2)) - 2 * (h * 2)) = h * k := by
  have hdiv : o / (h * 2) = o / h / 2 := (Int.ediv_ediv_of_nonneg hh.le).symm
  rcases hp with rfl | ⟨rfl, rfl⟩
  · refine ⟨o / h % 2 + 2, by omega, by omega, ?_⟩
    rw [hdiv, Int.emod_def]
    ring
  · refine ⟨p % 2 + 4, by omega, by omega, ?_⟩
    rw [hdiv, Int.ediv_one, Int.emod_def]
    ring

theorem contained_decimate {prev base : Grid} {b : Int} {level : Nat} (hbase : base.Within b)
    (hb : b ≤ 1073741824) (hprev : prev.IsLevel base level)
    (hfit : b + 3 * 2 ^ (level + 1) ≤ 2147483648) :
    Contained (prev.decimate base.toFrame (level + 1)) := by
  have hpow : (2 : Int) ^ (level + 1) = 2 * 2 ^ level := by rw [pow_succ, mul_comm]
  have hone : (1 : Int) ≤ 2 ^ level := one_le_pow₀ (by decide)
  have horigin : (prev.x0 = 2 ^ level * (base.x0 / 2 ^ level) - 2 * 2 ^ level ∨
        (2 : Int) ^ level = 1 ∧ prev.x0 = base.x0) ∧
      (prev.y0 = 2 ^ level * (base.y0 / 2 ^ level) - 2 * 2 ^ level ∨
        (2 : Int) ^ level = 1 ∧ prev.y0 = base.y0) := by
    have hframe := hprev.frame
    split at hframe
    · next h0 =>
      rw [h0, hframe]
      exact ⟨Or.inr ⟨rfl, rfl⟩, Or.inr ⟨rfl, rfl⟩⟩
    · have hcoarse := (Frame.ensures_coarse base.toFrame level).of_ok hframe
      exact ⟨Or.inl hcoarse.x0, Or.inl hcoarse.y0⟩
  refine (Frame.contained_coarse hbase hfit).bind ?_
  intro frame hframe
  have hcoarse := (Frame.ensures_coarse base.toFrame (level + 1)).of_ok hframe
  have hlevel := hcoarse.level_lt
  obtain ⟨kx, hkx, hkx', hgapX⟩ := exists_gap (by omega) horigin.1
  obtain ⟨ky, hky, hky', hgapY⟩ := exists_gap (by omega) horigin.2
  rw [← pow_succ, ← hcoarse.x0] at hgapX
  rw [← pow_succ, ← hcoarse.y0] at hgapY
  have hhalf (size : Nat) (hsize : (size : Int) ≤ b) :
      size / 2 ^ (level + 1) + 4 ≤ 536870916 := by
    have hdiv : size / 2 ^ (level + 1) ≤ size / 2 :=
      Nat.div_le_div_left (Nat.le_self_pow level.succ_ne_zero 2) (by decide)
    omega
  have hgap (k : Int) (hk : 0 ≤ k) (hk' : k ≤ 5) : InInt32 (2 ^ level * k) := by
    have hx0 := hbase.x0
    constructor <;> nlinarith
  have hwidth := hcoarse.width ▸ hhalf _ hbase.width
  have hheight := hcoarse.height ▸ hhalf _ hbase.height
  rw [Nat.add_sub_cancel, Checked.cellSide_of_lt (by omega)]
  refine Contained.bind_int32 (hgapX ▸ hgap kx hkx hkx') ?_
  refine Contained.bind_int32 (hgapY ▸ hgap ky hky hky') ?_
  rw [hgapX, hgapY, Int.mul_tdiv_cancel_left _ (by omega), Int.mul_tdiv_cancel_left _ (by omega)]
  refine (Frame.contained_requireWindows hwidth ⟨by omega, by omega⟩).bind fun _ _ => ?_
  refine (Frame.contained_requireWindows hheight ⟨by omega, by omega⟩).bind fun _ _ => ?_
  have hcells : frame.width * frame.height ≤ 18446744073709551615 :=
    (Nat.mul_le_mul hwidth hheight).trans (by decide)
  rw [tabulate, Checked.nat64_of_le hcells]
  exact Checked.contained_ok _

end Grid

namespace Pyramid

variable {S : Type}

theorem contained_decimated {base : Grid} {b : Int} (hbase : base.Within b)
    (hb : b ≤ 1073741824) (n : Nat) :
    ∀ (prev : Grid) (level : Nat), prev.IsLevel base level →
      b + 3 * 2 ^ (level + n) ≤ 2147483648 →
      Contained (decimated base.toFrame prev (level + 1) n) := by
  induction n with
  | zero =>
    intro prev level _ _
    exact Checked.contained_ok _
  | succ n ih =>
    intro prev level hprev hfit
    have hpow : (2 : Int) ^ (level + 1) ≤ 2 ^ (level + (n + 1)) :=
      pow_le_pow_right₀ (by decide) (by omega)
    refine (Grid.contained_decimate hbase hb hprev (by omega)).bind ?_
    intro next hnext
    have hlevel' := (Grid.ensures_decimate hprev.summarizes).of_ok hnext
    rw [show level + (n + 1) = level + 1 + n by omega] at hfit
    refine (ih next (level + 1) hlevel' hfit).bind ?_
    exact fun _ _ => Checked.contained_ok _

/-- What limits the number of levels is that three coarsest cells beside the base have to fit. -/
theorem build_of_within {base : Grid} {b : Int} (hbase : base.Within b) (hb : b ≤ 1073741824)
    (metersPerPixel : S) {n : Nat} (h1 : 1 ≤ n) (hfit : b + 3 * 2 ^ (n - 1) ≤ 2147483648) :
    ∃ p, build base metersPerPixel n = .ok p ∧ p.Represents base metersPerPixel n := by
  have hcontained : Contained (build base metersPerPixel n) := by
    rw [build, Checked.require, if_pos h1]
    refine (contained_decimated hbase hb (n - 1) base 0 base.isLevel_zero ?_).bind ?_
    · rwa [zero_add]
    · exact fun _ _ => Checked.contained_ok _
  exact (ensures_build base metersPerPixel h1).exists_ok hcontained

/-- Thirty levels are the most that there can be. -/
theorem build_ok {base : Grid} (hbase : base.Moderate) (metersPerPixel : S) {n : Nat}
    (h1 : 1 ≤ n) (h30 : n ≤ 30) : ∃ p, build base metersPerPixel n = .ok p ∧
      p.numLevels = n ∧ p.metersPerPixel = metersPerPixel := by
  have hpow := pow_level_mem (show n - 1 < 30 by omega)
  obtain ⟨p, hp, hrep⟩ :=
    build_of_within hbase.within (by decide) metersPerPixel h1 (by omega)
  exact ⟨p, hp, hrep.ascend.length, hrep.metersPerPixel⟩

/-- How a level lies on the one below it: both origins are aligned, and the base is covered. -/
structure Stacked (base prev g : Grid) (level : Nat) : Prop where
  dvd_x0 : (2 : Int) ^ (level + 1) ∣ g.x0
  dvd_y0 : (2 : Int) ^ (level + 1) ∣ g.y0
  dvd_padX : (2 : Int) ^ level ∣ prev.x0 - g.x0
  dvd_padY : (2 : Int) ^ level ∣ prev.y0 - g.y0
  left : g.x0 + 2 * 2 ^ (level + 1) - 2 ≤ base.x0
  top : g.y0 + 2 * 2 ^ (level + 1) - 2 ≤ base.y0
  right : base.x0 + base.width ≤ g.x0 + g.width * 2 ^ (level + 1)
  bottom : base.y0 + base.height ≤ g.y0 + g.height * 2 ^ (level + 1)

theorem Represents.exists_stacked {p : Pyramid S} {base : Grid} {metersPerPixel : S} {n k : Nat}
    (h : p.Represents base metersPerPixel n) (hk : k + 1 < n) :
    ∃ prev g, p.level k = .ok prev ∧ p.level (k + 1) = .ok g ∧ Stacked base prev g k := by
  obtain ⟨prev, hprev, hprevLevel⟩ := h.exists_level (show k < n by omega)
  obtain ⟨g, hg, hlevel⟩ := h.exists_level hk
  have hcoarse := (Frame.ensures_coarse base.toFrame (k + 1)).of_ok
    (by simpa using hlevel.frame)
  have hhalf : (2 : Int) ^ k ∣ 2 ^ (k + 1) := pow_dvd_pow 2 (Nat.le_succ k)
  have hd : 0 < 2 ^ (k + 1) := by positivity
  have hx := Int.mul_ediv_self_le (x := base.x0) (k := 2 ^ (k + 1)) (by positivity)
  have hy := Int.mul_ediv_self_le (x := base.y0) (k := 2 ^ (k + 1)) (by positivity)
  have hright := Frame.end_le_coarse_end base.x0 base.width _ hd
  have hbottom := Frame.end_le_coarse_end base.y0 base.height _ hd
  rw [← hcoarse.width] at hright
  rw [← hcoarse.height] at hbottom
  push_cast at hright hbottom
  rw [← hcoarse.x0] at hright
  rw [← hcoarse.y0] at hbottom
  have hx0 := hcoarse.x0
  have hy0 := hcoarse.y0
  refine ⟨prev, g, level_eq_ok hprev, level_eq_ok hg, ?_⟩
  constructor
  case dvd_x0 => exact hcoarse.dvd_x0
  case dvd_y0 => exact hcoarse.dvd_y0
  case dvd_padX =>
    exact Int.dvd_sub hprevLevel.summarizes.dvd_x0 (hhalf.trans hcoarse.dvd_x0)
  case dvd_padY =>
    exact Int.dvd_sub hprevLevel.summarizes.dvd_y0 (hhalf.trans hcoarse.dvd_y0)
  case left => omega
  case top => omega
  case right => exact hright
  case bottom => exact hbottom

/-- Over a base of up to 2^29 cells each way, at most 2^29 from the origin, up to 29 levels can be
built. Each is aligned to its own cells and to those of the level below, and every cell of it has
a score. -/
theorem build_completes {base : Grid} (hbase : base.Within 536870912) (metersPerPixel : S)
    {n : Nat} (h1 : 1 ≤ n) (h29 : n ≤ 29) :
    ∃ p, build base metersPerPixel n = .ok p ∧ p.numLevels = n ∧ p.level 0 = .ok base ∧
      (∀ k, k + 1 < n →
        ∃ prev g, p.level k = .ok prev ∧ p.level (k + 1) = .ok g ∧ Stacked base prev g k) ∧
      ∀ g ∈ p.levels, ∀ ix iy, g.get? ix iy = none ↔
        ix < 0 ∨ iy < 0 ∨ (g.width : Int) ≤ ix ∨ (g.height : Int) ≤ iy := by
  have hpow : (2 : Int) ^ (n - 1) ≤ 2 ^ 28 := pow_le_pow_right₀ (by decide) (by omega)
  obtain ⟨p, hp, hrep⟩ := build_of_within hbase (by decide) metersPerPixel h1 (by omega)
  obtain ⟨g, hg, hlevel⟩ := hrep.exists_level (show 0 < n by omega)
  obtain rfl := hlevel.unique base.isLevel_zero
  exact ⟨p, hp, hrep.ascend.length, level_eq_ok hg, fun k hk => hrep.exists_stacked hk,
    fun g _ ix iy => g.get?_eq_none_iff⟩

/-- As many levels as there can be, over a base that is empty along one axis and as far from the
origin as it can be. -/
theorem build_completes_farthest :
    let base := Grid.ofFn ⟨0, 1, -536870912, 536870911⟩ fun _ _ => 255
    base.Within 536870912 ∧ 1 ≤ 29 ∧ 29 ≤ 29 ∧
    ∃ p : Pyramid Nat, build base 1 29 = .ok p ∧ p.numLevels = 29 ∧ p.level 0 = .ok base ∧
      (∀ k, k + 1 < 29 →
        ∃ prev g, p.level k = .ok prev ∧ p.level (k + 1) = .ok g ∧ Stacked base prev g k) ∧
      ∀ g ∈ p.levels, ∀ ix iy, g.get? ix iy = none ↔
        ix < 0 ∨ iy < 0 ∨ (g.width : Int) ≤ ix ∨ (g.height : Int) ≤ iy := by
  intro base
  have hbase : base.Within 536870912 := by constructor <;> decide
  exact ⟨hbase, by decide, le_rfl, build_completes hbase 1 (by decide) le_rfl⟩

theorem build_overflow (base : Grid) (metersPerPixel : S) {n : Nat} (hn : 31 ≤ n) :
    build base metersPerPixel n = .error .overflow := by
  have hbuilt := ensures_build base metersPerPixel (show 1 ≤ n by omega)
  cases hbuild : build base metersPerPixel n with
  | ok p =>
    have hlength : p.levels.size = n := (hbuilt.of_ok hbuild).ascend.length
    obtain ⟨_, hlevels⟩ := Built.summarizes (p := p) ⟨base, _, n, Or.inl hbuild⟩
    have hlevel : p.levels[30]? = some p.levels[30] := Array.getElem?_eq_getElem (by omega)
    exact absurd (hlevels 30 _ hlevel).1 (by decide)
  | error f => rw [hbuilt.of_error hbuild]

end Pyramid

/-! ### Blocks -/

namespace Block

theorem covering_ok {t0 t1 : Int} {level : Nat} (hlevel : level < 30)
    (h0 : -1610612735 ≤ t0 ∧ t0 ≤ 1610612735) (h1 : -1610612735 ≤ t1 ∧ t1 ≤ 1610612735) :
    ∃ bs, covering t0 t1 (2 ^ level) = .ok bs := by
  obtain ⟨hlow, hhigh⟩ := pow_level_mem hlevel
  have hdiv0 := ediv_mem (by omega : (0 : Int) < 2 ^ level) (by decide) h0
  have hdiv1 := ediv_mem (by omega : (0 : Int) < 2 ^ level) (by decide) h1
  have hle := Int.mul_ediv_self_le (x := t1) (by omega : (2 : Int) ^ level ≠ 0)
  have hlt := Int.lt_mul_ediv_self_add (x := t1) (by omega : (0 : Int) < 2 ^ level)
  rw [covering, Checked.floorDiv_of_mem (by omega) (by constructor <;> omega),
    Checked.floorDiv_of_mem (by omega) (by constructor <;> omega)]
  simp only [bind, Except.bind]
  rw [Checked.int32_of_mem (by rw [mul_add]; constructor <;> omega)]
  exact ⟨_, rfl⟩

theorem contained_meets {b d t0 t1 : Int} (hd : 1 ≤ d ∧ d ≤ 536870912)
    (hb : -1610612736 ≤ b * d ∧ b * d ≤ 1073741824) : Contained (meets b d t0 t1) := by
  refine Contained.bind_int32 (by constructor <;> omega) ?_
  split
  · exact Checked.contained_ok _
  · refine Contained.bind_int32 (by constructor <;> omega) ?_
    refine Contained.bind_int32 (by constructor <;> omega) ?_
    exact Checked.contained_ok _

end Block

/-- The window is not inverted, and reaches no further than so many pixels. -/
structure Request.Within {R : Type} (request : Request R) (n : Int) : Prop where
  x : request.tx0 ≤ request.tx1
  y : request.ty0 ≤ request.ty1
  x0 : -n ≤ request.tx0
  x1 : request.tx1 ≤ n
  y0 : -n ≤ request.ty0
  y1 : request.ty1 ≤ n

theorem Request.Within.mono {R : Type} {request : Request R} {m n : Int} (h : request.Within m)
    (hmn : m ≤ n) : request.Within n := by
  obtain ⟨hx, hy, hx0, hx1, hy0, hy1⟩ := h
  constructor <;> omega

section

variable {S R : Type} [Scalar R] {request : Request R}

theorem Registration.startLevel_ok (hx : InInt32 (request.tx1 - request.tx0))
    (hy : InInt32 (request.ty1 - request.ty0)) (coarsest : Nat) :
    ∃ level, startLevel request coarsest = .ok level := by
  rw [startLevel, Checked.int32_of_mem hx, Checked.int32_of_mem hy]
  simp only [bind, Except.bind]
  split
  · exact ⟨_, rfl⟩
  · exact ⟨_, rfl⟩

namespace Engine

/-- A window of moderate reach and width is seeded on every pyramid that there is. -/
theorem add_ok (e : Engine S R) (i : Nat) {pyramid : Pyramid S} {rotations : Array R}
    (hn : 2 ≤ pyramid.numLevels) (hn' : pyramid.numLevels ≤ 30)
    (h : request.Within 1610612735) (hwidth : request.tx1 - request.tx0 ≤ 2147483647)
    (hheight : request.ty1 - request.ty0 ≤ 2147483647)
    (hrotations : request.rotations = .ok rotations) :
    ∃ e', e.add i pyramid request = .ok e' := by
  obtain ⟨hx, hy, hx0, hx1, hy0, hy1⟩ := h
  obtain ⟨level, hlevel⟩ := @Registration.startLevel_ok R _ request (by constructor <;> omega)
    (by constructor <;> omega) (pyramid.numLevels - 1)
  have hlt := Registration.startLevel_cases hlevel (by omega)
  have hlevel30 : level < 30 := by omega
  obtain ⟨ys, hys⟩ := Block.covering_ok hlevel30 ⟨hy0, hy.trans hy1⟩ ⟨hy0.trans hy, hy1⟩
  obtain ⟨xs, hxs⟩ := Block.covering_ok hlevel30 ⟨hx0, hx.trans hx1⟩ ⟨hx0.trans hx, hx1⟩
  have hd := Checked.cellSide_of_lt (show level < 31 by omega)
  rw [add, if_neg hx.not_gt, if_neg hy.not_gt, if_neg hn.not_gt, hlevel,
    Registration.ofRequest, hrotations]
  simp only [bind, Except.bind, pure, Except.pure, Checked.orRefuse, seeds, hd, hys, hxs]
  exact ⟨_, rfl⟩

/-- The width of a window is itself an integer of 32 bits. -/
theorem add_overflow (e : Engine S R) (i : Nat) {pyramid : Pyramid S}
    (hn : 2 ≤ pyramid.numLevels) (hx : request.tx0 ≤ request.tx1) (hy : request.ty0 ≤ request.ty1)
    (hwidth : 2147483647 < request.tx1 - request.tx0) :
    e.add i pyramid request = .error (.fault .overflow) := by
  have hoverflow : Checked.int32 (request.tx1 - request.tx0) = .error .overflow := by
    rw [Checked.int32, if_neg (by omega)]
  rw [add, if_neg hx.not_gt, if_neg hy.not_gt, if_neg hn.not_gt, Registration.startLevel,
    hoverflow]
  rfl

end Engine

end

/-! ### Weighted sums

The sums over fewer than 2^32 points are too small to overflow, so what decides is where the offset
moves the points.
-/

namespace Registration

/-- One step of a weighted sum. -/
def addCell (g : Grid) (offX offY sum : Int) (c : WeightedCell) : Checked Int := do
  let x ← Checked.int32 (c.x + offX)
  let y ← Checked.int32 (c.y + offY)
  match g.get? x y with
  | some v => Checked.int64 (sum + c.weight * v.toNat)
  | none => return sum

theorem weightedSum_eq (g : Grid) (offX offY : Int) (cells : List WeightedCell) :
    weightedSum g offX offY cells = cells.foldlM (addCell g offX offY) 0 := rfl

/-- The offset moves the cell to signed 32-bit coordinates. -/
def Lands (offX offY : Int) (c : Cell) : Prop :=
  InInt32 (c.x + offX) ∧ InInt32 (c.y + offY)

theorem addCell_of_lands (g : Grid) {offX offY n : Int} {c : WeightedCell}
    (h : Lands offX offY c.toCell) (h0 : 0 ≤ n)
    (hn : n + 255 * c.weight ≤ 9223372036854775807) :
    ∃ m, addCell g offX offY n c = .ok m ∧ n ≤ m ∧ m ≤ n + 255 * c.weight := by
  have hsum (v : UInt8) : (c.weight : Int) * v.toNat ≤ 255 * c.weight := by
    have hv : v.toNat ≤ 255 := Nat.lt_succ_iff.mp v.toNat_lt
    have := Nat.mul_le_mul_left c.weight hv
    rw [mul_comm (255 : Int)]
    exact_mod_cast this
  rw [addCell, Checked.int32_of_mem h.1, Checked.int32_of_mem h.2]
  change ∃ m, (match g.get? (c.x + offX) (c.y + offY) with
    | some v => Checked.int64 (n + c.weight * v.toNat)
    | none => .ok n) = .ok m ∧ _
  cases g.get? (c.x + offX) (c.y + offY) with
  | none => exact ⟨n, rfl, le_refl n, by omega⟩
  | some v =>
    have := hsum v
    have : 0 ≤ (c.weight : Int) * v.toNat := by positivity
    refine ⟨n + c.weight * v.toNat, Checked.int64_of_mem ⟨?_, ?_⟩, ?_, ?_⟩ <;> omega

theorem lands_of_addCell {g : Grid} {offX offY n m : Int} {c : WeightedCell}
    (h : addCell g offX offY n c = .ok m) : Lands offX offY c.toCell := by
  obtain ⟨x, hx, h⟩ := Checked.bind_eq_ok h
  obtain ⟨y, hy, -⟩ := Checked.bind_eq_ok h
  exact ⟨((Checked.ensures_int32 _).of_ok hx).2, ((Checked.ensures_int32 _).of_ok hy).2⟩

theorem foldlM_addCell_iff (g : Grid) (offX offY : Int) (ws : List WeightedCell) :
    ∀ n : Int, 0 ≤ n → n + 255 * CellSet.sumWeights ws ≤ 9223372036854775807 →
      ((∃ m, ws.foldlM (addCell g offX offY) n = .ok m) ↔
        ∀ w ∈ ws, Lands offX offY w.toCell) := by
  induction ws with
  | nil =>
    intro n _ _
    exact ⟨fun _ => nofun, fun _ => ⟨n, rfl⟩⟩
  | cons w ws ih =>
    intro n h0 hn
    have hsum : CellSet.sumWeights (w :: ws) = w.weight + CellSet.sumWeights ws := rfl
    rw [hsum] at hn
    push_cast at hn
    rw [List.foldlM_cons, List.forall_mem_cons]
    constructor
    · rintro ⟨m, h⟩
      obtain ⟨k, hk, h⟩ := Checked.bind_eq_ok h
      have hlands := lands_of_addCell hk
      obtain ⟨k', hk', hlow, hhigh⟩ := addCell_of_lands g hlands h0 (by omega)
      obtain rfl := Except.ok.inj (hk.symm.trans hk')
      exact ⟨hlands, (ih k (by omega) (by omega)).mp ⟨m, h⟩⟩
    · rintro ⟨hlands, hrest⟩
      obtain ⟨k, hk, hlow, hhigh⟩ := addCell_of_lands g hlands h0 (by omega)
      rw [hk]
      exact (ih k (by omega) (by omega)).mpr hrest

/-- What stops the sum over fewer than 2^32 points is a point that the offset moves too far. -/
theorem weightedSum_group_iff (g : Grid) (offX offY : Int) (merge : Bool) {cells : List Cell}
    (hsize : cells.length ≤ 4294967295) :
    (∃ n, weightedSum g offX offY (CellSet.group merge cells) = .ok n) ↔
      ∀ c ∈ cells, Lands offX offY c := by
  have hbound : (0 : Int) + 255 * CellSet.sumWeights (CellSet.group merge cells) ≤
      9223372036854775807 := by
    rw [CellSet.sumWeights_group]
    omega
  rw [weightedSum_eq, foldlM_addCell_iff _ _ _ _ 0 (le_refl 0) hbound]
  constructor
  · intro h c hc
    obtain ⟨w, hw, rfl⟩ := CellSet.mem_group_iff.mpr hc
    exact h w hw
  · intro h w hw
    exact h _ (CellSet.mem_group_iff.mp ⟨w, hw, rfl⟩)

/-- The sum does not depend on the grouping, and neither does its failure. -/
theorem weightedSum_group (g : Grid) (offX offY : Int) (merge merge' : Bool) {cells : List Cell}
    (hsize : cells.length ≤ 4294967295) :
    weightedSum g offX offY (CellSet.group merge cells) =
      weightedSum g offX offY (CellSet.group merge' cells) := by
  let value (c : Cell) : Int := (g.value (c.x + offX) (c.y + offY)).toNat
  have h (merge : Bool) : Ensures (weightedSum g offX offY (CellSet.group merge cells))
      (· = (cells.map value).sum) := by
    refine (ensures_weightedSum g offX offY _).mono ?_
    rintro n rfl
    exact CellSet.sum_group value merge cells
  by_cases hlands : ∀ c ∈ cells, Lands offX offY c
  · obtain ⟨n, hn⟩ := (weightedSum_group_iff g offX offY merge hsize).mpr hlands
    obtain ⟨n', hn'⟩ := (weightedSum_group_iff g offX offY merge' hsize).mpr hlands
    rw [hn, hn', (h merge).of_ok hn, (h merge').of_ok hn']
  · have fails (merge : Bool) :
        weightedSum g offX offY (CellSet.group merge cells) = .error .overflow := by
      cases hn : weightedSum g offX offY (CellSet.group merge cells) with
      | error f => rw [(h merge).of_error hn]
      | ok n => exact absurd ((weightedSum_group_iff g offX offY merge hsize).mp ⟨n, hn⟩) hlands
    rw [fails merge, fails merge']

end Registration

end ScanMatch
