import ScanMatch.Proofs.Quadratic

/-! # When the least value found is the least there is

Over a rectangle that does not hold the center, the value found is the exact minimum unless a
diagonal entry is positive and yet counts as zero. Then a side is judged by its ends, and a minimum
between them goes unseen.
-/
namespace ScanMatch

variable {m : SymMat ℝ} {mean : Vec2 ℝ} {rect : Rect ℝ}

/-- The value found is that of a point of the rectangle, and no point has a smaller one. A smaller
rectangle has no smaller minimum. -/
theorem minQuadratic_isLeast (mean : Vec2 ℝ) (hm : m.PosSemidef) (hr : m.Resolved)
    (hrect : rect.Ordered) :
    IsLeast {v | ∃ x y, rect.Holds x y ∧ v = m.quadratic (x - mean.x) (y - mean.y)}
        (minQuadratic mean m rect) ∧
      ∀ inner : Rect ℝ, inner.Ordered → (∀ x y, inner.Holds x y → rect.Holds x y) →
        minQuadratic mean m rect ≤ minQuadratic mean m inner := by
  refine ⟨⟨minQuadratic_attained m mean hrect, ?_⟩, ?_⟩
  · rintro v ⟨x, y, hp, rfl⟩
    exact minQuadratic_le hm hr hrect hp
  · intro inner hinner hsub
    exact minQuadratic_mono hm hr hrect hinner hsub

/-- A singular matrix whose zeros cross the rectangle without touching a corner or the center. -/
theorem minQuadratic_isLeast_singular :
    let m : SymMat ℝ := ⟨1, -1, 1⟩
    let mean : Vec2 ℝ := ⟨0, 0⟩
    let rect : Rect ℝ := ⟨1, 2, 0, 3⟩
    m.PosSemidef ∧ m.Resolved ∧ rect.Ordered ∧
      IsLeast {v | ∃ x y, rect.Holds x y ∧ v = m.quadratic (x - mean.x) (y - mean.y)}
        (minQuadratic mean m rect) ∧
      ∀ inner : Rect ℝ, inner.Ordered → (∀ x y, inner.Holds x y → rect.Holds x y) →
        minQuadratic mean m rect ≤ minQuadratic mean m inner := by
  intro m mean rect
  have hm : m.PosSemidef := by
    intro x y
    rw [SymMat.quadratic_eq]
    change 0 ≤ 1 * x * x + 2 * -1 * x * y + 1 * y * y
    linarith [sq_nonneg (x - y)]
  have hr : m.Resolved := by constructor <;> norm_num [m]
  have hrect : rect.Ordered := by constructor <;> norm_num [rect]
  exact ⟨hm, hr, hrect, minQuadratic_isLeast mean hm hr hrect⟩

/-- The value found exceeds that of no point of the rectangle. -/
def SymMat.Sound (m : SymMat ℝ) (mean : Vec2 ℝ) (rect : Rect ℝ) : Prop :=
  ∀ x y, rect.Holds x y → minQuadratic mean m rect ≤ m.quadratic (x - mean.x) (y - mean.y)

namespace SymMat

/-- Only a minimum that is not among the points compared can be missed. -/
theorem sound_iff_exists_compared (hm : m.PosSemidef) (hrect : rect.Ordered) :
    m.Sound mean rect ↔ rect.Holds mean.x mean.y ∨ ∃ x y, m.Compared rect x y ∧
      ∀ x' y', rect.Holds x' y' → m.quadratic (x - mean.x) (y - mean.y) ≤
        m.quadratic (x' - mean.x) (y' - mean.y) := by
  by_cases hmean : rect.Holds mean.x mean.y
  · refine iff_of_true ?_ (Or.inl hmean)
    intro x y _
    rw [minQuadratic_inside hmean]
    exact hm _ _
  obtain ⟨⟨x₀, y₀, hcomp₀, h₀⟩, hle⟩ := minQuadratic_isLeast_compared hm hrect hmean
  constructor
  · intro hsound
    refine Or.inr ⟨x₀, y₀, hcomp₀, ?_⟩
    intro x' y' hp
    rw [← h₀]
    exact hsound x' y' hp
  · rintro (h | ⟨x, y, hcomp, hmin⟩)
    · exact absurd h hmean
    · intro x' y' hp
      exact (hle ⟨x, y, hcomp, rfl⟩).trans (hmin x' y' hp)

/-- The same with the coordinates exchanged. -/
theorem Sound.flip (hm : m.PosSemidef) (hrect : rect.Ordered) (h : m.Sound mean rect) :
    m.flip.Sound ⟨mean.y, mean.x⟩ ⟨rect.y0, rect.y1, rect.x0, rect.x1⟩ := by
  rw [sound_iff_exists_compared hm hrect] at h
  rw [sound_iff_exists_compared hm.flip ⟨hrect.2, hrect.1⟩]
  rcases h with ⟨hx, hy⟩ | ⟨x, y, hcomp, hmin⟩
  · exact Or.inl ⟨hy, hx⟩
  · refine Or.inr ⟨y, x, hcomp.symm, ?_⟩
    rintro y' x' ⟨hy, hx⟩
    rw [quadratic_flip, quadratic_flip]
    exact hmin x' y' ⟨hx, hy⟩

/-- Along a line the quadratic is a parabola over its stationary point. -/
theorem quadratic_stationary (h : m.yy ≠ 0) (e y : ℝ) :
    m.quadratic e y = m.quadratic e (-(m.xy * e / m.yy)) + m.yy * (y + m.xy * e / m.yy) ^ 2 := by
  rw [quadratic_eq, quadratic_eq]
  field_simp
  ring

/-- A rectangle without width, whose stationary point lies halfway between its ends. -/
theorem exists_not_sound (hm : m.PosSemidef) (hpos : 0 < m.yy) (hweak : m.yy ≤ 1e-12) :
    ∃ mean rect, rect.Ordered ∧ ¬ m.Sound mean rect := by
  have hnot : ¬ 1e-12 < |m.yy| := by rwa [abs_of_pos hpos, not_lt]
  let c := m.xy * 1 / m.yy
  let mean : Vec2 ℝ := ⟨0, 0⟩
  let side : Rect ℝ := ⟨1, 1, -c - 1, -c + 1⟩
  have hside : side.Ordered := ⟨le_refl 1, by change -c - 1 ≤ -c + 1; linarith⟩
  have hout : ¬ side.Holds mean.x mean.y := by
    rintro ⟨⟨h, -⟩, -⟩
    exact absurd h (by norm_num [side, mean])
  refine ⟨mean, side, hside, ?_⟩
  intro hsound
  obtain ⟨x, y, hcomp, h⟩ := (minQuadratic_isLeast_compared hm hside hout).1
  obtain ⟨hx, -⟩ := hcomp.holds hside
  obtain rfl : x = 1 := le_antisymm hx.2 hx.1
  have hend : y = -c - 1 ∨ y = -c + 1 := by
    rcases hcomp with ⟨-, -, hy⟩ | ⟨hy, -⟩
    · exact hy.resolve_left hnot
    · exact hy
  have hmid := hsound 1 (-c) ⟨⟨le_refl 1, le_refl 1⟩, by change -c - 1 ≤ -c; linarith,
    by change -c ≤ -c + 1; linarith⟩
  rw [h] at hmid
  change m.quadratic (1 - 0) (y - 0) ≤ m.quadratic (1 - 0) (-c - 0) at hmid
  rw [sub_zero, sub_zero, sub_zero, quadratic_stationary hpos.ne' 1 y] at hmid
  -- either end lies one above or below the stationary point
  have hsq : (y + c) ^ 2 = 1 := by rcases hend with rfl | rfl <;> ring
  change m.quadratic 1 (-c) + m.yy * (y + c) ^ 2 ≤ m.quadratic 1 (-c) at hmid
  rw [hsq] at hmid
  linarith

theorem yy_resolved_of_sound (hm : m.PosSemidef)
    (h : ∀ mean rect, rect.Ordered → m.Sound mean rect) : m.yy = 0 ∨ 1e-12 < m.yy := by
  by_contra! hweak
  obtain ⟨mean, rect, hrect, hnot⟩ :=
    exists_not_sound hm (lt_of_le_of_ne hm.yy_nonneg hweak.1.symm) hweak.2
  exact hnot (h mean rect hrect)

/-- At every center and over every rectangle the value found is no greater than any there is exactly
if no positive diagonal entry counts as zero. -/
theorem sound_iff_resolved (hm : m.PosSemidef) :
    (∀ mean rect, rect.Ordered → m.Sound mean rect) ↔ m.Resolved := by
  constructor
  · intro h
    refine ⟨yy_resolved_of_sound hm.flip ?_, yy_resolved_of_sound hm h⟩
    intro mean rect hrect
    exact (h ⟨mean.y, mean.x⟩ ⟨rect.y0, rect.y1, rect.x0, rect.x1⟩ ⟨hrect.2, hrect.1⟩).flip hm
      ⟨hrect.2, hrect.1⟩
  · intro hr mean rect hrect x y hp
    exact minQuadratic_le hm hr hrect hp

end SymMat

/-- The value found is a lower bound at every center and over every rectangle exactly if no positive
diagonal entry counts as zero. At one center and rectangle it is one exactly if the center lies
inside or a minimum is among the points compared. It is never too great by more than the slack. -/
theorem minQuadratic_never_exceeds_iff (hm : m.PosSemidef) :
    ((∀ mean rect, rect.Ordered → m.Sound mean rect) ↔ m.Resolved) ∧
      ∀ mean rect, rect.Ordered →
        (m.Sound mean rect ↔ rect.Holds mean.x mean.y ∨ ∃ x y, m.Compared rect x y ∧
          ∀ x' y', rect.Holds x' y' → m.quadratic (x - mean.x) (y - mean.y) ≤
            m.quadratic (x' - mean.x) (y' - mean.y)) ∧
        ∀ x y, rect.Holds x y →
          minQuadratic mean m rect ≤ m.quadratic (x - mean.x) (y - mean.y) + m.slack rect := by
  refine ⟨SymMat.sound_iff_resolved hm, ?_⟩
  intro mean rect hrect
  exact ⟨SymMat.sound_iff_exists_compared hm hrect, fun x y => minQuadratic_le_add_slack hm hrect⟩

/-! ### A long side under a weak entry

The second coordinate is known, but so weakly that its entry counts as zero. Over a rectangle that
reaches far along it the minimum lies halfway along a side, and both ends are charged double.
-/

noncomputable section

def weakMatrix : SymMat ℝ := ⟨1, 0, 1 / 2 ^ 40⟩

def tallRect : Rect ℝ := ⟨1, 2, -2 ^ 20, 2 ^ 20⟩

theorem quadratic_weak (x y : ℝ) : weakMatrix.quadratic x y = x ^ 2 + y ^ 2 / 2 ^ 40 := by
  rw [SymMat.quadratic_eq, weakMatrix]
  ring

theorem weak_posSemidef : weakMatrix.PosSemidef := by
  intro x y
  rw [quadratic_weak]
  positivity

theorem tall_ordered : tallRect.Ordered := by constructor <;> norm_num [tallRect]

/-- Whatever is compared lies at the top or at the bottom. -/
theorem tall_compared {x y : ℝ} (h : weakMatrix.Compared tallRect x y) :
    1 ≤ x ∧ (y = -2 ^ 20 ∨ y = 2 ^ 20) := by
  refine ⟨(h.holds tall_ordered).1.1, ?_⟩
  rcases h with ⟨-, -, hweak | hend⟩ | ⟨hend, -⟩
  · exact absurd hweak (by norm_num [weakMatrix])
  · exact hend
  · exact hend

theorem minQuadratic_never_exceeds_iff_weak : weakMatrix.PosSemidef ∧
    ((∀ mean rect, rect.Ordered → weakMatrix.Sound mean rect) ↔ weakMatrix.Resolved) ∧
      ∀ mean rect, rect.Ordered →
        (weakMatrix.Sound mean rect ↔
          rect.Holds mean.x mean.y ∨ ∃ x y, weakMatrix.Compared rect x y ∧
            ∀ x' y', rect.Holds x' y' → weakMatrix.quadratic (x - mean.x) (y - mean.y) ≤
              weakMatrix.quadratic (x' - mean.x) (y' - mean.y)) ∧
        ∀ x y, rect.Holds x y → minQuadratic mean weakMatrix rect ≤
          weakMatrix.quadratic (x - mean.x) (y - mean.y) + weakMatrix.slack rect :=
  ⟨weak_posSemidef, minQuadratic_never_exceeds_iff weak_posSemidef⟩

/-- At the midpoint of the left side the quadratic is 1, and the least value found is 2. -/
theorem minQuadratic_exceeds_weak :
    weakMatrix.PosSemidef ∧ tallRect.Ordered ∧ tallRect.Holds 1 0 ∧
      weakMatrix.quadratic (1 - 0) (0 - 0) = 1 ∧ minQuadratic ⟨0, 0⟩ weakMatrix tallRect = 2 ∧
      ¬ weakMatrix.Sound ⟨0, 0⟩ tallRect := by
  have hone : weakMatrix.quadratic (1 - 0) (0 - 0) = 1 := by norm_num [quadratic_weak]
  have hholds : tallRect.Holds 1 0 := by norm_num [tallRect, Rect.Holds]
  let mean : Vec2 ℝ := ⟨0, 0⟩
  have hout : ¬ tallRect.Holds mean.x mean.y := by norm_num [tallRect, mean, Rect.Holds]
  obtain ⟨⟨x, y, hcomp, h⟩, hle⟩ :=
    minQuadratic_isLeast_compared weak_posSemidef tall_ordered hout
  have htwo : minQuadratic mean weakMatrix tallRect = 2 := by
    apply le_antisymm
    · refine (hle ⟨1, 2 ^ 20, Or.inr ⟨Or.inr rfl, ?_, Or.inr (Or.inl rfl)⟩, rfl⟩).trans ?_
      · norm_num [tallRect]
      · norm_num [quadratic_weak, mean]
    · obtain ⟨hx, hy⟩ := tall_compared hcomp
      have hx2 : 1 ≤ x ^ 2 := one_le_pow₀ hx
      have hy2 : y ^ 2 = 2 ^ 40 := by rcases hy with rfl | rfl <;> norm_num
      rw [h, quadratic_weak]
      change 2 ≤ (x - 0) ^ 2 + (y - 0) ^ 2 / 2 ^ 40
      rw [sub_zero, sub_zero, hy2]
      linarith
  refine ⟨weak_posSemidef, tall_ordered, hholds, hone, htwo, ?_⟩
  intro hsound
  have := hsound 1 0 hholds
  change minQuadratic mean weakMatrix tallRect ≤ weakMatrix.quadratic (1 - 0) (0 - 0) at this
  rw [htwo, hone] at this
  linarith

end

end ScanMatch
