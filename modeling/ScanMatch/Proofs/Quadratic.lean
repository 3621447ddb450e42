import ScanMatch.Proofs.Ensures
import ScanMatch.Proofs.Exact
import ScanMatch.Prior.Quadratic

/-! # The least value of a quadratic over a rectangle

In exact arithmetic the comparison of candidates along the four sides finds the minimum over the
points that it covers: a whole side where the diagonal entry along it counts, else its ends. On the
way to the center a quadratic only falls, and it leaves the rectangle through a side. So this is the
minimum over the whole rectangle, but for what the ends of a side miss.
-/
namespace ScanMatch

theorem Exact.min_eq (x y : ℝ) : Arith.min x y = min x y := by
  simp only [Arith.min, Exact.isNaN_eq, Bool.false_eq_true, if_false]
  rcases lt_or_ge y x with h | h
  · rw [if_pos h, min_eq_right h.le]
  · rw [if_neg h.not_gt, min_eq_left h]

theorem Exact.abs_eq (x : ℝ) : Arith.abs x = |x| := by
  simp only [Arith.abs, Exact.zero_eq]
  rcases lt_or_ge x 0 with h | h
  · rw [if_pos h, abs_of_neg h]
  · rw [if_neg h.not_gt, abs_of_nonneg h]

/-- The clamped value lies in the interval, and no other point of it is nearer. -/
theorem Exact.clamp_cases {lo hi x : ℝ} (h : lo ≤ hi) :
    (x < lo ∧ Arith.clamp lo hi x = lo) ∨ (hi < x ∧ Arith.clamp lo hi x = hi) ∨
      (lo ≤ x ∧ x ≤ hi ∧ Arith.clamp lo hi x = x) := by
  unfold Arith.clamp
  rcases lt_or_ge x lo with hx | hx
  · exact Or.inl ⟨hx, by simp [hx, h.not_gt]⟩
  rcases lt_or_ge hi x with hx' | hx'
  · exact Or.inr (Or.inl ⟨hx', by simp [hx.not_gt, hx']⟩)
  · exact Or.inr (Or.inr ⟨hx, hx', by simp [hx.not_gt, hx'.not_gt]⟩)

theorem Exact.clamp_mem {lo hi x : ℝ} (h : lo ≤ hi) : Arith.clamp lo hi x ∈ Set.Icc lo hi := by
  rcases Exact.clamp_cases (x := x) h with ⟨-, e⟩ | ⟨-, e⟩ | ⟨h1, h2, e⟩ <;> rw [e]
  · exact ⟨le_refl lo, h⟩
  · exact ⟨h, le_refl hi⟩
  · exact ⟨h1, h2⟩

theorem least?_cons_cons (a b : ℝ) (values : List ℝ) :
    least? (a :: b :: values) = least? (min a b :: values) := by
  simp [least?, Exact.min_eq]

/-- Candidates have a least one, which is none but one of them. -/
theorem least?_spec (values : List ℝ) : ∀ a : ℝ,
    ∃ v, least? (a :: values) = some v ∧ v ∈ a :: values ∧ ∀ w ∈ a :: values, v ≤ w := by
  induction values with
  | nil =>
    intro a
    exact ⟨a, by simp [least?], by simp, by simp⟩
  | cons b values ih =>
    intro a
    obtain ⟨v, hv, hmem, hle⟩ := ih (min a b)
    have hmin := hle _ List.mem_cons_self
    refine ⟨v, by rw [least?_cons_cons, hv], ?_, ?_⟩
    · rcases List.mem_cons.mp hmem with h | h
      · rcases min_choice a b with e | e <;> simp [h, e]
      · exact List.mem_cons_of_mem _ (List.mem_cons_of_mem _ h)
    · intro w hw
      rcases List.mem_cons.mp hw with rfl | hw
      · exact hmin.trans (min_le_left _ _)
      rcases List.mem_cons.mp hw with rfl | hw
      · exact hmin.trans (min_le_right _ _)
      · exact hle w (List.mem_cons_of_mem _ hw)

namespace SymMat

/-- Diagonal entries are zero or large enough not to be taken for zero. -/
structure Resolved (m : SymMat ℝ) : Prop where
  xx : m.xx = 0 ∨ 1e-12 < m.xx
  yy : m.yy = 0 ∨ 1e-12 < m.yy

/-- The quadratic form takes no negative value. -/
def PosSemidef (m : SymMat ℝ) : Prop := ∀ x y : ℝ, 0 ≤ m.quadratic x y

theorem quadratic_eq (m : SymMat ℝ) (x y : ℝ) :
    m.quadratic x y = m.xx * x * x + 2 * m.xy * x * y + m.yy * y * y := by
  simp [quadratic]

theorem quadratic_zero (m : SymMat ℝ) : m.quadratic (0 : ℝ) (0 : ℝ) = 0 := by
  simp [quadratic_eq]

theorem quadratic_smul (m : SymMat ℝ) (s x y : ℝ) :
    m.quadratic (s * x) (s * y) = s ^ 2 * m.quadratic x y := by
  rw [quadratic_eq, quadratic_eq]
  ring

/-- Toward the center the quadratic only falls. -/
theorem quadratic_shrink {m : SymMat ℝ} (hm : m.PosSemidef) {s : ℝ} (h0 : 0 ≤ s) (h1 : s ≤ 1)
    (x y : ℝ) : m.quadratic (s * x) (s * y) ≤ m.quadratic x y := by
  rw [quadratic_smul]
  have hs : s ^ 2 ≤ 1 := pow_le_one₀ h0 h1
  have := mul_le_mul_of_nonneg_right hs (hm x y)
  rwa [one_mul] at this

/-- The same matrix with the coordinates exchanged. -/
def flip (m : SymMat ℝ) : SymMat ℝ := ⟨m.yy, m.xy, m.xx⟩

theorem quadratic_flip (m : SymMat ℝ) (x y : ℝ) : m.flip.quadratic y x = m.quadratic x y := by
  rw [quadratic_eq, quadratic_eq, flip]
  ring

theorem PosSemidef.flip {m : SymMat ℝ} (h : m.PosSemidef) : m.flip.PosSemidef := by
  intro x y
  rw [quadratic_flip]
  exact h y x

theorem PosSemidef.yy_nonneg {m : SymMat ℝ} (h : m.PosSemidef) : 0 ≤ m.yy := by
  simpa [quadratic_eq] using h 0 1

theorem PosSemidef.xx_nonneg {m : SymMat ℝ} (h : m.PosSemidef) : 0 ≤ m.xx := h.flip.yy_nonneg

theorem PosSemidef.xy_eq_zero {m : SymMat ℝ} (h : m.PosSemidef) (hyy : m.yy = 0) : m.xy = 0 := by
  by_contra hxy
  have := h 1 (-(m.xx + 1) / (2 * m.xy))
  rw [quadratic_eq, hyy] at this
  have e : m.xx * 1 * 1 + 2 * m.xy * 1 * (-(m.xx + 1) / (2 * m.xy)) +
      0 * (-(m.xx + 1) / (2 * m.xy)) * (-(m.xx + 1) / (2 * m.xy)) = -1 := by
    field_simp
    ring
  rw [e] at this
  linarith

theorem degenerateDiagonal_eq : (degenerateDiagonal : ℝ) = 1e-12 := by
  simp only [degenerateDiagonal, Exact.ofScientific_eq, if_true]
  norm_num

/-- Completing the square: how much the quadratic grows away from a point of the line. -/
theorem quadratic_sub {m : SymMat ℝ} (h : m.yy ≠ 0) (e c y t : ℝ) :
    m.quadratic e (y - t) - m.quadratic e (c - t) =
      m.yy * ((y - c) * (y - c + 2 * (c - (t - m.xy * e / m.yy)))) := by
  rw [quadratic_eq, quadratic_eq]
  field_simp
  ring

/-- On the way along a side the quadratic lies below its chord by the entry times the distances
from both ends. -/
theorem quadratic_chord (m : SymMat ℝ) (e t lo hi y : ℝ) :
    (hi - y) * m.quadratic e (lo - t) + (y - lo) * m.quadratic e (hi - t) =
      (hi - lo) * (m.quadratic e (y - t) + m.yy * ((y - lo) * (hi - y))) := by
  simp only [quadratic_eq]
  ring

/-- The coordinates along a side that the comparison covers: all of them if the diagonal entry
counts, else the two ends. -/
def Covered (d lo hi v : ℝ) : Prop := v ∈ Set.Icc lo hi ∧ (1e-12 < |d| ∨ v = lo ∨ v = hi)

/-- What the comparison may miss along a side of the given length. -/
noncomputable def overshoot (d length : ℝ) : ℝ :=
  if 1e-12 < |d| then 0 else |d| * (length / 2) ^ 2

theorem overshoot_nonneg (d length : ℝ) : 0 ≤ overshoot d length := by
  unfold overshoot
  split <;> positivity

theorem overshoot_eq_zero {d : ℝ} (h : d = 0 ∨ 1e-12 < d) (length : ℝ) :
    overshoot d length = 0 := by
  unfold overshoot
  rcases h with rfl | h
  · simp
  · rw [if_pos (h.trans_le (le_abs_self d))]

variable {m : SymMat ℝ} {mean : Vec2 ℝ} {rect : Rect ℝ}

theorem verticalCandidates_ne_nil (x : ℝ) : m.verticalCandidates mean rect x ≠ [] := by
  unfold verticalCandidates
  split <;> simp

theorem verticalCandidates_attain (hy : rect.y0 ≤ rect.y1) {x v : ℝ}
    (hv : v ∈ m.verticalCandidates mean rect x) :
    ∃ y, Covered m.yy rect.y0 rect.y1 y ∧ v = m.quadratic (x - mean.x) (y - mean.y) := by
  unfold verticalCandidates at hv
  rw [degenerateDiagonal_eq, Exact.abs_eq] at hv
  split at hv
  · next h =>
    obtain rfl := List.mem_singleton.mp hv
    exact ⟨_, ⟨Exact.clamp_mem hy, Or.inl h⟩, rfl⟩
  · rcases List.mem_cons.mp hv with rfl | hv
    · exact ⟨rect.y0, ⟨⟨le_refl _, hy⟩, Or.inr (Or.inl rfl)⟩, rfl⟩
    · obtain rfl := List.mem_singleton.mp hv
      exact ⟨rect.y1, ⟨⟨hy, le_refl _⟩, Or.inr (Or.inr rfl)⟩, rfl⟩

theorem exists_verticalCandidate_le (mean : Vec2 ℝ) (rect : Rect ℝ) (hm : m.PosSemidef) (x : ℝ)
    {y : ℝ} (hy : Covered m.yy rect.y0 rect.y1 y) :
    ∃ v ∈ m.verticalCandidates mean rect x, v ≤ m.quadratic (x - mean.x) (y - mean.y) := by
  obtain ⟨⟨hlow, hhigh⟩, hend⟩ := hy
  unfold verticalCandidates
  rw [degenerateDiagonal_eq, Exact.abs_eq]
  split
  · next h =>
    have hpos : 0 < m.yy := by
      rw [abs_of_nonneg hm.yy_nonneg] at h
      exact lt_trans (by norm_num) h
    refine ⟨_, List.mem_singleton.mpr rfl, ?_⟩
    apply sub_nonneg.mp
    rw [quadratic_sub hpos.ne']
    apply mul_nonneg hpos.le
    -- the stationary point lies below the side, above it, or on it
    rcases Exact.clamp_cases (x := mean.y - m.xy * (x - mean.x) / m.yy) (hlow.trans hhigh) with
      ⟨h, e⟩ | ⟨h, e⟩ | ⟨-, -, e⟩ <;> rw [e]
    · exact mul_nonneg (by linarith) (by linarith)
    · exact mul_nonneg_of_nonpos_of_nonpos (by linarith) (by linarith)
    · rw [sub_self, mul_zero, add_zero]
      exact mul_self_nonneg _
  · next h =>
    rcases hend with hlt | rfl | rfl
    · exact absurd hlt h
    · exact ⟨_, List.mem_cons_self, le_refl _⟩
    · exact ⟨_, List.mem_cons_of_mem _ (List.mem_singleton.mpr rfl), le_refl _⟩

/-- Where only the ends of a side are covered, one of them is not far above any point between. -/
theorem exists_covered_le (hm : m.PosSemidef) (e t : ℝ) {lo hi y : ℝ} (hy : y ∈ Set.Icc lo hi) :
    ∃ y', Covered m.yy lo hi y' ∧
      m.quadratic e (y' - t) ≤ m.quadratic e (y - t) + overshoot m.yy (hi - lo) := by
  obtain ⟨hlow, hhigh⟩ := hy
  have hnonneg := overshoot_nonneg m.yy (hi - lo)
  by_cases hcount : 1e-12 < |m.yy|
  · exact ⟨y, ⟨⟨hlow, hhigh⟩, Or.inl hcount⟩, by linarith⟩
  have hover : overshoot m.yy (hi - lo) = m.yy * ((hi - lo) / 2) ^ 2 := by
    rw [overshoot, if_neg hcount, abs_of_nonneg hm.yy_nonneg]
  rcases hhigh.eq_or_lt with rfl | hlt
  · exact ⟨y, ⟨⟨hlow, le_refl y⟩, Or.inr (Or.inr rfl)⟩, by linarith⟩
  by_contra! hnone
  have hlo := hnone lo ⟨⟨le_refl lo, hlow.trans hhigh⟩, Or.inr (Or.inl rfl)⟩
  have hhi := hnone hi ⟨⟨hlow.trans hhigh, le_refl hi⟩, Or.inr (Or.inr rfl)⟩
  rw [hover] at hlo hhi
  -- weighted by the distances from the other end, the ends lie on the chord
  have hw := mul_lt_mul_of_pos_left hlo (sub_pos.mpr hlt)
  have hw' := mul_le_mul_of_nonneg_left hhi.le (sub_nonneg.mpr hlow)
  have hchord := quadratic_chord m e t lo hi y
  have hgap : (hi - lo) * (m.yy * ((y - lo) * (hi - y))) ≤
      (hi - lo) * (m.yy * ((hi - lo) / 2) ^ 2) := by
    apply mul_le_mul_of_nonneg_left _ (by linarith)
    apply mul_le_mul_of_nonneg_left _ hm.yy_nonneg
    linarith [sq_nonneg (y - lo - (hi - y))]
  linarith

theorem horizontalCandidates_eq (y : ℝ) : m.horizontalCandidates mean rect y =
    m.flip.verticalCandidates ⟨mean.y, mean.x⟩ ⟨rect.y0, rect.y1, rect.x0, rect.x1⟩ y := by
  unfold horizontalCandidates verticalCandidates
  simp only [quadratic_flip]
  rfl

theorem horizontalCandidates_attain (hx : rect.x0 ≤ rect.x1) {y v : ℝ}
    (hv : v ∈ m.horizontalCandidates mean rect y) :
    ∃ x, Covered m.xx rect.x0 rect.x1 x ∧ v = m.quadratic (x - mean.x) (y - mean.y) := by
  rw [horizontalCandidates_eq] at hv
  obtain ⟨x, hcov, h⟩ := verticalCandidates_attain (by exact hx) hv
  exact ⟨x, hcov, by rw [h, quadratic_flip]⟩

theorem exists_horizontalCandidate_le (mean : Vec2 ℝ) (rect : Rect ℝ) (hm : m.PosSemidef) (y : ℝ)
    {x : ℝ} (hx : Covered m.xx rect.x0 rect.x1 x) :
    ∃ v ∈ m.horizontalCandidates mean rect y, v ≤ m.quadratic (x - mean.x) (y - mean.y) := by
  rw [horizontalCandidates_eq]
  obtain ⟨v, hv, h⟩ := exists_verticalCandidate_le ⟨mean.y, mean.x⟩
    ⟨rect.y0, rect.y1, rect.x0, rect.x1⟩ hm.flip y hx
  exact ⟨v, hv, by rwa [quadratic_flip] at h⟩

/-- The points of the boundary that the comparison covers. -/
def Compared (m : SymMat ℝ) (rect : Rect ℝ) (x y : ℝ) : Prop :=
  (x = rect.x0 ∨ x = rect.x1) ∧ Covered m.yy rect.y0 rect.y1 y ∨
    (y = rect.y0 ∨ y = rect.y1) ∧ Covered m.xx rect.x0 rect.x1 x

/-- What the comparison may miss over a rectangle. -/
noncomputable def slack (m : SymMat ℝ) (rect : Rect ℝ) : ℝ :=
  max (overshoot m.xx (rect.x1 - rect.x0)) (overshoot m.yy (rect.y1 - rect.y0))

theorem slack_nonneg (m : SymMat ℝ) (rect : Rect ℝ) : 0 ≤ m.slack rect :=
  (overshoot_nonneg _ _).trans (le_max_left _ _)

theorem Resolved.slack_eq_zero (h : m.Resolved) (rect : Rect ℝ) : m.slack rect = 0 := by
  rw [slack, overshoot_eq_zero h.xx, overshoot_eq_zero h.yy, max_self]

end SymMat

namespace Rect

/-- A rectangle that does not end before it starts. -/
def Ordered (rect : Rect ℝ) : Prop := rect.x0 ≤ rect.x1 ∧ rect.y0 ≤ rect.y1

/-- The points of a rectangle, boundary included. -/
def Holds (rect : Rect ℝ) (x y : ℝ) : Prop :=
  x ∈ Set.Icc rect.x0 rect.x1 ∧ y ∈ Set.Icc rect.y0 rect.y1

theorem ofExtents_eq_ok {x0 x1 y0 y1 : ℝ} (h : x0 ≤ x1 ∧ y0 ≤ y1) :
    ofExtents x0 x1 y0 y1 = .ok ⟨x0, x1, y0, y1⟩ := by
  rw [ofExtents, Checked.require, if_pos h]
  rfl

theorem contains_iff (rect : Rect ℝ) (x y : ℝ) : rect.contains x y = true ↔ rect.Holds x y := by
  simp [contains, Holds, and_assoc]

end Rect

/-- Along one axis, the way from a point of an interval to `c` may stop at a share `s` of it, at
the boundary of the interval, unless it gets to `c` inside. -/
theorem exists_entry {lo hi c v : ℝ} (hv : v ∈ Set.Icc lo hi) :
    ∃ s, 0 ≤ s ∧ s ≤ 1 ∧ (∀ t, s ≤ t → t ≤ 1 → c + t * (v - c) ∈ Set.Icc lo hi) ∧
      (s = 0 ∨ c + s * (v - c) = lo ∨ c + s * (v - c) = hi) := by
  rcases lt_or_ge c lo with hc | hc
  · have hpos : 0 < v - c := by linarith [hv.1]
    have hs : (lo - c) / (v - c) * (v - c) = lo - c := div_mul_cancel₀ _ hpos.ne'
    refine ⟨(lo - c) / (v - c), div_nonneg (by linarith) hpos.le,
      (div_le_one hpos).mpr (by linarith [hv.1]), ?_, Or.inr (Or.inl (by linarith))⟩
    intro t h0 h1
    have hlow := mul_le_mul_of_nonneg_right h0 hpos.le
    have hhigh := mul_le_mul_of_nonneg_right h1 hpos.le
    constructor <;> linarith [hv.2]
  rcases lt_or_ge hi c with hc' | hc'
  · have hpos : 0 < c - v := by linarith [hv.2]
    have hs : (c - hi) / (c - v) * (c - v) = c - hi := div_mul_cancel₀ _ hpos.ne'
    refine ⟨(c - hi) / (c - v), div_nonneg (by linarith) hpos.le,
      (div_le_one hpos).mpr (by linarith [hv.2]), ?_, Or.inr (Or.inr (by linarith))⟩
    intro t h0 h1
    have hlow := mul_le_mul_of_nonneg_right h0 hpos.le
    have hhigh := mul_le_mul_of_nonneg_right h1 hpos.le
    constructor <;> linarith [hv.1]
  · refine ⟨0, le_refl 0, zero_le_one, ?_, Or.inl rfl⟩
    intro t h0 h1
    have h := mul_nonneg h0 (sub_nonneg.mpr hv.1)
    have h' := mul_nonneg h0 (sub_nonneg.mpr hv.2)
    have k := mul_nonneg (sub_nonneg.mpr h1) (sub_nonneg.mpr hc)
    have k' := mul_nonneg (sub_nonneg.mpr h1) (sub_nonneg.mpr hc')
    constructor <;> linarith

/-- From any point of a rectangle the way to a center outside crosses a side. -/
theorem exists_side {rect : Rect ℝ} {cx cy x y : ℝ} (hc : ¬ rect.Holds cx cy)
    (hp : rect.Holds x y) :
    ∃ s, 0 ≤ s ∧ s ≤ 1 ∧ rect.Holds (cx + s * (x - cx)) (cy + s * (y - cy)) ∧
      ((cx + s * (x - cx) = rect.x0 ∨ cx + s * (x - cx) = rect.x1) ∨
        (cy + s * (y - cy) = rect.y0 ∨ cy + s * (y - cy) = rect.y1)) := by
  obtain ⟨s, hs0, hs1, hsin, hs⟩ := exists_entry (c := cx) hp.1
  obtain ⟨t, ht0, ht1, htin, ht⟩ := exists_entry (c := cy) hp.2
  -- both coordinates are inside from the later of the two entries on
  rcases le_total s t with hst | hst
  · refine ⟨t, ht0, ht1, ⟨hsin t hst ht1, htin t (le_refl t) ht1⟩, Or.inr ?_⟩
    rcases ht with rfl | ht
    · exact absurd ⟨by simpa using hsin 0 hst ht1, by simpa using htin 0 (le_refl 0) ht1⟩ hc
    · exact ht
  · refine ⟨s, hs0, hs1, ⟨hsin s (le_refl s) hs1, htin s hst hs1⟩, Or.inl ?_⟩
    rcases hs with rfl | hs
    · exact absurd ⟨by simpa using hsin 0 (le_refl 0) hs1, by simpa using htin 0 hst hs1⟩ hc
    · exact hs

section

variable {m : SymMat ℝ} {mean : Vec2 ℝ} {rect : Rect ℝ}

/-- The values compared if the center lies outside. -/
noncomputable def sideCandidates (m : SymMat ℝ) (mean : Vec2 ℝ) (rect : Rect ℝ) : List ℝ :=
  m.verticalCandidates mean rect rect.x0 ++ m.verticalCandidates mean rect rect.x1 ++
    m.horizontalCandidates mean rect rect.y0 ++ m.horizontalCandidates mean rect rect.y1

theorem SymMat.Compared.holds (hrect : rect.Ordered) {x y : ℝ} (h : m.Compared rect x y) :
    rect.Holds x y := by
  obtain ⟨hx, hy⟩ := hrect
  rcases h with ⟨rfl | rfl, hcov, -⟩ | ⟨rfl | rfl, hcov, -⟩
  · exact ⟨⟨le_refl _, hx⟩, hcov⟩
  · exact ⟨⟨hx, le_refl _⟩, hcov⟩
  · exact ⟨hcov, le_refl _, hy⟩
  · exact ⟨hcov, hy, le_refl _⟩

theorem sideCandidate_attain (hrect : rect.Ordered) {v : ℝ} (hv : v ∈ sideCandidates m mean rect) :
    ∃ x y, m.Compared rect x y ∧ v = m.quadratic (x - mean.x) (y - mean.y) := by
  simp only [sideCandidates, List.mem_append] at hv
  rcases hv with ((hv | hv) | hv) | hv
  · obtain ⟨y, hy, h⟩ := SymMat.verticalCandidates_attain hrect.2 hv
    exact ⟨rect.x0, y, Or.inl ⟨Or.inl rfl, hy⟩, h⟩
  · obtain ⟨y, hy, h⟩ := SymMat.verticalCandidates_attain hrect.2 hv
    exact ⟨rect.x1, y, Or.inl ⟨Or.inr rfl, hy⟩, h⟩
  · obtain ⟨x, hx, h⟩ := SymMat.horizontalCandidates_attain hrect.1 hv
    exact ⟨x, rect.y0, Or.inr ⟨Or.inl rfl, hx⟩, h⟩
  · obtain ⟨x, hx, h⟩ := SymMat.horizontalCandidates_attain hrect.1 hv
    exact ⟨x, rect.y1, Or.inr ⟨Or.inr rfl, hx⟩, h⟩

theorem exists_sideCandidate_le (mean : Vec2 ℝ) (hm : m.PosSemidef) {x y : ℝ}
    (h : m.Compared rect x y) :
    ∃ v ∈ sideCandidates m mean rect, v ≤ m.quadratic (x - mean.x) (y - mean.y) := by
  simp only [sideCandidates, List.mem_append]
  rcases h with ⟨rfl | rfl, hy⟩ | ⟨rfl | rfl, hx⟩
  · obtain ⟨v, hv, h⟩ := SymMat.exists_verticalCandidate_le mean rect hm rect.x0 hy
    exact ⟨v, Or.inl (Or.inl (Or.inl hv)), h⟩
  · obtain ⟨v, hv, h⟩ := SymMat.exists_verticalCandidate_le mean rect hm rect.x1 hy
    exact ⟨v, Or.inl (Or.inl (Or.inr hv)), h⟩
  · obtain ⟨v, hv, h⟩ := SymMat.exists_horizontalCandidate_le mean rect hm rect.y0 hx
    exact ⟨v, Or.inl (Or.inr hv), h⟩
  · obtain ⟨v, hv, h⟩ := SymMat.exists_horizontalCandidate_le mean rect hm rect.y1 hx
    exact ⟨v, Or.inr hv, h⟩

/-- From any point the way to the center leads to a side, and along it to a point compared. -/
theorem exists_compared_le (hm : m.PosSemidef) (hmean : ¬ rect.Holds mean.x mean.y) {x y : ℝ}
    (hp : rect.Holds x y) :
    ∃ x' y', m.Compared rect x' y' ∧ m.quadratic (x' - mean.x) (y' - mean.y) ≤
      m.quadratic (x - mean.x) (y - mean.y) + m.slack rect := by
  obtain ⟨s, hs0, hs1, ⟨hx, hy⟩, hside⟩ := exists_side hmean hp
  have hfall := SymMat.quadratic_shrink hm hs0 hs1 (x - mean.x) (y - mean.y)
  rcases hside with hside | hside
  · obtain ⟨y', hcov, hle⟩ := SymMat.exists_covered_le hm (s * (x - mean.x)) mean.y hy
    refine ⟨_, y', Or.inl ⟨hside, hcov⟩, ?_⟩
    rw [add_sub_cancel_left] at hle ⊢
    have hslack : SymMat.overshoot m.yy (rect.y1 - rect.y0) ≤ m.slack rect := le_max_right _ _
    linarith
  · obtain ⟨x', hcov, hle⟩ := SymMat.exists_covered_le hm.flip (s * (y - mean.y)) mean.x hx
    refine ⟨x', _, Or.inr ⟨hside, hcov⟩, ?_⟩
    rw [add_sub_cancel_left, SymMat.quadratic_flip, SymMat.quadratic_flip] at hle
    rw [add_sub_cancel_left]
    have hslack : SymMat.overshoot m.flip.yy (rect.x1 - rect.x0) ≤ m.slack rect := le_max_left _ _
    linarith

theorem minQuadratic_inside (h : rect.Holds mean.x mean.y) : minQuadratic mean m rect = 0 := by
  rw [minQuadratic, if_pos ((rect.contains_iff _ _).mpr h), Exact.zero_eq]

theorem minQuadratic_outside (h : ¬ rect.Holds mean.x mean.y) :
    minQuadratic mean m rect ∈ sideCandidates m mean rect ∧
      ∀ v ∈ sideCandidates m mean rect, minQuadratic mean m rect ≤ v := by
  have hne : sideCandidates m mean rect ≠ [] := by
    simp [sideCandidates, SymMat.verticalCandidates_ne_nil]
  obtain ⟨a, values, e⟩ := List.exists_cons_of_ne_nil hne
  obtain ⟨v, hv, hmem, hle⟩ := least?_spec values a
  have hmin : minQuadratic mean m rect = v := by
    rw [minQuadratic, if_neg (by rwa [rect.contains_iff])]
    change (least? (sideCandidates m mean rect)).getD _ = v
    rw [e, hv, Option.getD_some]
  rw [hmin, e]
  exact ⟨hmem, hle⟩

/-- A center outside leaves the least of the values compared. -/
theorem minQuadratic_isLeast_compared (hm : m.PosSemidef) (hrect : rect.Ordered)
    (hmean : ¬ rect.Holds mean.x mean.y) :
    IsLeast {v | ∃ x y, m.Compared rect x y ∧ v = m.quadratic (x - mean.x) (y - mean.y)}
      (minQuadratic mean m rect) := by
  obtain ⟨hmem, hle⟩ := minQuadratic_outside (m := m) hmean
  refine ⟨sideCandidate_attain hrect hmem, ?_⟩
  rintro v ⟨x, y, hcomp, rfl⟩
  obtain ⟨v, hv, h⟩ := exists_sideCandidate_le mean hm hcomp
  exact (hle v hv).trans h

/-- No point of the rectangle has a value that is smaller by more than the slack. -/
theorem minQuadratic_le_add_slack (hm : m.PosSemidef) (hrect : rect.Ordered) {x y : ℝ}
    (hp : rect.Holds x y) :
    minQuadratic mean m rect ≤ m.quadratic (x - mean.x) (y - mean.y) + m.slack rect := by
  by_cases hmean : rect.Holds mean.x mean.y
  · rw [minQuadratic_inside hmean]
    exact add_nonneg (hm _ _) (m.slack_nonneg rect)
  · obtain ⟨x', y', hcomp, hle⟩ := exists_compared_le hm hmean hp
    exact ((minQuadratic_isLeast_compared hm hrect hmean).2 ⟨x', y', hcomp, rfl⟩).trans hle

/-- No point of the rectangle has a smaller value. -/
theorem minQuadratic_le (hm : m.PosSemidef) (hr : m.Resolved) (hrect : rect.Ordered) {x y : ℝ}
    (hp : rect.Holds x y) : minQuadratic mean m rect ≤ m.quadratic (x - mean.x) (y - mean.y) := by
  have h : minQuadratic mean m rect ≤ _ := minQuadratic_le_add_slack hm hrect hp
  rwa [hr.slack_eq_zero, add_zero] at h

theorem minQuadratic_attained (m : SymMat ℝ) (mean : Vec2 ℝ) (hrect : rect.Ordered) :
    ∃ x y, rect.Holds x y ∧ minQuadratic mean m rect = m.quadratic (x - mean.x) (y - mean.y) := by
  by_cases hmean : rect.Holds mean.x mean.y
  · refine ⟨mean.x, mean.y, hmean, ?_⟩
    rw [minQuadratic_inside hmean, sub_self, sub_self, SymMat.quadratic_zero]
  · obtain ⟨x, y, hcomp, h⟩ := sideCandidate_attain hrect (minQuadratic_outside hmean).1
    exact ⟨x, y, hcomp.holds hrect, h⟩

/-- A smaller rectangle has no smaller minimum. -/
theorem minQuadratic_mono (hm : m.PosSemidef) (hr : m.Resolved) {inner : Rect ℝ}
    (hrect : rect.Ordered) (hinner : inner.Ordered)
    (hsub : ∀ x y, inner.Holds x y → rect.Holds x y) :
    minQuadratic mean m rect ≤ minQuadratic mean m inner := by
  obtain ⟨x, y, hp, e⟩ := minQuadratic_attained m mean hinner
  rw [e]
  exact minQuadratic_le hm hr hrect (hsub x y hp)

end

end ScanMatch
