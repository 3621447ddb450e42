import ScanMatch.Proofs.Run

/-! # Best blocks first

Real scores are ordered with the unknown bound above and undefined ones below them. Every operation
on a frontier keeps it ordered as a heap, so that a block of greatest bound comes off first.
-/
namespace ScanMatch

namespace Bound

/-- The bound as an extended real number. -/
noncomputable def key : Bound ℝ → EReal
  | .unbounded => ⊤
  | .score a => a
  | .undefined _ => ⊥

theorem order_eq (a b : Bound ℝ) : order a b = compare a.key b.key := by
  cases a with
  | unbounded =>
    cases b with
    | unbounded => exact (compare_eq_iff_eq.mpr rfl).symm
    | score b => exact (compare_gt_iff_gt.mpr (EReal.coe_lt_top b)).symm
    | undefined b => exact (compare_gt_iff_gt.mpr bot_lt_top).symm
  | score a =>
    cases b with
    | unbounded => exact (compare_lt_iff_lt.mpr (EReal.coe_lt_top a)).symm
    | score b =>
      change compare a b = compare (a : EReal) b
      rw [← cmp_eq_compare, ← cmp_eq_compare, EReal.coe_strictMono.cmp_map_eq]
    | undefined b => exact (compare_gt_iff_gt.mpr (EReal.bot_lt_coe a)).symm
  | undefined a =>
    cases b with
    | unbounded => exact (compare_lt_iff_lt.mpr bot_lt_top).symm
    | score b => exact (compare_lt_iff_lt.mpr (EReal.bot_lt_coe b)).symm
    | undefined b => exact (compare_eq_iff_eq.mpr rfl).symm

theorem order_ne_gt_iff {a b : Bound ℝ} : order a b ≠ .gt ↔ a.key ≤ b.key := by
  rw [order_eq, compare_le_iff_le]

theorem order_lt_iff {a b : Bound ℝ} : order a b = .lt ↔ a.key < b.key := by
  rw [order_eq, compare_lt_iff_lt]

end Bound

namespace Frontier

variable {R : Type} [Scalar R]

/-- No block lies below one of smaller bound. -/
def Ordered : Frontier R → Prop
  | empty => True
  | node _ top left right =>
    (∀ b ∈ left.toList, b.bound.order top.bound ≠ .gt) ∧
      (∀ b ∈ right.toList, b.bound.order top.bound ≠ .gt) ∧ left.Ordered ∧ right.Ordered

/-- A block of greatest bound comes off the frontier, any one of those. -/
structure TakesBest (f : Frontier R) (b : Block R) (rest : Frontier R) : Prop where
  takes : f.Takes b rest
  best : ∀ c ∈ f.toList, c.bound.order b.bound ≠ .gt
  ordered : rest.Ordered

section

variable {top b : Block ℝ} {left right f f' rest : Frontier ℝ}

theorem ordered_join (hleft : ∀ b ∈ left.toList, b.bound.order top.bound ≠ .gt)
    (hright : ∀ b ∈ right.toList, b.bound.order top.bound ≠ .gt) (ol : left.Ordered)
    (or : right.Ordered) : (join top left right).Ordered := by
  unfold join
  split
  · exact ⟨hleft, hright, ol, or⟩
  · exact ⟨hright, hleft, or, ol⟩

theorem Ordered.top_best {rank : Nat} (h : (node rank top left right).Ordered) :
    ∀ b ∈ (node rank top left right).toList, b.bound.order top.bound ≠ .gt := by
  intro b hb
  rcases List.mem_cons.mp hb with rfl | hb
  · exact Bound.order_ne_gt_iff.mpr (le_refl _)
  · rcases List.mem_append.mp hb with hb | hb
    · exact h.1 b hb
    · exact h.2.1 b hb

theorem Ordered.merge (h : f.Ordered) (h' : f'.Ordered) : (f.merge f').Ordered := by
  fun_induction Frontier.merge f f' with
  | case1 => exact h'
  | case2 => exact h
  | case3 ra ta la pa rb tb lb pb hlt ih =>
    have hle := (Bound.order_lt_iff.mp hlt).le
    refine ordered_join h'.1 ?_ h'.2.2.1 (ih h h'.2.2.2)
    intro b hb
    rcases List.mem_append.mp ((toList_merge _ _).mem_iff.mp hb) with hb | hb
    · exact Bound.order_ne_gt_iff.mpr ((Bound.order_ne_gt_iff.mp (h.top_best b hb)).trans hle)
    · exact h'.2.1 b hb
  | case4 ra ta la pa rb tb lb pb hlt ih =>
    have hle := not_lt.mp (mt Bound.order_lt_iff.mpr hlt)
    refine ordered_join h.1 ?_ h.2.2.1 (ih h.2.2.2 h')
    intro b hb
    rcases List.mem_append.mp ((toList_merge _ _).mem_iff.mp hb) with hb | hb
    · exact h.2.1 b hb
    · exact Bound.order_ne_gt_iff.mpr ((Bound.order_ne_gt_iff.mp (h'.top_best b hb)).trans hle)

theorem Ordered.insertAll (h : f.Ordered) (bs : List (Block ℝ)) : (f.insertAll bs).Ordered := by
  induction bs generalizing f with
  | nil => exact h
  | cons b bs ih => exact ih (Ordered.merge ⟨nofun, nofun, trivial, trivial⟩ h)

theorem Ordered.pop? (h : f.Ordered) (hpop : f.pop? = some (b, rest)) : f.TakesBest b rest := by
  have htakes := toList_pop? hpop
  cases f with
  | empty => cases hpop
  | node rank top left right =>
    obtain ⟨rfl, rfl⟩ : top = b ∧ left.merge right = rest := by simpa [Frontier.pop?] using hpop
    exact ⟨htakes, h.top_best, h.2.2.1.merge h.2.2.2⟩

end

end Frontier

namespace Engine

variable {S : Type} [Precision S ℝ] {e : Engine S ℝ} {history : History S ℝ}

theorem Run.ordered (hrun : Run Frontier.TakesBest e history) : e.frontier.Ordered := by
  induction hrun with
  | start => exact trivial
  | add _ _ _ ha ih =>
    obtain ⟨level, d, r, blocks, -, -, -, -, -, -, -, rfl⟩ := add_cases ha
    exact ih.insertAll blocks
  | clear _ _ ih => exact ih
  | query _ _ _ ih => exact ih
  | split _ ht _ _ he ih =>
    obtain ⟨r, cache, judged, cache', -, -, -, rfl⟩ := expand_cases he
    exact ht.ordered.insertAll _
  | report _ ht _ hr ih =>
    obtain ⟨r, theta, -, -, -, rfl⟩ := report_cases hr
    exact ht.ordered

/-- Every block that `next` takes off the frontier is one of greatest bound. -/
theorem Run.next_best_first (hrun : Run Frontier.TakesBest e history) :
    Next Frontier.TakesBest e e.next :=
  next_outcome Frontier.Ordered
    (fun _ _ _ hordered hpop => ⟨hordered.pop? hpop, (hordered.pop? hpop).ordered⟩)
    (fun _ bs hordered => hordered.insertAll bs) e hrun.ordered

end Engine

end ScanMatch
