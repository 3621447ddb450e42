import ScanMatch.Proofs.Plane

/-! # Rigid fits in exact arithmetic

The angle of a fit is that of the moment of its pairs, the sum of the products of centered targets
with conjugated centered sources. So the order of pairs does not matter, exchanging sources and
targets inverts the motion, and pairs that one motion joins are joined by their fit. -/
namespace ScanMatch

open Complex (I)
open scoped ComplexConjugate

theorem sum_centered {α : Type} (l : List α) (f g : α → ℂ) (c d : ℂ) :
    (l.map fun x => (f x - c) * (g x - d)).sum =
      (l.map fun x => f x * g x).sum - c * (l.map g).sum - (l.map f).sum * d +
        l.length * (c * d) := by
  induction l with
  | nil => simp
  | cons x l ih =>
    simp only [List.map_cons, List.sum_cons, ih, List.length_cons]
    push_cast
    ring

theorem mean_affine {α : Type} {l : List α} (hl : l ≠ []) (f : α → ℂ) (u v : ℂ) :
    (l.map fun x => u * f x + v).sum / l.length = u * ((l.map f).sum / l.length) + v := by
  have hlength : (l.length : ℂ) ≠ 0 := by simpa using hl
  rw [List.sum_map_add, List.sum_map_mul_left, List.map_const', List.sum_replicate, nsmul_eq_mul]
  field_simp

theorem exp_arg_conj (z : ℂ) :
    Complex.exp ((conj z).arg * I) = conj (Complex.exp (z.arg * I)) := by
  rw [Complex.arg_conj, ← Complex.exp_conj]
  split
  · next h => simp [h, Complex.exp_neg, Complex.exp_pi_mul_I]
  · simp

theorem exp_arg_pos_mul {r : ℝ} (hr : 0 < r) {u : ℂ} (hu : ‖u‖ = 1) :
    Complex.exp ((r * u).arg * I) = u := by
  have h := Complex.norm_mul_exp_arg_mul_I u
  rw [hu, Complex.ofReal_one, one_mul] at h
  rw [Complex.arg_real_mul u hr, h]

namespace RigidFit

section Sums

def sourceSum (f : RigidFit ℝ) : ℂ := ⟨f.sx, f.sy⟩

def targetSum (f : RigidFit ℝ) : ℂ := ⟨f.tx, f.ty⟩

/-- The sum of conjugated sources times targets: their dot products, and their cross products as
imaginary part. -/
def productSum (f : RigidFit ℝ) : ℂ := ⟨f.sxtx + f.syty, f.sxty - f.sytx⟩

theorem sourceSum_add (f : RigidFit ℝ) (s t : Point ℝ) :
    (f.add s t).sourceSum = f.sourceSum + s.toComplex := rfl

theorem targetSum_add (f : RigidFit ℝ) (s t : Point ℝ) :
    (f.add s t).targetSum = f.targetSum + t.toComplex := rfl

theorem productSum_add (f : RigidFit ℝ) (s t : Point ℝ) :
    (f.add s t).productSum = f.productSum + conj s.toComplex * t.toComplex := by
  apply Complex.ext
  · simp only [productSum, add, Point.toComplex, Complex.add_re, Complex.mul_re, Complex.conj_re,
      Complex.conj_im]
    ring
  · simp only [productSum, add, Point.toComplex, Complex.add_im, Complex.mul_im, Complex.conj_re,
      Complex.conj_im]
    ring

theorem weight_add (f : RigidFit ℝ) (s t : Point ℝ) : (f.add s t).weight = f.weight + 1 := by
  simp [add]

variable {M : Type} [AddCommMonoid M]

theorem sum_foldl (φ : RigidFit ℝ → M) (g : Point ℝ × Point ℝ → M)
    (hadd : ∀ f s t, φ (add f s t) = φ f + g (s, t)) (pairs : List (Point ℝ × Point ℝ)) :
    ∀ f, φ (pairs.foldl (fun f p => f.add p.1 p.2) f) = φ f + (pairs.map g).sum := by
  induction pairs with
  | nil => simp
  | cons p pairs ih =>
    intro f
    rw [List.foldl_cons, ih, hadd, List.map_cons, List.sum_cons, add_assoc]

/-- What starts from zero and grows with each pair by an amount of its own is the sum of these. -/
theorem sum_ofPairs (φ : RigidFit ℝ → M) (g : Point ℝ × Point ℝ → M) (hzero : φ empty = 0)
    (hadd : ∀ f s t, φ (add f s t) = φ f + g (s, t)) (pairs : List (Point ℝ × Point ℝ)) :
    φ (ofPairs pairs) = (pairs.map g).sum := by
  rw [ofPairs, sum_foldl φ g hadd, hzero, zero_add]

end Sums

variable (pairs : List (Point ℝ × Point ℝ))

theorem sourceSum_ofPairs :
    (ofPairs pairs).sourceSum = (pairs.map fun m => m.1.toComplex).sum :=
  sum_ofPairs sourceSum _ (Complex.ext Exact.zero_eq Exact.zero_eq) sourceSum_add pairs

theorem targetSum_ofPairs :
    (ofPairs pairs).targetSum = (pairs.map fun m => m.2.toComplex).sum :=
  sum_ofPairs targetSum _ (Complex.ext Exact.zero_eq Exact.zero_eq) targetSum_add pairs

theorem productSum_ofPairs :
    (ofPairs pairs).productSum = (pairs.map fun m => conj m.1.toComplex * m.2.toComplex).sum := by
  apply sum_ofPairs productSum _ ?_ productSum_add
  apply Complex.ext <;> simp [productSum, empty]

@[simp] theorem weight_ofPairs : (ofPairs pairs).weight = pairs.length := by
  rw [sum_ofPairs weight (fun _ => 1) Exact.zero_eq weight_add]
  simp

noncomputable def sourceMean : ℂ := (pairs.map fun m => m.1.toComplex).sum / pairs.length

noncomputable def targetMean : ℂ := (pairs.map fun m => m.2.toComplex).sum / pairs.length

/-- The real part sums the dot products about the centers, the imaginary part the cross products. -/
noncomputable def moment : ℂ :=
  (pairs.map fun m => conj (m.1.toComplex - sourceMean pairs) *
    (m.2.toComplex - targetMean pairs)).sum

/-- The motion that turns by the angle of the moment and takes center to center. -/
noncomputable def motion : Pose ℝ :=
  let center := targetMean pairs - Complex.exp ((moment pairs).arg * I) * sourceMean pairs
  ⟨center.re, center.im, (moment pairs).arg⟩

theorem turn_motion : (motion pairs).turn = Complex.exp ((moment pairs).arg * I) := rfl

theorem shift_motion :
    (motion pairs).shift = targetMean pairs - (motion pairs).turn * sourceMean pairs := rfl

variable {pairs}

theorem moment_eq (h : pairs ≠ []) :
    moment pairs = (ofPairs pairs).productSum -
      conj (ofPairs pairs).sourceSum * (ofPairs pairs).targetSum / pairs.length := by
  have hlength : (pairs.length : ℂ) ≠ 0 := by simpa using h
  have hconj : (pairs.map fun m => conj m.1.toComplex).sum = conj (ofPairs pairs).sourceSum := by
    rw [sourceSum_ofPairs, map_list_sum, List.map_map]
    rfl
  unfold moment
  simp only [map_sub]
  rw [sum_centered, hconj, ← productSum_ofPairs, ← targetSum_ofPairs, sourceMean, targetMean,
    ← sourceSum_ofPairs, ← targetSum_ofPairs, map_div₀, Complex.conj_natCast]
  field_simp
  ring

/-- The sum of the cross products about the centers, as a solution takes it. -/
noncomputable def cross (f : RigidFit ℝ) : ℝ :=
  (f.sxty - f.sx * (f.ty / f.weight) - f.ty * (f.sx / f.weight) +
      f.sx / f.weight * (f.ty / f.weight) * f.weight) -
    (f.sytx - f.sy * (f.tx / f.weight) - f.tx * (f.sy / f.weight) +
      f.sy / f.weight * (f.tx / f.weight) * f.weight)

/-- The sum of the dot products about the centers, as a solution takes it. -/
noncomputable def dot (f : RigidFit ℝ) : ℝ :=
  (f.sxtx - f.sx * (f.tx / f.weight) - f.tx * (f.sx / f.weight) +
      f.sx / f.weight * (f.tx / f.weight) * f.weight) +
    (f.syty - f.sy * (f.ty / f.weight) - f.ty * (f.sy / f.weight) +
      f.sy / f.weight * (f.ty / f.weight) * f.weight)

theorem centered_eq {f : RigidFit ℝ} (h : f.weight ≠ 0) :
    (⟨f.dot, f.cross⟩ : ℂ) = f.productSum - conj f.sourceSum * f.targetSum / f.weight := by
  apply Complex.ext
  · simp only [dot, productSum, sourceSum, targetSum, Complex.sub_re, Complex.div_ofReal_re,
      Complex.mul_re, Complex.conj_re, Complex.conj_im]
    field_simp
    ring
  · simp only [cross, productSum, sourceSum, targetSum, Complex.sub_im, Complex.div_ofReal_im,
      Complex.mul_im, Complex.conj_re, Complex.conj_im]
    field_simp
    ring

/-- The moment is made of the two sums that a solution takes the angle of. -/
theorem moment_eq_centered (h : pairs ≠ []) :
    moment pairs = ⟨(ofPairs pairs).dot, (ofPairs pairs).cross⟩ := by
  have hweight : (ofPairs pairs).weight ≠ 0 := by simpa using h
  rw [moment_eq h, centered_eq hweight, weight_ofPairs, Complex.ofReal_natCast]

/-- The angle of a solution is that of the products of centered pairs, and the center of the sources
goes to that of the targets. -/
theorem solve_eq {f : RigidFit ℝ} (h : 0 < f.weight) :
    ∃ next, f.solve = some next ∧
      next.theta = (f.productSum - conj f.sourceSum * f.targetSum / f.weight).arg ∧
      next.shift = f.targetSum / f.weight - next.turn * (f.sourceSum / f.weight) := by
  have hw : f.weight ≠ 0 := h.ne'
  obtain ⟨theta, hsolve, htheta⟩ : ∃ theta, f.solve = some
      ⟨f.tx / f.weight - Real.cos theta * (f.sx / f.weight) + Real.sin theta * (f.sy / f.weight),
        f.ty / f.weight - Real.sin theta * (f.sx / f.weight) - Real.cos theta * (f.sy / f.weight),
        theta⟩ ∧ theta = (f.productSum - conj f.sourceSum * f.targetSum / f.weight).arg := by
    rw [← centered_eq hw]
    exact ⟨_, if_neg (by simpa using h), rfl⟩
  refine ⟨_, hsolve, htheta, ?_⟩
  apply Complex.ext
  · simp only [Pose.shift, sourceSum, targetSum, Complex.sub_re, Complex.mul_re,
      Complex.div_ofReal_re, Complex.div_ofReal_im, Pose.turn_re, Pose.turn_im]
    ring
  · simp only [Pose.shift, sourceSum, targetSum, Complex.sub_im, Complex.mul_im,
      Complex.div_ofReal_re, Complex.div_ofReal_im, Pose.turn_re, Pose.turn_im]
    ring

/-- Solving fails exactly without pairs. -/
theorem solve_ofPairs :
    (ofPairs pairs).solve = if pairs = [] then none else some (motion pairs) := by
  split
  · next h =>
    subst h
    simp [solve]
  · next h =>
    have hpos : 0 < (ofPairs pairs).weight := by
      rw [weight_ofPairs]
      exact_mod_cast List.length_pos_iff.mpr h
    obtain ⟨next, hsolve, htheta, hshift⟩ := solve_eq hpos
    rw [weight_ofPairs, Complex.ofReal_natCast, ← moment_eq h] at htheta
    rw [weight_ofPairs, Complex.ofReal_natCast, sourceSum_ofPairs, targetSum_ofPairs] at hshift
    have hturn : next.turn = (motion pairs).turn := by
      rw [turn_motion, Pose.turn, htheta]
    rw [hsolve, Pose.eq_of_shift htheta (q := motion pairs)]
    rw [hshift, hturn]
    rfl

theorem motion_perm {pairs pairs' : List (Point ℝ × Point ℝ)} (h : pairs.Perm pairs') :
    motion pairs = motion pairs' := by
  have hlength := h.length_eq
  have hsource : sourceMean pairs = sourceMean pairs' := by
    rw [sourceMean, sourceMean, (h.map _).sum_eq, hlength]
  have htarget : targetMean pairs = targetMean pairs' := by
    rw [targetMean, targetMean, (h.map _).sum_eq, hlength]
  have hmoment : moment pairs = moment pairs' := by
    rw [moment, moment, hsource, htarget, (h.map _).sum_eq]
  rw [motion, motion, hsource, htarget, hmoment]

/-! ### Exchanged pairs -/

theorem sourceMean_swap (pairs : List (Point ℝ × Point ℝ)) :
    sourceMean (pairs.map Prod.swap) = targetMean pairs := by
  rw [sourceMean, targetMean, List.map_map, List.length_map]
  rfl

theorem targetMean_swap (pairs : List (Point ℝ × Point ℝ)) :
    targetMean (pairs.map Prod.swap) = sourceMean pairs := by
  rw [sourceMean, targetMean, List.map_map, List.length_map]
  rfl

theorem moment_swap (pairs : List (Point ℝ × Point ℝ)) :
    moment (pairs.map Prod.swap) = conj (moment pairs) := by
  rw [moment, moment, sourceMean_swap, targetMean_swap, map_list_sum, List.map_map, List.map_map]
  congr 1
  apply List.map_congr_left
  intro m _
  change conj (m.2.toComplex - targetMean pairs) * (m.1.toComplex - sourceMean pairs) =
    conj (conj (m.1.toComplex - sourceMean pairs) * (m.2.toComplex - targetMean pairs))
  rw [map_mul, Complex.conj_conj, mul_comm]

/-- Fitting the targets to the sources inverts the motion. -/
theorem motion_swap (pairs : List (Point ℝ × Point ℝ)) :
    (motion (pairs.map Prod.swap)).Congruent (motion pairs).inverse := by
  have hturn : (motion (pairs.map Prod.swap)).turn = conj (motion pairs).turn := by
    rw [turn_motion, turn_motion, moment_swap, exp_arg_conj]
  rw [Pose.congruent_iff, Pose.turn_inverse, Pose.shift_inverse]
  refine ⟨hturn, ?_⟩
  rw [shift_motion, shift_motion, hturn, sourceMean_swap, targetMean_swap]
  linear_combination -sourceMean pairs * (motion pairs).conj_turn_mul_turn

/-! ### Pairs that one motion joins -/

section Joined

variable {p : Pose ℝ} (hp : ∀ m ∈ pairs, Alignment.move p m.1 = m.2)

/-- How far the sources lie from their center, in squares. -/
noncomputable def spread (pairs : List (Point ℝ × Point ℝ)) : ℝ :=
  (pairs.map fun m => Complex.normSq (m.1.toComplex - sourceMean pairs)).sum

theorem spread_nonneg (pairs : List (Point ℝ × Point ℝ)) : 0 ≤ spread pairs := by
  apply List.sum_nonneg
  simp only [List.mem_map, forall_exists_index, and_imp]
  rintro _ m _ rfl
  exact Complex.normSq_nonneg _

theorem eq_sourceMean_of_spread (h : spread pairs = 0) :
    ∀ m ∈ pairs, m.1.toComplex = sourceMean pairs := by
  intro m hm
  have hzero : Complex.normSq (m.1.toComplex - sourceMean pairs) = 0 := by
    refine List.all_zero_of_le_zero_le_of_sum_eq_zero ?_ h (List.mem_map_of_mem hm)
    simp only [List.mem_map, forall_exists_index, and_imp]
    rintro _ m _ rfl
    exact Complex.normSq_nonneg _
  rwa [Complex.normSq_eq_zero, sub_eq_zero] at hzero

include hp

theorem targetMean_joined (hne : pairs ≠ []) :
    targetMean pairs = p.turn * sourceMean pairs + p.shift := by
  have htargets : pairs.map (fun m => m.2.toComplex) =
      pairs.map fun m => p.turn * m.1.toComplex + p.shift := by
    apply List.map_congr_left
    intro m hm
    rw [← hp m hm, Alignment.toComplex_move]
  rw [targetMean, htargets, mean_affine hne, sourceMean]

theorem moment_joined (hne : pairs ≠ []) : moment pairs = spread pairs * p.turn := by
  rw [moment, targetMean_joined hp hne, spread, ← Complex.ofRealHom_eq_coe, map_list_sum,
    List.map_map, ← List.sum_map_mul_right]
  congr 1
  apply List.map_congr_left
  intro m hm
  rw [← hp m hm, Alignment.toComplex_move, Function.comp_apply, Complex.ofRealHom_eq_coe,
    Complex.normSq_eq_conj_mul_self]
  ring

theorem turn_joined (hne : pairs ≠ []) (hspread : spread pairs ≠ 0) :
    (motion pairs).turn = p.turn := by
  have hpos : 0 < spread pairs := lt_of_le_of_ne (spread_nonneg pairs) hspread.symm
  rw [turn_motion, moment_joined hp hne]
  exact exp_arg_pos_mul hpos p.norm_turn

/-- The fit of such pairs joins them as well, even where it has a choice. -/
theorem motion_joins (hne : pairs ≠ []) :
    ∀ m ∈ pairs, Alignment.move (motion pairs) m.1 = m.2 := by
  intro m hm
  rw [← hp m hm]
  apply Point.toComplex_injective
  rw [Alignment.toComplex_move, Alignment.toComplex_move, shift_motion, targetMean_joined hp hne]
  by_cases hspread : spread pairs = 0
  · -- all sources lie at their center, which the fit takes where the motion does
    rw [eq_sourceMean_of_spread hspread m hm]
    ring
  · rw [turn_joined hp hne hspread]
    ring

omit hp in
theorem spread_ne_zero (hdistinct : ∃ m ∈ pairs, ∃ m' ∈ pairs, m.1 ≠ m'.1) : spread pairs ≠ 0 := by
  obtain ⟨m, hm, m', hm', hdiffer⟩ := hdistinct
  intro hzero
  apply hdiffer
  apply Point.toComplex_injective
  rw [eq_sourceMean_of_spread hzero m hm, eq_sourceMean_of_spread hzero m' hm']

theorem motion_congruent (hdistinct : ∃ m ∈ pairs, ∃ m' ∈ pairs, m.1 ≠ m'.1) :
    (motion pairs).Congruent p := by
  have hne : pairs ≠ [] := List.ne_nil_of_mem hdistinct.choose_spec.1
  have hturn := turn_joined hp hne (spread_ne_zero hdistinct)
  rw [Pose.congruent_iff, shift_motion, hturn, targetMean_joined hp hne]
  exact ⟨rfl, add_sub_cancel_left _ _⟩

/-- Such pairs have a direction unless all their sources are one point. -/
theorem moment_ne_zero (hdistinct : ∃ m ∈ pairs, ∃ m' ∈ pairs, m.1 ≠ m'.1) : moment pairs ≠ 0 := by
  have hne : pairs ≠ [] := List.ne_nil_of_mem hdistinct.choose_spec.1
  have hturn : p.turn ≠ 0 := by
    rw [← norm_ne_zero_iff, p.norm_turn]
    exact one_ne_zero
  rw [moment_joined hp hne]
  exact mul_ne_zero (Complex.ofReal_ne_zero.mpr (spread_ne_zero hdistinct)) hturn

end Joined

end RigidFit

end ScanMatch
