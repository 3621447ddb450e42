import ScanMatch.Proofs.Rounds

/-! # The frame of the fixed scan

If the scan that another is moved onto is itself moved, and the first guess with it, then an
alignment keeps the same matches in every round and its motions go along. Only a fit whose moment
is zero need not go along, for then all angles are as good.
-/
namespace ScanMatch

open Complex (I)
open scoped ComplexConjugate

namespace Pose

theorem sq_add_sq (p q : Pose ℝ) :
    Arith.sq (p.x - q.x) + Arith.sq (p.y - q.y) = Complex.normSq (p.shift - q.shift) := by
  simp [Arith.sq, shift, Complex.normSq_apply]

theorem normSq_turn_mul (p : Pose ℝ) (z : ℂ) : Complex.normSq (p.turn * z) = Complex.normSq z := by
  rw [Complex.normSq_mul, Complex.normSq_eq_norm_sq p.turn, norm_turn, one_pow, one_mul]

/-- Motions that go along with a frame turn by as much from one to the next. -/
theorem diff_congr {frame p p' q q' : Pose ℝ} (hp : p'.Congruent (frame.compose p))
    (hq : q'.Congruent (frame.compose q)) :
    Angle.diff q'.theta p'.theta = Angle.diff q.theta p.theta := by
  obtain ⟨m, hm⟩ := hp.theta
  obtain ⟨n, hn⟩ := hq.theta
  obtain ⟨k, hk⟩ := Angle.normalize_eq_sub (frame.theta + p.theta)
  obtain ⟨l, hl⟩ := Angle.normalize_eq_sub (frame.theta + q.theta)
  change p'.theta = Angle.normalize (frame.theta + p.theta) + _ at hm
  change q'.theta = Angle.normalize (frame.theta + q.theta) + _ at hn
  have hdiff : p'.theta - q'.theta =
      p.theta - q.theta - ((k - m - l + n : ℤ) : ℝ) * (2 * Real.pi) := by
    rw [hm, hn, hk, hl]
    push_cast
    ring
  rw [Angle.diff, Angle.diff, hdiff, Angle.normalize_sub_turns]

end Pose

namespace RigidFit

variable (frame : Pose ℝ) (pairs : List (Point ℝ × Point ℝ))

/-- The pairs with their targets moved. -/
noncomputable def follow : List (Point ℝ × Point ℝ) :=
  pairs.map (Prod.map id (Alignment.move frame))

theorem sourceMean_follow : sourceMean (follow frame pairs) = sourceMean pairs := by
  rw [sourceMean, sourceMean, follow, List.map_map, List.length_map]
  rfl

variable {pairs} (hne : pairs ≠ [])

include hne

theorem targetMean_follow :
    targetMean (follow frame pairs) = frame.turn * targetMean pairs + frame.shift := by
  rw [targetMean, targetMean, ← mean_affine hne, follow, List.map_map, List.length_map]
  congr 2
  apply List.map_congr_left
  intro m _
  exact Alignment.toComplex_move frame m.2

theorem moment_follow : moment (follow frame pairs) = frame.turn * moment pairs := by
  rw [moment, moment, sourceMean_follow, targetMean_follow frame hne, ← List.sum_map_mul_left,
    follow, List.map_map]
  congr 1
  apply List.map_congr_left
  intro m _
  change conj (m.1.toComplex - _) * ((Alignment.move frame m.2).toComplex - _) = _
  rw [Alignment.toComplex_move]
  ring

/-- The fit of pairs goes along with their targets, if it has an angle. -/
theorem motion_follow (hmoment : moment pairs ≠ 0) :
    (motion (follow frame pairs)).Congruent (frame.compose (motion pairs)) := by
  have hturn : (motion (follow frame pairs)).turn = frame.turn * (motion pairs).turn := by
    rw [turn_motion, turn_motion, moment_follow frame hne]
    have hpolar : frame.turn * moment pairs =
        ‖moment pairs‖ * (frame.turn * Complex.exp ((moment pairs).arg * I)) := by
      rw [mul_left_comm, Complex.norm_mul_exp_arg_mul_I]
    rw [hpolar]
    refine exp_arg_pos_mul (norm_pos_iff.mpr hmoment) ?_
    rw [norm_mul, Pose.norm_turn, Complex.norm_exp_ofReal_mul_I, one_mul]
  rw [Pose.congruent_iff, Pose.turn_compose, Pose.shift_compose, shift_motion, shift_motion, hturn,
    sourceMean_follow, targetMean_follow frame hne]
  refine ⟨rfl, ?_⟩
  ring

end RigidFit

namespace Alignment

variable {frame : Pose ℝ}

section Matches

variable {p p' : Pose ℝ} (h : p'.Congruent (frame.compose p))

include h

theorem distanceSq_follow (s t : Point ℝ) :
    (move p' s).distanceSq (move frame t) = (move p s).distanceSq t := by
  obtain ⟨hturn, hshift⟩ := Pose.congruent_iff.mp h
  rw [Pose.turn_compose] at hturn
  rw [Pose.shift_compose] at hshift
  rw [Point.distanceSq_eq, Point.distanceSq_eq,
    ← frame.normSq_turn_mul ((move p s).toComplex - t.toComplex), toComplex_move, toComplex_move,
    toComplex_move, hturn, hshift]
  congr 1
  ring

theorem forth_follow (b : Array (Point ℝ)) (t : Point ℝ) :
    forth b p' (move frame t) = forth b p t :=
  Neighbour.nearest_map_congr b fun s => distanceSq_follow h s t

theorem back_follow (a : Array (Point ℝ)) : back (a.map (move frame)) p' = back a p := by
  funext s
  have hmap := Neighbour.nearest_map_congr (f := move frame) (g := id) (p := move p' s)
    (q := move p s) a ?_
  · simpa [back] using hmap
  · intro t
    rw [Point.distanceSq_comm, distanceSq_follow h, Point.distanceSq_comm]
    rfl

/-- A moved scan has the same matches, with one end of each moved. -/
theorem pairs_follow (ratio : ℝ) (a b : Array (Point ℝ)) :
    pairs ratio (a.map (move frame)) b p' = RigidFit.follow frame (pairs ratio a b p) := by
  have hforth : kept ratio (forth b p') (back a p) (a.map (move frame)) b =
      (kept ratio (forth b p) (back a p) a b).map (Prod.map (move frame) id) := by
    rw [kept, kept, Array.toList_map, List.filterMap_map, List.map_filterMap]
    apply List.filterMap_congr
    intro t _
    rw [Function.comp_apply, forth_follow h]
    cases b[(forth b p t).index]? with
    | none => rfl
    | some s =>
      have hmove (keep : Bool) : (if keep then some (move frame t, s) else none) =
          Option.map (Prod.map (move frame) id) (if keep then some (t, s) else none) := by
        cases keep <;> rfl
      exact hmove _
  have hback : kept ratio (back a p) (forth b p') b (a.map (move frame)) =
      (kept ratio (back a p) (forth b p) b a).map (Prod.map id (move frame)) := by
    rw [kept, kept, List.map_filterMap]
    apply List.filterMap_congr
    intro s _
    rw [Array.getElem?_map]
    cases a[(back a p s).index]? with
    | none => rfl
    | some t =>
      have hmove (keep : Bool) : (if keep then some (s, move frame t) else none) =
          Option.map (Prod.map id (move frame)) (if keep then some (s, t) else none) := by
        cases keep <;> rfl
      simp only [Option.map_some, forth_follow h]
      exact hmove _
  rw [pairs_eq, pairs_eq, back_follow h, hforth, hback, RigidFit.follow, List.map_append,
    List.map_map, List.map_map]
  rfl

end Matches

variable {params : AlignParams ℝ} {a b : Array (Point ℝ)}

theorem settled_follow {p p' q q' : Pose ℝ} (hp : p'.Congruent (frame.compose p))
    (hq : q'.Congruent (frame.compose q)) : settled params p' q' = settled params p q := by
  have hmoved : Arith.sq (p'.x - q'.x) + Arith.sq (p'.y - q'.y) =
      Arith.sq (p.x - q.x) + Arith.sq (p.y - q.y) := by
    have hshift : p'.shift - q'.shift = frame.turn * (p.shift - q.shift) := by
      rw [(Pose.congruent_iff.mp hp).2, (Pose.congruent_iff.mp hq).2, Pose.shift_compose,
        Pose.shift_compose]
      ring
    rw [Pose.sq_add_sq, Pose.sq_add_sq, hshift, Pose.normSq_turn_mul]
  rw [settled, settled, hmoved, Pose.diff_congr hp hq]

/-- The same count of rounds and matches, at motions that go along with a frame. -/
structure Follows (frame : Pose ℝ) (s' s : Aligned ℝ) : Prop where
  pose : s'.pose.Congruent (frame.compose s.pose)
  weight : s'.weight = s.weight
  iterations : s'.iterations = s.iterations

/-- The matches from a state on determine the angle of their fit, if there are any. -/
def Turns (params : AlignParams ℝ) (a b : Array (Point ℝ)) (s : Aligned ℝ) : Prop :=
  pairs params.maxDistRatio a b s.pose ≠ [] →
    RigidFit.moment (pairs params.maxDistRatio a b s.pose) ≠ 0

namespace Follows

variable {s s' : Aligned ℝ}

theorem pairs_eq_nil_iff (h : Follows frame s' s) :
    pairs params.maxDistRatio (a.map (move frame)) b s'.pose = [] ↔
      pairs params.maxDistRatio a b s.pose = [] := by
  rw [pairs_follow h.pose, RigidFit.follow, List.map_eq_nil_iff]

theorem afterRound (h : Follows frame s' s) (hturns : Turns params a b s) :
    Follows frame (afterRound params (a.map (move frame)) b s') (afterRound params a b s) := by
  refine ⟨?_, ?_, by simp [Alignment.afterRound, h.iterations]⟩
  · by_cases hnil : pairs params.maxDistRatio a b s.pose = []
    · simpa [Alignment.afterRound, hnil, h.pairs_eq_nil_iff.mpr hnil] using h.pose
    · have hnil' := mt h.pairs_eq_nil_iff.mp hnil
      simp only [Alignment.afterRound, if_neg hnil, if_neg hnil']
      rw [pairs_follow h.pose]
      exact RigidFit.motion_follow frame hnil (hturns hnil)
  · simp [Alignment.afterRound, pairs_follow h.pose, RigidFit.follow]

theorem final_iff (h : Follows frame s' s) (hturns : Turns params a b s) :
    Final params (a.map (move frame)) b s' ↔ Final params a b s := by
  rw [Final, Final, h.pairs_eq_nil_iff, settled_follow h.pose (h.afterRound hturns).pose]

/-- Both runs go on for as long, if the fits along the one have angles. -/
theorem rounds (n : ℕ) : ∀ {s s' : Aligned ℝ}, Follows frame s' s →
    (∀ j, s.iterations + j < (rounds params a b n s).iterations →
      Turns params a b ((Alignment.afterRound params a b)^[j] s)) →
    Follows frame (rounds params (a.map (move frame)) b n s') (rounds params a b n s) := by
  induction n with
  | zero => exact fun h _ => h
  | succ n ih =>
    intro s s' h hturns
    by_cases hfinal : Final params a b s
    · rw [rounds_of_final hfinal] at hturns ⊢
      have hturns₀ : Turns params a b s := hturns 0 (Nat.lt_succ_self _)
      rw [rounds_of_final ((h.final_iff hturns₀).mpr hfinal)]
      exact h.afterRound hturns₀
    · rw [rounds_of_not_final hfinal] at hturns ⊢
      obtain ⟨m, -, hiterations, -, -⟩ :=
        exists_iterate params a b n (Alignment.afterRound params a b s)
      have hturns₀ : Turns params a b s := by
        refine hturns 0 ?_
        rw [hiterations]
        exact Nat.lt_add_right m (Nat.lt_succ_self _)
      rw [rounds_of_not_final (mt (h.final_iff hturns₀).mp hfinal)]
      refine ih (h.afterRound hturns₀) ?_
      intro j hj
      rw [← Function.iterate_succ_apply]
      refine hturns (j + 1) ?_
      rwa [← Nat.add_assoc, Nat.add_right_comm]

end Follows

/-- Moving the fixed scan and the first guess moves the motion found and changes neither the count
of rounds nor that of matches, as long as no fit on the way is without direction. -/
theorem align_follows (a b : Array (Point ℝ)) (initial frame : Pose ℝ) (params : AlignParams ℝ)
    (hfits : ∀ k < (align a b initial params).iterations, matchesAt a b initial params k ≠ [] →
      ¬ ((RigidFit.ofPairs (matchesAt a b initial params k)).cross = 0 ∧
        (RigidFit.ofPairs (matchesAt a b initial params k)).dot = 0)) :
    let run := align a b initial params
    let moved := align (a.map frame.transform) b (frame.compose initial) params
    moved.iterations = run.iterations ∧ moved.weight = run.weight ∧
      moved.pose.Congruent (frame.compose run.pose) := by
  have hmove : (frame.transform : Point ℝ → Point ℝ) = move frame :=
    funext fun p => transform_eq_move frame p
  have hstart : Follows frame ⟨frame.compose initial, 0, 0⟩ ⟨initial, 0, 0⟩ :=
    ⟨Pose.congruent_iff.mpr ⟨rfl, rfl⟩, rfl, rfl⟩
  have hfollows : Follows frame (align (a.map frame.transform) b (frame.compose initial) params)
      (align a b initial params) := by
    by_cases hempty : a = #[] ∨ b = #[]
    · rw [align_of_empty hempty, align_of_empty (hempty.imp_left Array.map_eq_empty_iff.mpr)]
      exact hstart
    · obtain ⟨ha, hb⟩ := not_or.mp hempty
      have hturns : ∀ j < (align a b initial params).iterations,
          Turns params a b ((afterRound params a b)^[j] ⟨initial, 0, 0⟩) := by
        intro j hj hne hzero
        have hpose := poseAt_eq_iterate ha hb initial params hj.le
        have hfit := hfits j hj
        rw [matchesAt, hpose, widenAll_self, widenAll_self] at hfit
        rw [RigidFit.moment_eq_centered hne] at hzero
        exact hfit hne ⟨congrArg Complex.im hzero, congrArg Complex.re hzero⟩
      have hmoved : a.map (move frame) ≠ #[] := mt Array.map_eq_empty_iff.mp ha
      rw [hmove, align_eq ha hb, align_eq hmoved hb]
      simp only [widenAll_self]
      refine hstart.rounds params.maxIterations ?_
      intro j hj
      apply hturns
      rwa [Nat.zero_add, ← widenAll_self a, ← widenAll_self b, ← align_eq ha hb] at hj
  exact ⟨hfollows.iterations, hfollows.weight, hfollows.pose⟩

/-- Two points and their images under a quarter turn, moved as a whole. -/
theorem align_follows_quarter :
    let a : Array (Point ℝ) := #[⟨1, 2⟩, ⟨1, 3⟩]
    let b : Array (Point ℝ) := #[⟨0, 0⟩, ⟨1, 0⟩]
    let params : AlignParams ℝ := ⟨2, 1, 1, 1⟩
    let frame : Pose ℝ := ⟨5, -7, 1⟩
    (∀ k < (align a b quarter params).iterations, matchesAt a b quarter params k ≠ [] →
      ¬ ((RigidFit.ofPairs (matchesAt a b quarter params k)).cross = 0 ∧
        (RigidFit.ofPairs (matchesAt a b quarter params k)).dot = 0)) ∧
    (align a b quarter params).iterations = 1 ∧ 2 ≤ (align a b quarter params).weight ∧
    (align (a.map frame.transform) b (frame.compose quarter) params).iterations = 1 ∧
    (align (a.map frame.transform) b (frame.compose quarter) params).pose.Congruent
      (frame.compose (align a b quarter params).pose) := by
  intro a b params frame
  have ha : a ≠ #[] := by simp [a]
  have hb : b ≠ #[] := by simp [b]
  have hcovered : ∀ p ∈ a, ∃ q ∈ b, move quarter q = p := by
    norm_num [a, b, ← transform_eq_move, quarter_transform]
  have hcovers : ∀ q ∈ b, ∃ p ∈ a, move quarter q = p := by
    norm_num [a, b, ← transform_eq_move, quarter_transform]
  have hone : align a b quarter params = afterRound params a b ⟨quarter, 0, 0⟩ := by
    rw [align_eq ha hb, widenAll_self, widenAll_self]
    exact rounds_one _
  have hrounds : (align a b quarter params).iterations = 1 := by
    rw [hone]
    rfl
  have hmoment : RigidFit.moment (pairs params.maxDistRatio a b quarter) ≠ 0 :=
    RigidFit.moment_ne_zero (fun m hm => pairs_coincide_covered ha hb hcovered hcovers hm)
      (pairs_distinct_covered ha hb hcovers _ ⟨⟨0, 0⟩, by simp [b], ⟨1, 0⟩, by simp [b], by simp⟩)
  have hfits : ∀ k < (align a b quarter params).iterations, matchesAt a b quarter params k ≠ [] →
      ¬ ((RigidFit.ofPairs (matchesAt a b quarter params k)).cross = 0 ∧
        (RigidFit.ofPairs (matchesAt a b quarter params k)).dot = 0) := by
    intro k hk
    rw [hrounds, Nat.lt_one_iff] at hk
    rw [hk, matchesAt, poseAt_zero, widenAll_self, widenAll_self]
    rintro hne ⟨hcross, hdot⟩
    apply hmoment
    rw [RigidFit.moment_eq_centered hne, hcross, hdot]
    rfl
  have hweight : 2 ≤ (align a b quarter params).weight := by
    have hlength : 2 ≤ (pairs 2 a b quarter).length :=
      two_le_length_pairs ha hb (by norm_num)
    rw [hone]
    change 2 ≤ ((pairs 2 a b quarter).length : ℝ)
    exact_mod_cast hlength
  obtain ⟨hiterations, -, hpose⟩ := align_follows a b quarter frame params hfits
  exact ⟨hfits, hrounds, hweight, hiterations.trans hrounds, hpose⟩

end Alignment

end ScanMatch
