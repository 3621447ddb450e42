import ScanMatch.Proofs.Fitting
import ScanMatch.Proofs.Neighbours

/-! # Rounds of an alignment

What a run of rounds does, round by round, in exact arithmetic: a match once found is never lost,
exchanging the scans inverts the motion, and from the true motion one round is enough. -/
namespace ScanMatch

namespace Alignment

variable {params : AlignParams ℝ} {a b : Array (Point ℝ)}

/-- The state after one more round. Without matches the motion stays. -/
noncomputable def afterRound (params : AlignParams ℝ) (a b : Array (Point ℝ)) (s : Aligned ℝ) :
    Aligned ℝ :=
  let matched := pairs params.maxDistRatio a b s.pose
  { pose := if matched = [] then s.pose else RigidFit.motion matched
    weight := matched.length
    iterations := s.iterations + 1 }

/-- The round from this state is the last one, whatever the budget. -/
def Final (params : AlignParams ℝ) (a b : Array (Point ℝ)) (s : Aligned ℝ) : Prop :=
  pairs params.maxDistRatio a b s.pose = [] ∨
    settled params s.pose (afterRound params a b s).pose = true

theorem afterRound_of_nil {s : Aligned ℝ} (h : pairs params.maxDistRatio a b s.pose = []) :
    afterRound params a b s = { s with weight := 0, iterations := s.iterations + 1 } := by
  simp [afterRound, h]

theorem rounds_of_final {s : Aligned ℝ} (h : Final params a b s) (n : ℕ) :
    rounds params a b (n + 1) s = afterRound params a b s := by
  rw [rounds, RigidFit.solve_ofPairs]
  by_cases hnil : pairs params.maxDistRatio a b s.pose = []
  · rw [if_pos hnil, afterRound_of_nil hnil]
    simp
  · obtain hnil' | hsettled := h
    · exact absurd hnil' hnil
    · simp only [afterRound, if_neg hnil] at hsettled ⊢
      simp [hsettled]

theorem rounds_of_not_final {s : Aligned ℝ} (h : ¬ Final params a b s) (n : ℕ) :
    rounds params a b (n + 1) s = rounds params a b n (afterRound params a b s) := by
  obtain ⟨hnil, hsettled⟩ := not_or.mp h
  rw [rounds, RigidFit.solve_ofPairs]
  simp only [afterRound, if_neg hnil] at hsettled ⊢
  simp [hsettled]

theorem rounds_one (s : Aligned ℝ) : rounds params a b 1 s = afterRound params a b s := by
  by_cases hfinal : Final params a b s
  · exact rounds_of_final hfinal 0
  · exact rounds_of_not_final hfinal 0

/-- A run is so many single rounds, and a run with less budget is a beginning of it. -/
theorem exists_iterate (params : AlignParams ℝ) (a b : Array (Point ℝ)) (n : ℕ) :
    ∀ s, ∃ m, (1 ≤ n → 1 ≤ m) ∧
      (rounds params a b n s).iterations = s.iterations + m ∧
      rounds params a b n s = (afterRound params a b)^[m] s ∧
      ∀ k ≤ m, rounds params a b k s = (afterRound params a b)^[k] s := by
  induction n with
  | zero =>
    intro s
    refine ⟨0, by omega, rfl, rfl, ?_⟩
    intro k hk
    obtain rfl := Nat.le_zero.mp hk
    rfl
  | succ n ih =>
    intro s
    by_cases hfinal : Final params a b s
    · have hlast := rounds_of_final hfinal n
      refine ⟨1, fun _ => le_refl 1, congrArg Aligned.iterations hlast, hlast, ?_⟩
      intro k hk
      cases k with
      | zero => rfl
      | succ k =>
        obtain rfl : k = 0 := by omega
        exact rounds_of_final hfinal 0
    · obtain ⟨m, -, hiterations, hrounds, hbegins⟩ := ih (afterRound params a b s)
      rw [rounds_of_not_final hfinal]
      refine ⟨m + 1, by omega, ?_, hrounds, ?_⟩
      · rw [hiterations, add_comm m, ← add_assoc]
        rfl
      · intro k hk
        cases k with
        | zero => rfl
        | succ k =>
          rw [rounds_of_not_final hfinal]
          exact hbegins k (by omega)

/-! ### Matches last -/

/-- Matches that coincide are fitted exactly and so meet again, and a ratio of one or more always
keeps the closest pair. -/
theorem afterRound_matched (ha : a ≠ #[]) (hb : b ≠ #[]) {s : Aligned ℝ}
    (h : pairs params.maxDistRatio a b s.pose ≠ []) :
    pairs params.maxDistRatio a b (afterRound params a b s).pose ≠ [] := by
  by_cases hratio : params.maxDistRatio < 1
  · obtain ⟨m, hm⟩ := List.exists_mem_of_ne_nil _ h
    have hjoined := RigidFit.motion_joins (fun m hm => pairs_coincide ha hb hratio hm) h m hm
    obtain ⟨hq, hp⟩ := mem_of_mem_pairs hm
    refine pairs_ne_nil ha hb hp hq ?_
    simp only [afterRound, if_neg h]
    exact hjoined
  · apply List.ne_nil_of_length_pos
    calc 0 < 2 := Nat.two_pos
      _ ≤ _ := two_le_length_pairs ha hb (not_lt.mp hratio)

theorem iterate_matched (ha : a ≠ #[]) (hb : b ≠ #[]) {s : Aligned ℝ}
    (h : pairs params.maxDistRatio a b s.pose ≠ []) (k : ℕ) :
    pairs params.maxDistRatio a b ((afterRound params a b)^[k] s).pose ≠ [] := by
  induction k with
  | zero => exact h
  | succ k ih =>
    rw [Function.iterate_succ_apply']
    exact afterRound_matched ha hb ih

/-! ### Exchanged scans -/

/-- The same count of rounds and matches, at inverse motions. -/
structure Mirrors (s' s : Aligned ℝ) : Prop where
  pose : s'.pose.Congruent s.pose.inverse
  weight : s'.weight = s.weight
  iterations : s'.iterations = s.iterations

theorem not_settled (h : params.transThresh = 0) (pose next : Pose ℝ) :
    settled params pose next = false := by
  have hmoved : 0 ≤ Arith.sq (pose.x - next.x) + Arith.sq (pose.y - next.y) :=
    add_nonneg (mul_self_nonneg _) (mul_self_nonneg _)
  have hthresh : Arith.sq params.transThresh = 0 := by simp [Arith.sq, h]
  simp [settled, hthresh, hmoved]

theorem final_iff (h : params.transThresh = 0) {s : Aligned ℝ} :
    Final params a b s ↔ pairs params.maxDistRatio a b s.pose = [] := by
  simp [Final, not_settled h]

/-- Without a threshold only the budget ends a run that has a match. -/
theorem iterations_rounds (hthresh : params.transThresh = 0) (ha : a ≠ #[]) (hb : b ≠ #[]) (n : ℕ) :
    ∀ {s : Aligned ℝ}, pairs params.maxDistRatio a b s.pose ≠ [] →
      (rounds params a b n s).iterations = s.iterations + n := by
  induction n with
  | zero => exact fun _ => rfl
  | succ n ih =>
    intro s hmatched
    rw [rounds_of_not_final (mt (final_iff hthresh).mp hmatched),
      ih (afterRound_matched ha hb hmatched), add_comm n, ← add_assoc]
    rfl

namespace Mirrors

variable {s s' : Aligned ℝ}

theorem pairs_perm (h : Mirrors s' s) (ratio : ℝ) (a b : Array (Point ℝ)) :
    (pairs ratio b a s'.pose).Perm ((pairs ratio a b s.pose).map Prod.swap) :=
  pairs_exchange h.pose ratio a b

theorem pairs_eq_nil_iff (h : Mirrors s' s) :
    pairs params.maxDistRatio b a s'.pose = [] ↔ pairs params.maxDistRatio a b s.pose = [] := by
  have hlength := (h.pairs_perm params.maxDistRatio a b).length_eq
  rw [List.length_map] at hlength
  rw [← List.length_eq_zero_iff, hlength, List.length_eq_zero_iff]

theorem afterRound (h : Mirrors s' s) (params : AlignParams ℝ) (a b : Array (Point ℝ)) :
    Mirrors (afterRound params b a s') (afterRound params a b s) := by
  have hperm := h.pairs_perm params.maxDistRatio a b
  refine ⟨?_, ?_, by simp [Alignment.afterRound, h.iterations]⟩
  · by_cases hnil : pairs params.maxDistRatio a b s.pose = []
    · simpa [Alignment.afterRound, hnil, h.pairs_eq_nil_iff.mpr hnil] using h.pose
    · have hnil' := mt h.pairs_eq_nil_iff.mp hnil
      simp only [Alignment.afterRound, if_neg hnil, if_neg hnil']
      rw [RigidFit.motion_perm hperm]
      exact RigidFit.motion_swap _
  · simpa [Alignment.afterRound] using hperm.length_eq

/-- Without a threshold a run ends by its budget or for want of matches, and so both at once. -/
theorem rounds (hthresh : params.transThresh = 0) (n : ℕ) : ∀ {s s' : Aligned ℝ}, Mirrors s' s →
    Mirrors (rounds params b a n s') (rounds params a b n s) := by
  induction n with
  | zero => exact fun h => h
  | succ n ih =>
    intro s s' h
    by_cases hfinal : Final params a b s
    · have hfinal' : Final params b a s' := by
        rw [final_iff hthresh] at hfinal ⊢
        exact h.pairs_eq_nil_iff.mpr hfinal
      rw [rounds_of_final hfinal, rounds_of_final hfinal']
      exact h.afterRound params a b
    · have hfinal' : ¬ Final params b a s' := by
        rw [final_iff hthresh] at hfinal ⊢
        exact mt h.pairs_eq_nil_iff.mp hfinal
      rw [rounds_of_not_final hfinal, rounds_of_not_final hfinal']
      exact ih (h.afterRound params a b)

end Mirrors

/-! ### The true motion -/

theorem settled_of_congruent (htrans : 0 < params.transThresh) (hrad : 0 < params.radThresh)
    {pose next : Pose ℝ} (h : next.Congruent pose) : settled params pose next = true := by
  have hmoved : Arith.sq (pose.x - next.x) + Arith.sq (pose.y - next.y) = 0 := by
    simp [Arith.sq, h.x, h.y]
  have hturned : Angle.diff next.theta pose.theta = 0 := by
    obtain ⟨k, hk⟩ := h.theta
    have hdiff : pose.theta - next.theta = 0 - k * (2 * Real.pi) := by
      rw [hk]
      ring
    rw [Angle.diff, hdiff, Angle.normalize_sub_turns, Angle.normalize_eq_toIcoMod,
      toIcoMod_eq_self]
    constructor <;> linarith [Real.pi_pos]
  have hthresh : 0 < Arith.sq params.transThresh := mul_pos htrans htrans
  simp [settled, hmoved, hturned, Arith.abs, hthresh, hrad]

/-- From a motion that takes the clouds onto each other, a round keeps all matches and finds that
motion again. -/
theorem afterRound_covered (params : AlignParams ℝ) (truth : Pose ℝ)
    (hcovered : ∀ p ∈ a, ∃ q ∈ b, move truth q = p) (hcovers : ∀ q ∈ b, move truth q ∈ a)
    (hdistinct : ∃ q ∈ b, ∃ q' ∈ b, q ≠ q') :
    (afterRound params a b ⟨truth, 0, 0⟩).weight = (a.size + b.size : ℕ) ∧
      (afterRound params a b ⟨truth, 0, 0⟩).pose.Congruent truth := by
  have hcovers' : ∀ q ∈ b, ∃ p ∈ a, move truth q = p := fun q hq => ⟨_, hcovers q hq, rfl⟩
  obtain ⟨q, hq⟩ : ∃ q, q ∈ b := hdistinct.imp fun _ h => h.1
  have hb : b ≠ #[] := Array.ne_empty_of_mem hq
  have ha : a ≠ #[] := Array.ne_empty_of_mem (hcovers q hq)
  have hlength := length_pairs_covered ha hb hcovered hcovers' params.maxDistRatio
  have hne : pairs params.maxDistRatio a b truth ≠ [] := pairs_ne_nil ha hb (hcovers q hq) hq rfl
  refine ⟨by rw [← hlength]; rfl, ?_⟩
  simp only [afterRound, if_neg hne]
  -- two different points have matches, so that only one motion joins all of them
  exact RigidFit.motion_congruent
    (fun m hm => pairs_coincide_covered ha hb hcovered hcovers' hm)
    (pairs_distinct_covered ha hb hcovers' params.maxDistRatio hdistinct)

/-! ### Runs -/

theorem rounds_budget (params : AlignParams ℝ) (a b : Array (Point ℝ)) (budget n : ℕ) :
    ∀ s, rounds { params with maxIterations := budget } a b n s = rounds params a b n s := by
  induction n with
  | zero => exact fun _ => rfl
  | succ n ih =>
    intro s
    simp only [rounds, ih]
    rfl

section Scans

variable {S : Type} [Precision S ℝ]

@[simp] theorem size_widenAll (a : Array (Point S)) :
    (widenAll a : Array (Point ℝ)).size = a.size := Array.size_map

@[simp] theorem widenAll_eq_empty {a : Array (Point S)} :
    (widenAll a : Array (Point ℝ)) = #[] ↔ a = #[] := Array.map_eq_empty_iff

/-- Scans of exact points are not changed. -/
theorem widenAll_self (a : Array (Point ℝ)) : (widenAll a : Array (Point ℝ)) = a :=
  Array.map_id a

theorem align_eq {a b : Array (Point S)} (ha : a ≠ #[]) (hb : b ≠ #[]) (initial : Pose ℝ)
    (params : AlignParams ℝ) : align a b initial params =
      rounds params (widenAll a) (widenAll b) params.maxIterations ⟨initial, 0, 0⟩ := by
  simp [align, ha, hb]

theorem align_of_empty {a b : Array (Point S)} (h : a = #[] ∨ b = #[]) (initial : Pose ℝ)
    (params : AlignParams ℝ) : align a b initial params = ⟨initial, 0, 0⟩ := by
  obtain rfl | rfl := h <;> simp [align]

/-- The motion that round `k + 1` of a run starts from: the one that `k` rounds end with. -/
noncomputable def poseAt (a b : Array (Point S)) (initial : Pose ℝ) (params : AlignParams ℝ)
    (k : ℕ) : Pose ℝ :=
  (align a b initial { params with maxIterations := k }).pose

/-- The matches that round `k + 1` of a run keeps. -/
noncomputable def matchesAt (a b : Array (Point S)) (initial : Pose ℝ) (params : AlignParams ℝ)
    (k : ℕ) : List (Point ℝ × Point ℝ) :=
  pairs params.maxDistRatio (widenAll a) (widenAll b) (poseAt a b initial params k)

theorem poseAt_zero (a b : Array (Point S)) (initial : Pose ℝ) (params : AlignParams ℝ) :
    poseAt a b initial params 0 = initial := by
  simp [poseAt, align, rounds]

section

variable {a b : Array (Point S)} (ha : a ≠ #[]) (hb : b ≠ #[])

include ha hb

theorem align_eq_iterate (initial : Pose ℝ) (params : AlignParams ℝ) :
    align a b initial params =
      (afterRound params (widenAll a) (widenAll b))^[(align a b initial params).iterations]
        ⟨initial, 0, 0⟩ := by
  obtain ⟨m, -, hiterations, hrun, -⟩ := exists_iterate params (widenAll a) (widenAll b)
    params.maxIterations ⟨initial, 0, 0⟩
  rw [align_eq ha hb, hiterations, hrun, zero_add]

theorem poseAt_eq_iterate (initial : Pose ℝ) (params : AlignParams ℝ) {k : ℕ}
    (hk : k ≤ (align a b initial params).iterations) : poseAt a b initial params k =
      ((afterRound params (widenAll a) (widenAll b))^[k] ⟨initial, 0, 0⟩).pose := by
  obtain ⟨m, -, hiterations, -, hbegins⟩ := exists_iterate params (widenAll a) (widenAll b)
    params.maxIterations ⟨initial, 0, 0⟩
  rw [align_eq ha hb, hiterations, zero_add] at hk
  rw [poseAt, align_eq ha hb, rounds_budget]
  exact congrArg Aligned.pose (hbegins k hk)

theorem one_le_iterations (initial : Pose ℝ) {params : AlignParams ℝ}
    (h : 1 ≤ params.maxIterations) : 1 ≤ (align a b initial params).iterations := by
  obtain ⟨m, hm, hiterations, -, -⟩ := exists_iterate params (widenAll a) (widenAll b)
    params.maxIterations ⟨initial, 0, 0⟩
  rw [align_eq ha hb, hiterations, zero_add]
  exact hm h

/-- The weight counts the matches of the last round. -/
theorem weight_align (initial : Pose ℝ) {params : AlignParams ℝ} (h : 1 ≤ params.maxIterations) :
    (align a b initial params).weight =
      (matchesAt a b initial params ((align a b initial params).iterations - 1)).length := by
  have hone := one_le_iterations ha hb initial h
  have hlast := align_eq_iterate ha hb initial params
  obtain ⟨n, hn⟩ := Nat.exists_eq_add_of_le' hone
  have hpose := poseAt_eq_iterate ha hb initial params (k := n) (by omega)
  rw [hn, Function.iterate_succ_apply'] at hlast
  rw [hn, Nat.add_sub_cancel, matchesAt, hpose, hlast]
  rfl

theorem align_unmatched (initial : Pose ℝ) {params : AlignParams ℝ} (h : 1 ≤ params.maxIterations)
    (hnil : matchesAt a b initial params 0 = []) : align a b initial params = ⟨initial, 0, 1⟩ := by
  obtain ⟨n, hn⟩ := Nat.exists_eq_add_of_le' h
  rw [matchesAt, poseAt_zero] at hnil
  have hstart : pairs params.maxDistRatio (widenAll a) (widenAll b)
      (⟨initial, 0, 0⟩ : Aligned ℝ).pose = [] := hnil
  rw [align_eq ha hb, hn, rounds_of_final (Or.inl hstart), afterRound_of_nil hstart]

/-- The fit of the matches of a round is where the next one starts. -/
theorem solve_matchesAt {initial : Pose ℝ} {params : AlignParams ℝ} {k : ℕ}
    (hk : k < (align a b initial params).iterations) (h : matchesAt a b initial params k ≠ []) :
    (RigidFit.ofPairs (matchesAt a b initial params k)).solve =
      some (poseAt a b initial params (k + 1)) := by
  rw [RigidFit.solve_ofPairs, if_neg h]
  rw [matchesAt, poseAt_eq_iterate ha hb initial params hk.le] at h ⊢
  rw [poseAt_eq_iterate ha hb initial params (Nat.succ_le_of_lt hk), Function.iterate_succ_apply']
  simp only [afterRound, if_neg h]

theorem matchesAt_ne_nil {initial : Pose ℝ} {params : AlignParams ℝ}
    (h : matchesAt a b initial params 0 ≠ []) {k : ℕ}
    (hk : k ≤ (align a b initial params).iterations) : matchesAt a b initial params k ≠ [] := by
  rw [matchesAt, poseAt_zero] at h
  have hstart : pairs params.maxDistRatio (widenAll a) (widenAll b)
      (⟨initial, 0, 0⟩ : Aligned ℝ).pose ≠ [] := h
  rw [matchesAt, poseAt_eq_iterate ha hb initial params hk]
  exact iterate_matched (by simpa using ha) (by simpa using hb) hstart k

end

/-- Once a round has a match, all later ones have; a run without matches stays where it started. -/
theorem matches_last (a b : Array (Point S)) (initial : Pose ℝ) (params : AlignParams ℝ)
    (ha : a ≠ #[]) (hb : b ≠ #[]) (hbudget : 1 ≤ params.maxIterations) :
    let run := align a b initial params
    let first := matchesAt a b initial params 0
    (first ≠ [] → ∀ k < run.iterations, matchesAt a b initial params k ≠ [] ∧
      (RigidFit.ofPairs (matchesAt a b initial params k)).solve =
        some (poseAt a b initial params (k + 1))) ∧
    run.weight = (matchesAt a b initial params (run.iterations - 1)).length ∧
    (run.weight = 0 → first = []) ∧
    (first = [] → run = ⟨initial, 0, 1⟩) ∧
    (1 ≤ params.maxDistRatio → 2 ≤ run.weight) ∧
    run.weight ≤ a.size + b.size ∧
    (params.maxDistRatio < 1 → ∀ k, ∀ m ∈ matchesAt a b initial params k,
      move (poseAt a b initial params k) m.1 = m.2) := by
  have ha' : (widenAll a : Array (Point ℝ)) ≠ #[] := by simpa using ha
  have hb' : (widenAll b : Array (Point ℝ)) ≠ #[] := by simpa using hb
  have hweight := weight_align ha hb initial hbudget
  dsimp only
  refine ⟨?_, hweight, ?_, align_unmatched ha hb initial hbudget, ?_, ?_, ?_⟩
  · intro h k hk
    have hmatched := matchesAt_ne_nil ha hb h hk.le
    exact ⟨hmatched, solve_matchesAt ha hb hk hmatched⟩
  · intro hzero
    by_contra hfirst
    apply matchesAt_ne_nil ha hb hfirst
      (Nat.sub_le (align a b initial params).iterations 1)
    rw [hzero] at hweight
    exact List.length_eq_zero_iff.mp (by exact_mod_cast hweight.symm)
  · intro hratio
    rw [hweight]
    exact_mod_cast two_le_length_pairs ha' hb' hratio
  · rw [hweight, ← size_widenAll (a := a), ← size_widenAll (a := b)]
    exact_mod_cast length_pairs_le
  · intro hratio k m hm
    exact pairs_coincide ha' hb' hratio hm

/-- Half the distance at most, no threshold and five rounds. -/
noncomputable def strict : AlignParams ℝ := ⟨1 / 2, 0, 0, 5⟩

/-- A single common point keeps its match through all rounds. -/
theorem matches_last_common :
    (#[⟨0, 0⟩, ⟨1, 0⟩] : Array (Point ℝ)) ≠ #[] ∧ (#[⟨0, 0⟩] : Array (Point ℝ)) ≠ #[] ∧
    1 ≤ strict.maxIterations ∧
    (align (#[⟨0, 0⟩, ⟨1, 0⟩] : Array (Point ℝ)) #[⟨0, 0⟩] .identity strict).weight ≠ 0 := by
  have ha : (#[⟨0, 0⟩, ⟨1, 0⟩] : Array (Point ℝ)) ≠ #[] := by simp
  have hb : (#[⟨0, 0⟩] : Array (Point ℝ)) ≠ #[] := by simp
  have hbudget : 1 ≤ strict.maxIterations := by
    change 1 ≤ 5
    omega
  refine ⟨ha, hb, hbudget, ?_⟩
  obtain ⟨-, -, hzero, -⟩ := matches_last _ _ .identity strict ha hb hbudget
  refine mt hzero ?_
  rw [matchesAt, poseAt_zero, widenAll_self, widenAll_self]
  refine pairs_ne_nil (p := ⟨0, 0⟩) (q := ⟨0, 0⟩) ha hb (by simp) (by simp) ?_
  simp [move, Pose.identity]

/-- Without a threshold for the translation, exchanging the scans and inverting the motion gives the
inverse motion in as many rounds from as many matches. -/
theorem align_exchange (a b : Array (Point S)) (initial : Pose ℝ) (params : AlignParams ℝ)
    (hthresh : params.transThresh = 0) :
    let there := align a b initial params
    let back := align b a initial.inverse params
    back.iterations = there.iterations ∧ back.weight = there.weight ∧
      back.pose.Congruent there.pose.inverse ∧ there.pose.Congruent back.pose.inverse := by
  have hmirrors : Mirrors (align b a initial.inverse params) (align a b initial params) := by
    have hstart : Mirrors ⟨initial.inverse, 0, 0⟩ ⟨initial, 0, 0⟩ :=
      ⟨Pose.congruent_iff.mpr ⟨rfl, rfl⟩, rfl, rfl⟩
    by_cases hempty : a = #[] ∨ b = #[]
    · rw [align_of_empty hempty, align_of_empty hempty.symm]
      exact hstart
    · obtain ⟨ha, hb⟩ := not_or.mp hempty
      rw [align_eq ha hb, align_eq hb ha]
      exact hstart.rounds hthresh params.maxIterations
  exact ⟨hmirrors.iterations, hmirrors.weight, hmirrors.pose, hmirrors.pose.inverse_symm⟩

/-- Both runs keep matches through all of their five rounds. -/
theorem align_exchange_lasting :
    let a : Array (Point ℝ) := #[⟨0, 0⟩, ⟨2, 0⟩, ⟨0, 1⟩]
    let b : Array (Point ℝ) := #[⟨1, 1⟩, ⟨3, 1⟩]
    let initial : Pose ℝ := ⟨1, 2, 3⟩
    let params : AlignParams ℝ := ⟨2, 0, 0, 5⟩
    let there := align a b initial params
    let back := align b a initial.inverse params
    params.transThresh = 0 ∧ there.iterations = 5 ∧ 2 ≤ there.weight ∧
      back.iterations = there.iterations ∧ back.weight = there.weight ∧
      back.pose.Congruent there.pose.inverse ∧ there.pose.Congruent back.pose.inverse := by
  intro a b initial params there back
  have ha : a ≠ #[] := by simp [a]
  have hb : b ≠ #[] := by simp [b]
  have hlength (pose : Pose ℝ) : 2 ≤ (pairs params.maxDistRatio a b pose).length :=
    two_le_length_pairs ha hb one_le_two
  have hiterations : there.iterations = 5 := by
    have hmatched : pairs params.maxDistRatio a b initial ≠ [] :=
      List.ne_nil_of_length_pos (Nat.two_pos.trans_le (hlength initial))
    rw [show there = _ from align_eq ha hb initial params, widenAll_self, widenAll_self]
    exact iterations_rounds rfl ha hb 5 hmatched
  have hweight : 2 ≤ there.weight := by
    have hbudget : 1 ≤ params.maxIterations := by
      change 1 ≤ 5
      omega
    rw [show there.weight = _ from weight_align ha hb initial hbudget, matchesAt, widenAll_self,
      widenAll_self]
    exact_mod_cast hlength _
  exact ⟨rfl, hiterations, hweight, align_exchange a b initial params rfl⟩

/-- From the motion that takes one scan onto the other, a single round keeps all matches and finds
that motion again. -/
theorem align_recovers (a b : Array (Point S)) (truth : Pose ℝ) (params : AlignParams ℝ)
    (hcovered : ∀ p ∈ (widenAll a : Array (Point ℝ)), ∃ q ∈ (widenAll b : Array (Point ℝ)),
      truth.transform q = p)
    (hcovers : ∀ q ∈ (widenAll b : Array (Point ℝ)), truth.transform q ∈ widenAll a)
    (hdistinct : ∃ q ∈ (widenAll b : Array (Point ℝ)), ∃ q' ∈ (widenAll b : Array (Point ℝ)),
      q ≠ q')
    (htrans : 0 < params.transThresh) (hrad : 0 < params.radThresh)
    (hbudget : 1 ≤ params.maxIterations) :
    ∃ pose, align a b truth params = ⟨pose, (a.size + b.size : ℕ), 1⟩ ∧ pose.Congruent truth := by
  simp only [transform_eq_move] at hcovered hcovers
  obtain ⟨hweight, hpose⟩ := afterRound_covered params truth hcovered hcovers hdistinct
  have hfinal : Final params (widenAll a) (widenAll b) ⟨truth, 0, 0⟩ :=
    Or.inr (settled_of_congruent htrans hrad hpose)
  obtain ⟨q, hq, -⟩ := hdistinct
  have hb : b ≠ #[] := widenAll_eq_empty.not.mp (Array.ne_empty_of_mem hq)
  have ha : a ≠ #[] := widenAll_eq_empty.not.mp (Array.ne_empty_of_mem (hcovers q hq))
  obtain ⟨n, hn⟩ := Nat.exists_eq_add_of_le' hbudget
  refine ⟨_, ?_, hpose⟩
  rw [align_eq ha hb, hn, rounds_of_final hfinal]
  rw [size_widenAll, size_widenAll] at hweight
  rw [← hweight]
  rfl

/-- A quarter turn, then one to the right and two up. -/
noncomputable def quarter : Pose ℝ := ⟨1, 2, Real.pi / 2⟩

theorem quarter_transform (x y : ℝ) : quarter.transform (⟨x, y⟩ : Point ℝ) = ⟨1 - y, 2 + x⟩ := by
  rw [transform_eq_move]
  refine congrArg₂ Point.mk ?_ ?_
  · change x * Real.cos (Real.pi / 2) - y * Real.sin (Real.pi / 2) + 1 = _
    rw [Real.cos_pi_div_two, Real.sin_pi_div_two]
    ring
  · change x * Real.sin (Real.pi / 2) + y * Real.cos (Real.pi / 2) + 2 = _
    rw [Real.cos_pi_div_two, Real.sin_pi_div_two]
    ring

/-- Points in another order and a repeated one do no harm. -/
theorem align_recovers_quarter :
    let a : Array (Point ℝ) := #[⟨1, 3⟩, ⟨1, 2⟩, ⟨1, 3⟩]
    let b : Array (Point ℝ) := #[⟨0, 0⟩, ⟨1, 0⟩]
    let params : AlignParams ℝ := ⟨1 / 2, 1, 1, 5⟩
    (∀ p ∈ (widenAll a : Array (Point ℝ)), ∃ q ∈ (widenAll b : Array (Point ℝ)),
      quarter.transform q = p) ∧
    (∀ q ∈ (widenAll b : Array (Point ℝ)), quarter.transform q ∈ widenAll a) ∧
    (∃ q ∈ (widenAll b : Array (Point ℝ)), ∃ q' ∈ (widenAll b : Array (Point ℝ)), q ≠ q') ∧
    0 < params.transThresh ∧ 0 < params.radThresh ∧ 1 ≤ params.maxIterations ∧
    ∃ pose, align a b quarter params = ⟨pose, (3 + 2 : ℕ), 1⟩ ∧ pose.Congruent quarter := by
  intro a b params
  have hcovered : ∀ p ∈ (widenAll a : Array (Point ℝ)), ∃ q ∈ (widenAll b : Array (Point ℝ)),
      quarter.transform q = p := by
    norm_num [widenAll_self, a, b, quarter_transform]
  have hcovers : ∀ q ∈ (widenAll b : Array (Point ℝ)), quarter.transform q ∈ widenAll a := by
    norm_num [widenAll_self, a, b, quarter_transform]
  have hdistinct : ∃ q ∈ (widenAll b : Array (Point ℝ)), ∃ q' ∈ (widenAll b : Array (Point ℝ)),
      q ≠ q' := by
    rw [widenAll_self]
    exact ⟨⟨0, 0⟩, by simp [b], ⟨1, 0⟩, by simp [b], by simp⟩
  have hbudget : 1 ≤ params.maxIterations := by
    change 1 ≤ 5
    omega
  exact ⟨hcovered, hcovers, hdistinct, one_pos, one_pos, hbudget,
    align_recovers a b quarter params hcovered hcovers hdistinct one_pos one_pos hbudget⟩

end Scans

end Alignment

end ScanMatch
