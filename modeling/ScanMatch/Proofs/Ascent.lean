import Mathlib.Data.Nat.Count
import ScanMatch.Proofs.Construction
import ScanMatch.Proofs.Scores
import ScanMatch.Refine.Climb

/-! # Climbs sweep by sweep

A climb repeats one sweep until it has ended or spent its budget. So all climbs from one seed go
through the same states, and a greater budget only goes on where a smaller one stopped. The steps
are shrunk once for each sweep without improvement, and the climb ends when the finest steps
improve nothing either.
-/
namespace ScanMatch

variable {S R : Type} [Scalar R]

namespace ScoredPose

variable [LawfulOrder R]

theorem foldl_better_cases (trials : List (ScoredPose R)) : ∀ best : ScoredPose R,
    trials.foldl better best = best ∨ trials.foldl better best ∈ trials ∧
      best.score < (trials.foldl better best).score := by
  induction trials with
  | nil => exact fun _ => Or.inl rfl
  | cons trial trials ih =>
    intro best
    rw [List.foldl_cons, better]
    split
    · next hlt =>
      right
      rcases ih trial with heq | ⟨hmem, hless⟩
      · rw [heq]
        exact ⟨List.mem_cons_self, hlt⟩
      · exact ⟨List.mem_cons_of_mem trial hmem, LawfulOrder.lt_trans hlt hless⟩
    · rcases ih best with heq | ⟨hmem, hless⟩
      · exact Or.inl heq
      · exact Or.inr ⟨List.mem_cons_of_mem trial hmem, hless⟩

/-- Nothing beats the best of the trials. -/
theorem not_foldl_better_lt (trials : List (ScoredPose R)) : ∀ best : ScoredPose R,
    ∀ trial ∈ trials, ¬ (trials.foldl better best).score < trial.score := by
  induction trials with
  | nil => nofun
  | cons first trials ih =>
    intro best trial hmem hlt
    rw [List.foldl_cons] at hlt
    rcases List.mem_cons.mp hmem with rfl | hmem
    · -- the fold starts from what is no worse than the first trial, and only rises
      have hstart : ¬ (best.better trial).score < trial.score := by
        unfold better
        split
        · exact LawfulOrder.lt_irrefl _
        · assumption
      rcases foldl_better_cases trials (best.better trial) with heq | ⟨-, hless⟩
      · rw [heq] at hlt
        exact hstart hlt
      · exact hstart (LawfulOrder.lt_trans hless hlt)
    · exact ih _ trial hmem hlt

end ScoredPose

/-- The steps of a climb shrunk so many times. -/
def ClimbParams.stepsAfter (params : ClimbParams R) : Nat → Pose R
  | 0 => ⟨params.stepX, params.stepY, params.stepTheta⟩
  | k + 1 =>
    let steps := params.stepsAfter k
    ⟨steps.x * params.shrinkFactor, steps.y * params.shrinkFactor,
      steps.theta * params.shrinkFactor⟩

variable [Precision S R]

namespace ClimbState

variable (scorer : PoseScorer S R) (params : ClimbParams R)

/-- The state after one more sweep, unless that sweep ends the climb. -/
def sweep? (state : ClimbState R) : Option (ClimbState R) :=
  let trials := state.trials scorer
  if trials.any fun trial => decide (state.best.score < trial.score) then
    some { state with best := trials.foldl ScoredPose.better state.best }
  else if state.shrinks = params.maxShrinks then none
  else some (state.shrink params.shrinkFactor)

/-- The state after one more sweep. What has ended stays as it is. -/
def advance (state : ClimbState R) : ClimbState R := (state.sweep? scorer params).getD state

/-- A sweep moves to a trial of greatest score, or it shrinks the steps, or it ends the climb. -/
inductive Sweeps (state : ClimbState R) : ClimbState R → Prop where
  | improved {best : ScoredPose R} (mem : best ∈ state.trials scorer)
      (better : state.best.score < best.score)
      (greatest : ∀ trial ∈ state.trials scorer, ¬ best.score < trial.score) :
      Sweeps state { state with best }
  | shrunk (idle : ∀ trial ∈ state.trials scorer, ¬ state.best.score < trial.score)
      (more : state.shrinks ≠ params.maxShrinks) : Sweeps state (state.shrink params.shrinkFactor)
  | ended (idle : ∀ trial ∈ state.trials scorer, ¬ state.best.score < trial.score)
      (last : state.shrinks = params.maxShrinks) : Sweeps state state

variable {scorer params} {state next : ClimbState R}

omit [Precision S R] in
@[simp] theorem best_shrink (factor : R) (state : ClimbState R) :
    (state.shrink factor).best = state.best := rfl

omit [Precision S R] in
@[simp] theorem shrinks_shrink (factor : R) (state : ClimbState R) :
    (state.shrink factor).shrinks = state.shrinks + 1 := rfl

theorem climb_of_some (h : state.sweep? scorer params = some next) (made budget : Nat) :
    climb scorer params made (budget + 1) state = climb scorer params (made + 1) budget next := by
  rw [sweep?] at h
  rw [climb]
  split_ifs at h ⊢ <;> rw [← Option.some.inj h]

theorem climb_of_none (h : state.sweep? scorer params = none) (made budget : Nat) :
    climb scorer params made (budget + 1) state = { state.best with iterations := made + 1 } := by
  rw [sweep?] at h
  rw [climb]
  split_ifs at h ⊢
  rfl

theorem sweep?_eq_none_iff : state.sweep? scorer params = none ↔
    (∀ trial ∈ state.trials scorer, ¬ state.best.score < trial.score) ∧
      state.shrinks = params.maxShrinks := by
  rw [sweep?]
  split_ifs with hany hlast
  · simpa using fun h => absurd hany (by simpa using h)
  · simpa [hlast] using hany
  · simp [hlast]

theorem advance_of_none (h : state.sweep? scorer params = none) :
    state.advance scorer params = state := by
  rw [advance, h, Option.getD_none]

theorem advance_of_some (h : state.sweep? scorer params = some next) :
    state.advance scorer params = next := by
  rw [advance, h, Option.getD_some]

theorem sweeps_advance [LawfulOrder R] (state : ClimbState R) :
    Sweeps scorer params state (state.advance scorer params) := by
  by_cases hany : (state.trials scorer).any fun trial => decide (state.best.score < trial.score)
  · have hsweep : state.sweep? scorer params = some { state with
        best := (state.trials scorer).foldl ScoredPose.better state.best } := if_pos hany
    rw [advance_of_some hsweep]
    have hmax := ScoredPose.not_foldl_better_lt (state.trials scorer) state.best
    rcases ScoredPose.foldl_better_cases (state.trials scorer) state.best with heq | ⟨hmem, hless⟩
    · obtain ⟨trial, hmem, hlt⟩ := List.any_eq_true.mp hany
      rw [heq] at hmax
      exact absurd (of_decide_eq_true hlt) (hmax trial hmem)
    · exact .improved hmem hless hmax
  · have hidle : ∀ trial ∈ state.trials scorer, ¬ state.best.score < trial.score := by
      simpa using hany
    by_cases hlast : state.shrinks = params.maxShrinks
    · rw [advance_of_none ((if_neg hany).trans (if_pos hlast))]
      exact .ended hidle hlast
    · rw [advance_of_some ((if_neg hany).trans (if_neg hlast))]
      exact .shrunk hidle hlast

/-- What a climb finds is the best pose after as many sweeps as its budget. -/
theorem climb_best (budget : Nat) : ∀ (made : Nat) (state : ClimbState R),
    (climb scorer params made budget state).toScoredPose =
      ((advance scorer params)^[budget] state).best := by
  induction budget with
  | zero => exact fun _ _ => rfl
  | succ budget ih =>
    intro made state
    rw [Function.iterate_succ_apply]
    cases h : state.sweep? scorer params with
    | some next =>
      rw [climb_of_some h, advance_of_some h]
      exact ih (made + 1) next
    | none =>
      rw [climb_of_none h, advance_of_none h, Function.iterate_fixed (advance_of_none h)]

/-- A climb counts no more sweeps than its budget. All before the last one go on, and if there is
budget left, the last one has ended it. -/
theorem climb_iterations (budget : Nat) : ∀ (made : Nat) (state : ClimbState R),
    (climb scorer params made budget state).iterations ≤ made + budget ∧
      (∀ k, made + k + 1 < (climb scorer params made budget state).iterations →
        ((advance scorer params)^[k] state).sweep? scorer params ≠ none) ∧
      ((climb scorer params made budget state).iterations < made + budget →
        ∃ k, (climb scorer params made budget state).iterations = made + k + 1 ∧
          ((advance scorer params)^[k] state).sweep? scorer params = none) := by
  induction budget with
  | zero =>
    intro made state
    have hmade : (climb scorer params made 0 state).iterations = made := rfl
    rw [hmade]
    exact ⟨le_rfl, fun k h => by omega, fun h => by omega⟩
  | succ budget ih =>
    intro made state
    cases h : state.sweep? scorer params with
    | some next =>
      obtain ⟨hle, hbefore, hlast⟩ := ih (made + 1) next
      rw [climb_of_some h]
      refine ⟨by omega, ?_, ?_⟩
      · intro k hk
        cases k with
        | zero => simp [h]
        | succ k =>
          rw [Function.iterate_succ_apply, advance_of_some h]
          exact hbefore k (by omega)
      · intro hlt
        obtain ⟨k, hk, hended⟩ := hlast (by omega)
        refine ⟨k + 1, by omega, ?_⟩
        rwa [Function.iterate_succ_apply, advance_of_some h]
    | none =>
      have hmade : (climb scorer params made (budget + 1) state).iterations = made + 1 := by
        rw [climb_of_none h]
      rw [hmade]
      exact ⟨by omega, fun k hk => by omega, fun _ => ⟨0, rfl, h⟩⟩

/-- A climb that ends within its budget is the same with any greater one. -/
theorem climb_eq_of_le {n : Nat} : ∀ {m made : Nat} {state : ClimbState R}, n ≤ m →
    (climb scorer params made n state).iterations < made + n →
    climb scorer params made m state = climb scorer params made n state := by
  induction n with
  | zero => exact fun _ h => absurd h (Nat.lt_irrefl _)
  | succ n ih =>
    intro m made state hle h
    obtain ⟨m, rfl⟩ : ∃ k, m = k + 1 := ⟨m - 1, by omega⟩
    cases hsweep : state.sweep? scorer params with
    | some next =>
      rw [climb_of_some hsweep] at h
      rw [climb_of_some hsweep, climb_of_some hsweep]
      exact ih (by omega) (by omega)
    | none => rw [climb_of_none hsweep, climb_of_none hsweep]

/-- The budget itself does not change what a sweep does. -/
theorem climb_maxIterations (n budget : Nat) : ∀ (made : Nat) (state : ClimbState R),
    climb scorer { params with maxIterations := n } made budget state =
      climb scorer params made budget state := by
  induction budget with
  | zero => exact fun _ _ => rfl
  | succ budget ih =>
    intro made state
    rw [climb, climb, ih, ih]

theorem Sweeps.le [LawfulOrder R] (h : Sweeps scorer params state next)
    (hnumber : state.best.score ≤ state.best.score) : state.best.score ≤ next.best.score := by
  cases h with
  | improved _ better _ => exact LawfulOrder.le_of_lt better
  | shrunk => exact hnumber
  | ended => exact hnumber

theorem Sweeps.best_of_idle (h : Sweeps scorer params state next)
    (hidle : ¬ state.best.score < next.best.score) : next.best = state.best := by
  cases h with
  | improved _ better _ => exact absurd better hidle
  | shrunk => rfl
  | ended => rfl

/-- A sweep that improves the pose moves it to a trial of greatest score. -/
theorem Sweeps.exists_trial [LawfulOrder R] (h : Sweeps scorer params state next)
    (hmoves : state.best.score < next.best.score) :
    ∃ pose ∈ state.best.pose.neighbours state.steps, next.best = scorer.evaluate pose ∧
      ∀ trial ∈ state.best.pose.neighbours state.steps,
        Arith.isNaN (scorer.evaluate trial).score = false →
        (scorer.evaluate trial).score ≤ (scorer.evaluate pose).score := by
  cases h with
  | improved mem _ greatest =>
    obtain ⟨pose, hpose, rfl⟩ := List.mem_map.mp mem
    refine ⟨pose, hpose, rfl, ?_⟩
    intro trial htrial hnumber
    exact LawfulOrder.le_of_not_lt (LawfulOrder.le_self_of_le (LawfulOrder.le_of_lt hmoves)).2
      (LawfulOrder.isNaN_eq_false_iff.mp hnumber) (greatest _ (List.mem_map_of_mem htrial))
  | shrunk => exact absurd hmoves (LawfulOrder.lt_irrefl _)
  | ended => exact absurd hmoves (LawfulOrder.lt_irrefl _)

/-- What every state of a climb keeps: its pose has the score it says, and its steps have been
shrunk as often as it says. -/
structure Consistent (scorer : PoseScorer S R) (params : ClimbParams R) (state : ClimbState R) :
    Prop where
  scored : scorer.evaluate state.best.pose = state.best
  steps : state.steps = params.stepsAfter state.shrinks
  shrinks : state.shrinks ≤ params.maxShrinks

theorem Sweeps.consistent (hsweep : Sweeps scorer params state next)
    (h : state.Consistent scorer params) : next.Consistent scorer params := by
  obtain ⟨hscored, hsteps, hshrinks⟩ := h
  cases hsweep with
  | improved mem =>
    obtain ⟨pose, -, rfl⟩ := List.mem_map.mp mem
    exact ⟨rfl, hsteps, hshrinks⟩
  | shrunk _ more =>
    refine ⟨hscored, ?_, ?_⟩
    · rw [shrink, hsteps, ClimbParams.stepsAfter]
    · rw [shrinks_shrink]
      omega
  | ended => exact ⟨hscored, hsteps, hshrinks⟩

/-- An idle sweep that goes on shrinks the steps, and no other sweep does. -/
theorem Sweeps.shrinks_eq [LawfulOrder R] (hsweep : Sweeps scorer params state next)
    (hon : state.sweep? scorer params ≠ none) :
    next.shrinks = state.shrinks + if ¬ state.best.score < next.best.score then 1 else 0 := by
  cases hsweep with
  | improved _ better => rw [if_neg (not_not.mpr better), Nat.add_zero]
  | shrunk => rw [shrinks_shrink, best_shrink, if_pos (LawfulOrder.lt_irrefl _)]
  | ended idle last => exact absurd (sweep?_eq_none_iff.mpr ⟨idle, last⟩) hon

end ClimbState

namespace PoseScorer

variable (scorer : PoseScorer S R) (seed : Pose R) (params : ClimbParams R)

/-- The state of a climb after so many sweeps. -/
def reached (i : Nat) : ClimbState R :=
  (ClimbState.advance scorer params)^[i]
    { best := scorer.evaluate seed.normalized
      steps := params.stepsAfter 0
      shrinks := 0 }

/-- What a climb has found after so many sweeps, which is what it returns if its budget ends
there. -/
def found (i : Nat) : ScoredPose R :=
  (scorer.climb seed { params with maxIterations := i }).toScoredPose

/-- The climb scores no more after the sweep than before it. -/
def Idle (i : Nat) : Prop :=
  ¬ (scorer.found seed params i).score < (scorer.found seed params (i + 1)).score

instance : DecidablePred (scorer.Idle seed params) := fun _ => inferInstanceAs (Decidable (¬ _))

variable {scorer seed params}

theorem climb_eq_climb : scorer.climb seed params =
    ClimbState.climb scorer params 0 params.maxIterations (scorer.reached seed params 0) := rfl

theorem climb_budget (n : Nat) : scorer.climb seed { params with maxIterations := n } =
    ClimbState.climb scorer params 0 n (scorer.reached seed params 0) :=
  ClimbState.climb_maxIterations n n 0 _

theorem found_eq (i : Nat) : scorer.found seed params i = (scorer.reached seed params i).best := by
  rw [found, climb_budget, ClimbState.climb_best]
  rfl

theorem climb_best : (scorer.climb seed params).toScoredPose =
    (scorer.reached seed params params.maxIterations).best := found_eq params.maxIterations

theorem reached_of_ended {k : Nat}
    (h : (scorer.reached seed params k).sweep? scorer params = none) {i : Nat} (hki : k ≤ i) :
    scorer.reached seed params i = scorer.reached seed params k := by
  induction hki with
  | refl => rfl
  | step _ ih =>
    rw [reached, Function.iterate_succ_apply', ← reached, ih, ClimbState.advance_of_none h]

theorem climb_sweeps (scorer : PoseScorer S R) (seed : Pose R) (params : ClimbParams R) :
    (scorer.climb seed params).iterations ≤ params.maxIterations ∧
      (∀ k, k + 1 < (scorer.climb seed params).iterations →
        (scorer.reached seed params k).sweep? scorer params ≠ none) ∧
      ((scorer.climb seed params).iterations < params.maxIterations →
        ∃ k, (scorer.climb seed params).iterations = k + 1 ∧
          (scorer.reached seed params k).sweep? scorer params = none) := by
  obtain ⟨hle, hon, hlast⟩ :=
    @ClimbState.climb_iterations S R _ _ scorer params params.maxIterations 0
      (scorer.reached seed params 0)
  simp only [Nat.zero_add, ← climb_eq_climb] at hle hon hlast
  exact ⟨hle, hon, hlast⟩

theorem iterations_eq_of_ended {k : Nat}
    (hon : ∀ i < k, (scorer.reached seed params i).sweep? scorer params ≠ none)
    (h : (scorer.reached seed params k).sweep? scorer params = none)
    (hbudget : k + 1 < params.maxIterations) : (scorer.climb seed params).iterations = k + 1 := by
  obtain ⟨-, hbefore, hlast⟩ := climb_sweeps scorer seed params
  have hle : (scorer.climb seed params).iterations ≤ k + 1 :=
    not_lt.mp fun hlt => hbefore k hlt h
  obtain ⟨i, hi, hended⟩ := hlast (by omega)
  have hik : ¬ i < k := fun hlt => hon i hlt hended
  omega

theorem found_iterations : scorer.found seed params (scorer.climb seed params).iterations =
    (scorer.climb seed params).toScoredPose := by
  obtain ⟨hle, -, hlast⟩ := climb_sweeps scorer seed params
  rw [found_eq, climb_best]
  rcases hle.eq_or_lt with heq | hlt
  · rw [heq]
  · obtain ⟨k, hk, hended⟩ := hlast hlt
    rw [reached_of_ended hended (show k ≤ _ by omega),
      reached_of_ended hended (show k ≤ params.maxIterations by omega)]

omit [Scalar R] in
theorem exists_ofPyramid {pyramid : Pyramid S} (h : pyramid.Built) (points : Array (Point S))
    (scale : R) (prior : Option (Prior R)) :
    ∃ scorer, ofPyramid points pyramid scale prior = .ok scorer := by
  obtain ⟨base, metersPerPixel, n, hbuild⟩ := h
  obtain ⟨g, hg, -⟩ := (Pyramid.represents_of_built hbuild).exists_level
    (Pyramid.one_le_of_built hbuild)
  rw [ofPyramid, Pyramid.level_eq_ok hg]
  exact ⟨_, rfl⟩

theorem hillClimb_eq {points : Array (Point S)} {pyramid : Pyramid S} {scale : R}
    {prior : Option (Prior R)} (h : ofPyramid points pyramid scale prior = .ok scorer)
    (seed : Pose R) (params : ClimbParams R) :
    hillClimb points pyramid seed params scale prior = .ok (scorer.climb seed params) := by
  rw [hillClimb, h]
  rfl

section

variable [LawfulOrder R]

theorem sweeps_reached (i : Nat) : ClimbState.Sweeps scorer params
    (scorer.reached seed params i) (scorer.reached seed params (i + 1)) := by
  rw [reached, reached, Function.iterate_succ_apply']
  exact ClimbState.sweeps_advance _

theorem reached_consistent (i : Nat) :
    (scorer.reached seed params i).Consistent scorer params := by
  induction i with
  | zero => exact ⟨rfl, rfl, Nat.zero_le _⟩
  | succ i ih => exact (sweeps_reached i).consistent ih

/-- No sweep loses score. -/
theorem reached_le
    (h : (scorer.evaluate seed.normalized).score ≤ (scorer.evaluate seed.normalized).score)
    {n m : Nat} (hnm : n ≤ m) :
    (scorer.reached seed params n).best.score ≤ (scorer.reached seed params m).best.score := by
  -- an improved score has been compared with another and so is a number
  have number (k : Nat) : (scorer.reached seed params k).best.score ≤
      (scorer.reached seed params k).best.score := by
    induction k with
    | zero => exact h
    | succ k ih => exact (LawfulOrder.le_self_of_le ((sweeps_reached k).le ih)).2
  induction hnm with
  | refl => exact number n
  | step _ ih => exact LawfulOrder.le_trans ih ((sweeps_reached _).le (number _))

/-- So long as the climb goes on, it has shrunk its steps once for each idle sweep. -/
theorem count_idle {n : Nat}
    (h : ∀ k < n, (scorer.reached seed params k).sweep? scorer params ≠ none) :
    Nat.count (scorer.Idle seed params) n = (scorer.reached seed params n).shrinks := by
  induction n with
  | zero => rfl
  | succ n ih =>
    rw [Nat.count_succ, ih fun k hk => h k (Nat.lt_succ_of_lt hk),
      (sweeps_reached n).shrinks_eq (h n (Nat.lt_succ_self n))]
    simp only [Idle, found_eq]

theorem count_idle_iterations_le : Nat.count (scorer.Idle seed params)
    (scorer.climb seed params).iterations ≤ params.maxShrinks + 1 := by
  obtain ⟨-, hon, -⟩ := climb_sweeps scorer seed params
  generalize (scorer.climb seed params).iterations = n at hon
  cases n with
  | zero => exact Nat.zero_le _
  | succ n =>
    -- each idle sweep but the last has shrunk the steps
    have hshrinks : (scorer.reached seed params n).shrinks ≤ params.maxShrinks :=
      (reached_consistent n).shrinks
    rw [Nat.count_succ, count_idle fun k hk => hon k (by omega)]
    split <;> omega

theorem found_succ_of_idle {i : Nat} (h : scorer.Idle seed params i) :
    scorer.found seed params (i + 1) = scorer.found seed params i := by
  rw [Idle, found_eq, found_eq] at h
  rw [found_eq, found_eq]
  exact (sweeps_reached i).best_of_idle h

/-- A sweep that is not idle takes steps shrunk once for each idle sweep before it. -/
theorem exists_move {i : Nat} (hi : i < (scorer.climb seed params).iterations)
    (h : ¬ scorer.Idle seed params i) :
    let trials := (scorer.found seed params i).pose.neighbours
      (params.stepsAfter (Nat.count (scorer.Idle seed params) i))
    ∃ pose ∈ trials, scorer.found seed params (i + 1) = scorer.evaluate pose ∧
      ∀ trial ∈ trials, Arith.isNaN (scorer.evaluate trial).score = false →
        (scorer.evaluate trial).score ≤ (scorer.evaluate pose).score := by
  obtain ⟨-, hon, -⟩ := climb_sweeps scorer seed params
  rw [Idle, found_eq, found_eq, not_not] at h
  rw [found_eq, found_eq, count_idle fun k hk => hon k (by omega), ← (reached_consistent i).steps]
  exact (sweeps_reached i).exists_trial h

/-- A climb that ends before its budget is spent has tried the finest steps in vain. -/
theorem not_climb_lt (h : (scorer.climb seed params).iterations < params.maxIterations)
    {pose : Pose R} (hpose : pose ∈ (scorer.climb seed params).pose.neighbours
      (params.stepsAfter params.maxShrinks)) :
    ¬ (scorer.climb seed params).score < (scorer.evaluate pose).score := by
  obtain ⟨-, -, hlast⟩ := climb_sweeps scorer seed params
  obtain ⟨k, hk, hended⟩ := hlast h
  have hbest : (scorer.climb seed params).toScoredPose = (scorer.reached seed params k).best := by
    rw [← found_iterations, hk, found_eq, reached_of_ended hended (Nat.le_succ k)]
  obtain ⟨hidle, hshrinks⟩ := ClimbState.sweep?_eq_none_iff.mp hended
  rw [hbest] at hpose ⊢
  rw [← hshrinks, ← (reached_consistent k).steps] at hpose
  exact hidle _ (List.mem_map_of_mem hpose)

end

end PoseScorer

variable [LawfulOrder R] {pyramid : Pyramid S}

/-- A climb with a greater budget goes on where one with a smaller budget stopped. -/
theorem hillClimb_extends (hbuilt : pyramid.Built) (points : Array (Point S)) (seed : Pose R)
    (params : ClimbParams R) (scale : R) (prior : Option (Prior R)) {n m : Nat} (hnm : n ≤ m) :
    ∃ scorer short long, PoseScorer.ofPyramid points pyramid scale prior = .ok scorer ∧
      hillClimb points pyramid seed { params with maxIterations := n } scale prior = .ok short ∧
      hillClimb points pyramid seed { params with maxIterations := m } scale prior = .ok long ∧
      short.iterations ≤ n ∧ (short.iterations < n → long = short) ∧
      scorer.evaluate short.pose = short.toScoredPose ∧
      (Arith.isNaN (scorer.evaluate seed.normalized).score = false →
        (scorer.evaluate seed.normalized).score ≤ short.score ∧ short.score ≤ long.score) := by
  obtain ⟨scorer, hscorer⟩ := PoseScorer.exists_ofPyramid hbuilt points scale prior
  refine ⟨scorer, _, _, hscorer, PoseScorer.hillClimb_eq hscorer _ _,
    PoseScorer.hillClimb_eq hscorer _ _, ?_⟩
  have hbest (i : Nat) : (scorer.climb seed { params with maxIterations := i }).toScoredPose =
      (scorer.reached seed params i).best := PoseScorer.found_eq i
  rw [hbest n, hbest m, PoseScorer.climb_budget, PoseScorer.climb_budget]
  refine ⟨?_, ?_, (PoseScorer.reached_consistent n).scored, ?_⟩
  · simpa using (ClimbState.climb_iterations n 0 (scorer.reached seed params 0)).1
  · intro hlt
    exact ClimbState.climb_eq_of_le hnm (by rwa [Nat.zero_add])
  · intro hnumber
    have hnumber := LawfulOrder.isNaN_eq_false_iff.mp hnumber
    exact ⟨PoseScorer.reached_le hnumber n.zero_le, PoseScorer.reached_le hnumber hnm⟩

/-- Climbs of one and of three sweeps from a pose beside the scan. -/
theorem hillClimb_extends_beside :
    let base := Grid.ofFn ⟨3, 2, -1, 0⟩ fun x y => UInt8.ofNat (40 * x + 7 * y)
    let pyramid : Pyramid ℝ := ⟨#[base], 1⟩
    let seed : Pose ℝ := ⟨1 / 4, 0, 0⟩
    let params : ClimbParams ℝ := ClimbParams.standard
    pyramid.Built ∧ 1 ≤ 3 ∧ ∃ scorer short long,
      PoseScorer.ofPyramid #[⟨0, 1⟩, ⟨1, 1⟩] pyramid 1 none = .ok scorer ∧
      hillClimb #[⟨0, 1⟩, ⟨1, 1⟩] pyramid seed { params with maxIterations := 1 } 1 none =
        .ok short ∧
      hillClimb #[⟨0, 1⟩, ⟨1, 1⟩] pyramid seed { params with maxIterations := 3 } 1 none =
        .ok long ∧
      short.iterations ≤ 1 ∧ (short.iterations < 1 → long = short) ∧
      scorer.evaluate short.pose = short.toScoredPose ∧
      Arith.isNaN (scorer.evaluate seed.normalized).score = false ∧
      (scorer.evaluate seed.normalized).score ≤ short.score ∧ short.score ≤ long.score := by
  intro base pyramid seed params
  have hbuilt : pyramid.Built := ⟨base, 1, 1, Or.inl rfl⟩
  obtain ⟨scorer, short, long, hscorer, hshort, hlong, hle, hsame, hscored, hrise⟩ :=
    hillClimb_extends hbuilt #[⟨0, 1⟩, ⟨1, 1⟩] seed params 1 none (show 1 ≤ 3 by decide)
  exact ⟨hbuilt, by decide, scorer, short, long, hscorer, hshort, hlong, hle, hsame, hscored,
    Exact.isNaN_eq _, hrise (Exact.isNaN_eq _)⟩

/-! ### A climb up a ledge -/

namespace PoseScorer

/-- Half a pixel is taken off a reported translation and off the origin of the grid, and so
cancels. -/
theorem lookup_eq {s : PoseScorer S ℝ} (hm : 0 < s.resolution) (u v : ℝ) (x y : ℤ)
    (hx : ⌊u / s.resolution⌋ + x - s.grid.x0 ≤ 2147483647)
    (hy : ⌊v / s.resolution⌋ + y - s.grid.y0 ≤ 2147483647) :
    s.lookup (u + (x - 1 / 2) * s.resolution) (v + (y - 1 / 2) * s.resolution) =
      (s.grid.pixel (⌊u / s.resolution⌋ + x) (⌊v / s.resolution⌋ + y)).toNat := by
  have hindex (w : ℝ) (t o : ℤ) : (Scalar.floor ((w + (t - 1 / 2) * s.resolution -
      (o * s.resolution - 1 / 2 * s.resolution)) / s.resolution) : ℝ) =
        ((⌊w / s.resolution⌋ + t - o : ℤ) : ℝ) := by
    have harg : (w + (t - 1 / 2) * s.resolution -
        (o * s.resolution - 1 / 2 * s.resolution)) / s.resolution =
          w / s.resolution + (t - o : ℤ) := by
      push_cast
      field_simp
      ring
    change ((⌊_⌋ : ℤ) : ℝ) = _
    rw [harg, Int.floor_add_intCast, add_sub_assoc]
  have hhalf : ((5 : ℕ) : ℝ) / 10 ^ 1 = 1 / 2 := by norm_num
  unfold lookup
  simp only [Exact.ofScientific_eq, if_true, Exact.ofInt_eq, hhalf, hindex, Exact.zero_eq]
  rw [Grid.pixel]
  generalize ⌊u / s.resolution⌋ + x - s.grid.x0 = ix at hx ⊢
  generalize ⌊v / s.resolution⌋ + y - s.grid.y0 = iy at hy ⊢
  by_cases hneg : ix < 0 ∨ iy < 0
  · -- both ways, nothing lies left of the grid or above it
    rw [s.grid.value_of_outside (by omega), if_pos]
    · rfl
    · rcases hneg with h | h
      · exact Or.inl (Int.cast_lt_zero.mpr h)
      · exact Or.inr (Or.inl (Int.cast_lt_zero.mpr h))
  · obtain ⟨hx0, hy0⟩ := not_or.mp hneg
    rw [if_neg, Exact.toInt32_intCast (by omega), Exact.toInt32_intCast (by omega), Grid.value]
    · cases s.grid.get? ix iy <;> rfl
    · simp only [Int.cast_lt_zero, Int.cast_lt]
      omega

end PoseScorer

/-- A pixel and a higher one beside it. -/
def ledge : Grid := Grid.ofFn ⟨2, 1, 0, 0⟩ fun x _ => UInt8.ofNat (7 * x)

/-- A scan of a single point, which turning does not move. -/
noncomputable def ledgeScorer : PoseScorer ℝ ℝ := ⟨#[⟨0, 0⟩], ledge, 1, 1, none⟩

theorem lookup_ledge_le (x y : ℝ) : ledgeScorer.lookup x y ≤ 7 := by
  have hcells : ledge.cells = #[0, 7] := rfl
  have hvalue {ix iy : ℤ} {v : UInt8} (h : ledge.get? ix iy = some v) : v.toNat ≤ 7 := by
    rw [Grid.get?, hcells] at h
    split at h
    · cases h
    · have hmem := Array.mem_of_getElem? h
      simp only [List.mem_toArray, List.mem_cons, List.not_mem_nil, or_false] at hmem
      rcases hmem with rfl | rfl <;> decide
  simp only [PoseScorer.lookup]
  split
  · exact Nat.zero_le 7
  · split
    · next v h => exact hvalue h
    · exact Nat.zero_le 7

theorem lookup_ledge {i : ℤ} (hi : i ≤ 1) :
    ledgeScorer.lookup i 0 = (ledge.pixel i 0).toNat := by
  have hhalf : ⌊(1 / 2 : ℝ) / ledgeScorer.resolution⌋ = 0 := by
    change ⌊(1 / 2 : ℝ) / 1⌋ = 0
    norm_num
  have hx0 : ledgeScorer.grid.x0 = 0 := rfl
  have hy0 : ledgeScorer.grid.y0 = 0 := rfl
  have hlookup := PoseScorer.lookup_eq (s := ledgeScorer) one_pos (1 / 2) (1 / 2) i 0
    (by rw [hhalf, hx0]; omega) (by rw [hhalf, hy0]; omega)
  have hx : 1 / 2 + ((i : ℝ) - 1 / 2) * ledgeScorer.resolution = i := by
    change 1 / 2 + ((i : ℝ) - 1 / 2) * 1 = i
    ring
  have hy : 1 / 2 + (((0 : ℤ) : ℝ) - 1 / 2) * ledgeScorer.resolution = 0 := by
    change 1 / 2 + (((0 : ℤ) : ℝ) - 1 / 2) * 1 = 0
    norm_num
  rw [hhalf, hx, hy, zero_add, zero_add] at hlookup
  exact hlookup

theorem score_ledge (pose : Pose ℝ) :
    (ledgeScorer.evaluate pose).score = ledgeScorer.lookup pose.x pose.y := by
  have hwiden : (widen (0 : ℝ) : ℝ) = 0 := rfl
  simp [PoseScorer.evaluate, ledgeScorer, hwiden]

theorem score_ledge_le (pose : Pose ℝ) : (ledgeScorer.evaluate pose).score ≤ 7 := by
  rw [score_ledge]
  exact_mod_cast lookup_ledge_le pose.x pose.y

theorem score_foot (theta : ℝ) : (ledgeScorer.evaluate ⟨0, 0, theta⟩).score = 0 := by
  rw [score_ledge]
  exact_mod_cast lookup_ledge (i := 0) (by decide)

theorem score_top (theta : ℝ) : (ledgeScorer.evaluate ⟨1, 0, theta⟩).score = 7 := by
  rw [score_ledge]
  exact_mod_cast lookup_ledge (i := 1) le_rfl

theorem not_lt_trial {state : ClimbState ℝ} (h : state.best.score = 7) :
    ∀ trial ∈ state.trials ledgeScorer, ¬ state.best.score < trial.score := by
  intro trial htrial
  obtain ⟨pose, -, rfl⟩ := List.mem_map.mp htrial
  rw [h]
  exact not_lt.mpr (score_ledge_le pose)

/-- A step to the right leads from the foot of the ledge to its top. -/
theorem ClimbState.Sweeps.up_ledge {params : ClimbParams ℝ} {state next : ClimbState ℝ}
    (h : Sweeps ledgeScorer params state next) (hx : state.best.pose.x = 0)
    (hy : state.best.pose.y = 0) (hsteps : state.steps.x = 1) (hscore : state.best.score = 0) :
    next.best.score = 7 ∧ next.shrinks = state.shrinks := by
  obtain ⟨trial, htrial, htop⟩ : ∃ trial ∈ state.trials ledgeScorer, trial.score = 7 := by
    have hup : ⟨state.best.pose.x + state.steps.x * 1, state.best.pose.y,
        Angle.normalize state.best.pose.theta⟩ ∈ state.best.pose.neighbours state.steps := by
      simp [Pose.neighbours]
    refine ⟨_, List.mem_map_of_mem hup, ?_⟩
    rw [hx, hy, hsteps, zero_add, one_mul]
    exact score_top _
  have hmoves : state.best.score < trial.score := by
    rw [hscore, htop]
    norm_num
  cases h with
  | improved mem _ greatest =>
    obtain ⟨pose, -, rfl⟩ := List.mem_map.mp mem
    refine ⟨le_antisymm (score_ledge_le pose) ?_, rfl⟩
    rw [← htop]
    exact not_lt.mp (greatest trial htrial)
  | shrunk idle => exact absurd hmoves (idle trial htrial)
  | ended idle => exact absurd hmoves (idle trial htrial)

/-- One sweep goes up, the next shrinks the steps, and the third ends the climb. -/
theorem climb_ledge :
    let seed : Pose ℝ := ⟨0, 0, 0⟩
    let params : ClimbParams ℝ := ⟨1, 1, 1, 1 / 2, 1, 10⟩
    ¬ ledgeScorer.Idle seed params 0 ∧ ledgeScorer.Idle seed params 1 ∧
      (ledgeScorer.climb seed params).iterations = 3 := by
  intro seed params
  let reached := ledgeScorer.reached seed params
  have hsweeps (i : Nat) : ClimbState.Sweeps ledgeScorer params (reached i) (reached (i + 1)) :=
    PoseScorer.sweeps_reached i
  have hfoot : (reached 0).best.score = 0 := score_foot _
  obtain ⟨htop, hsteps⟩ : (reached 1).best.score = 7 ∧ (reached 1).shrinks = 0 :=
    (hsweeps 0).up_ledge rfl rfl rfl hfoot
  obtain ⟨hstays, hshrunk⟩ : (reached 2).best = (reached 1).best ∧ (reached 2).shrinks = 1 := by
    have hsecond := hsweeps 1
    generalize reached 2 = next at hsecond
    cases hsecond with
    | improved mem better => exact absurd better (not_lt_trial htop _ mem)
    | shrunk => exact ⟨rfl, by rw [ClimbState.shrinks_shrink, hsteps]⟩
    | ended _ last => exact absurd (hsteps.symm.trans last) Nat.zero_ne_one
  refine ⟨?_, ?_, PoseScorer.iterations_eq_of_ended ?_ ?_ (by decide)⟩
  · rw [PoseScorer.Idle, PoseScorer.found_eq, PoseScorer.found_eq, not_not]
    change (reached 0).best.score < (reached 1).best.score
    rw [hfoot, htop]
    norm_num
  · rw [PoseScorer.Idle, PoseScorer.found_eq, PoseScorer.found_eq]
    change ¬ (reached 1).best.score < (reached 2).best.score
    rw [hstays]
    exact lt_irrefl _
  · intro i hi hended
    have hlast : (reached i).shrinks = 1 := (ClimbState.sweep?_eq_none_iff.mp hended).2
    interval_cases i
    · exact absurd hlast Nat.zero_ne_one
    · exact absurd (hsteps.symm.trans hlast) Nat.zero_ne_one
  · rw [ClimbState.sweep?_eq_none_iff]
    exact ⟨not_lt_trial ((congrArg ScoredPose.score hstays).trans htop), hshrunk⟩

/-- A climb with budget left over ends where no step of the finest size scores more. It is idle no
more often than it can shrink its steps, and once to end. Every other sweep moves to a trial of
greatest score. -/
theorem hillClimb_ends (hbuilt : pyramid.Built) (points : Array (Point S)) (seed : Pose R)
    (params : ClimbParams R) (scale : R) (prior : Option (Prior R)) :
    ∃ scorer summit, PoseScorer.ofPyramid points pyramid scale prior = .ok scorer ∧
      hillClimb points pyramid seed params scale prior = .ok summit ∧
      (summit.iterations < params.maxIterations →
        ∀ pose ∈ summit.pose.neighbours (params.stepsAfter params.maxShrinks),
          ¬ summit.score < (scorer.evaluate pose).score) ∧
      scorer.found seed params summit.iterations = summit.toScoredPose ∧
      Nat.count (scorer.Idle seed params) summit.iterations ≤ params.maxShrinks + 1 ∧
      ∀ i < summit.iterations,
        let steps := params.stepsAfter (Nat.count (scorer.Idle seed params) i)
        (scorer.Idle seed params i →
          scorer.found seed params (i + 1) = scorer.found seed params i) ∧
        (¬ scorer.Idle seed params i →
          ∃ pose ∈ (scorer.found seed params i).pose.neighbours steps,
            scorer.found seed params (i + 1) = scorer.evaluate pose ∧
            ∀ trial ∈ (scorer.found seed params i).pose.neighbours steps,
              Arith.isNaN (scorer.evaluate trial).score = false →
              (scorer.evaluate trial).score ≤ (scorer.evaluate pose).score) := by
  obtain ⟨scorer, hscorer⟩ := PoseScorer.exists_ofPyramid hbuilt points scale prior
  exact ⟨scorer, _, hscorer, PoseScorer.hillClimb_eq hscorer _ _,
    fun h pose hpose => PoseScorer.not_climb_lt h hpose, PoseScorer.found_iterations,
    PoseScorer.count_idle_iterations_le, fun i hi =>
      ⟨fun h => PoseScorer.found_succ_of_idle h, fun h => PoseScorer.exists_move hi h⟩⟩

/-- From the foot of the ledge a climb takes one step up. Then it is idle twice, once with the first
steps and once with their halves, and ends. -/
theorem hillClimb_ends_ledge :
    let points : Array (Point ℝ) := #[⟨0, 0⟩]
    let pyramid : Pyramid ℝ := ⟨#[ledge], 1⟩
    let seed : Pose ℝ := ⟨0, 0, 0⟩
    let params : ClimbParams ℝ := ⟨1, 1, 1, 1 / 2, 1, 10⟩
    pyramid.Built ∧ ∃ scorer summit,
      PoseScorer.ofPyramid points pyramid (1 : ℝ) none = .ok scorer ∧
      hillClimb points pyramid seed params 1 none = .ok summit ∧
      summit.iterations = 3 ∧ summit.iterations < params.maxIterations ∧
      (∀ pose ∈ summit.pose.neighbours (params.stepsAfter params.maxShrinks),
        ¬ summit.score < (scorer.evaluate pose).score) ∧
      scorer.found seed params summit.iterations = summit.toScoredPose ∧
      Nat.count (scorer.Idle seed params) summit.iterations ≤ params.maxShrinks + 1 ∧
      ¬ scorer.Idle seed params 0 ∧ scorer.Idle seed params 1 ∧
      scorer.found seed params 2 = scorer.found seed params 1 ∧
      ∃ pose ∈ (scorer.found seed params 0).pose.neighbours (params.stepsAfter 0),
        scorer.found seed params 1 = scorer.evaluate pose := by
  intro points pyramid seed params
  have hbuilt : pyramid.Built := ⟨ledge, 1, 1, Or.inl rfl⟩
  obtain ⟨scorer, summit, hscorer, hsummit, hlocal, hfound, hcount, hsweeps⟩ :=
    hillClimb_ends hbuilt points seed params 1 none
  obtain rfl : ledgeScorer = scorer := Except.ok.inj hscorer
  obtain rfl := Except.ok.inj (hsummit.symm.trans (PoseScorer.hillClimb_eq hscorer seed params))
  obtain ⟨hup, hidle, hiterations⟩ := climb_ledge
  have hless : (ledgeScorer.climb seed params).iterations < params.maxIterations := by
    rw [hiterations]
    decide
  have hfirst := hsweeps 0 (by rw [hiterations]; decide)
  have hsecond := hsweeps 1 (by rw [hiterations]; decide)
  obtain ⟨pose, hpose, hmove, -⟩ := hfirst.2 hup
  exact ⟨hbuilt, ledgeScorer, _, hscorer, hsummit, hiterations, hless, hlocal hless, hfound, hcount,
    hup, hidle, hsecond.1 hidle, pose, hpose, hmove⟩

end ScanMatch
