import ScanMatch.Proofs.Balance

/-! # Searches are exhausted

Each node can still be split, and still be answered with, so and so often: no more often than the
complete tree of quarters below it. A split lowers the first number of a frontier and an answer the
second, whatever the scores are and in whatever order nodes come off, and so a search ends.
-/
namespace ScanMatch

variable {S R : Type} [Scalar R] [Precision S R]

/-- How many nodes of the complete tree of quarters below a node of the level are split. -/
def Block.splitsAt (level : ℕ) : ℕ := (4 ^ level - 1) / 3

theorem Block.splitsAt_succ (level : ℕ) : splitsAt (level + 1) = 4 * splitsAt level + 1 := by
  have hmod : 4 ^ level % 3 = 1 := by simp [Nat.pow_mod]
  unfold splitsAt
  rw [pow_succ]
  omega

namespace Frontier

variable {f rest : Frontier R} {b : Block R}

/-- How often the nodes of a frontier can be split, they and all that comes of them. -/
def splitsLeft (f : Frontier R) : ℕ := (f.toList.map fun b => Block.splitsAt b.level).sum

/-- How many single translations the nodes of a frontier hold. -/
def answersLeft (f : Frontier R) : ℕ := (f.toList.map fun b => 4 ^ b.level).sum

omit [Scalar R] in
theorem Takes.sum_map (h : f.Takes b rest) (w : Block R → ℕ) :
    (f.toList.map w).sum = w b + (rest.toList.map w).sum := by
  rw [(h.map w).sum_eq, List.map_cons, List.sum_cons]

theorem sum_map_insertAll (f : Frontier R) (bs : List (Block R)) (w : Block R → ℕ) :
    ((f.insertAll bs).toList.map w).sum = (bs.map w).sum + (f.toList.map w).sum := by
  rw [((toList_insertAll f bs).map w).sum_eq, List.map_append, List.sum_append]

end Frontier

namespace Engine

variable {e e' e'' : Engine S R}

/-- What is done by the second engine, with what is left of it, is no more than what is done by the
first with what is left of that. -/
structure Spends (e e' : Engine S R) (answered : ℕ) : Prop where
  splits : e'.stats.nodesExpanded + e'.frontier.splitsLeft ≤
    e.stats.nodesExpanded + e.frontier.splitsLeft
  answers : answered + e'.frontier.answersLeft ≤ e.frontier.answersLeft

omit [Scalar R] [Precision S R] in
theorem Spends.trans {m n : ℕ} (h : Spends e e' m) (h' : Spends e' e'' n) :
    Spends e e'' (n + m) := by
  refine ⟨h'.splits.trans h.splits, ?_⟩
  have := h.answers
  have := h'.answers
  omega

/-- A node is split into no more than four of the level below. -/
theorem spends_split {whole : Block R} {rest : Frontier R} {level : ℕ}
    (ht : e.frontier.Takes whole rest) (hl : whole.level = level + 1)
    (he : ({ e with frontier := rest } : Engine S R).expand whole level = .ok e') :
    Spends e e' 0 ∧ e'.stats.nodesExpanded = e.stats.nodesExpanded + 1 := by
  obtain ⟨r, cache, judged, cache', -, -, hj, rfl⟩ := expand_cases he
  obtain ⟨-, hmap, -⟩ := Registration.judgeAll_cases (fun _ => True)
    (fun _ _ _ _ _ _ _ => trivial) trivial hj
  have hfour : (judged.filterMap r.kept?).length ≤ 4 := by
    refine (List.length_filterMap_le _ _).trans (le_of_eq ?_)
    rw [← List.length_map Prod.fst, hmap]
    rfl
  have hlevel : ∀ b ∈ judged.filterMap r.kept?, b.level = level := by
    intro b hb
    obtain ⟨q, -, score, excess, -, rfl⟩ := Registration.kept_quarter hmap hb
    rfl
  have hkept (w : ℕ → ℕ) :
      ((judged.filterMap r.kept?).map fun b => w b.level).sum ≤ 4 * w level := by
    rw [List.map_congr_left fun b hb => by rw [hlevel b hb], List.map_const', List.sum_replicate,
      smul_eq_mul]
    exact Nat.mul_le_mul_right _ hfour
  have hexpanded := (counted_judged r judged
    { e.stats with nodesExpanded := e.stats.nodesExpanded + 1 }).expanded
  refine ⟨⟨?_, ?_⟩, hexpanded⟩
  · have hbefore := ht.sum_map fun b => Block.splitsAt b.level
    have hafter := rest.sum_map_insertAll (judged.filterMap r.kept?) fun b => Block.splitsAt b.level
    have := hkept Block.splitsAt
    simp only [hl, Block.splitsAt_succ] at hbefore
    simp only [afterSplit, Frontier.splitsLeft, hexpanded]
    omega
  · have hbefore := ht.sum_map fun b => 4 ^ b.level
    have hafter := rest.sum_map_insertAll (judged.filterMap r.kept?) fun b => 4 ^ b.level
    have := hkept (4 ^ ·)
    simp only [hl, pow_succ] at hbefore
    simp only [afterSplit, Frontier.answersLeft]
    omega

theorem spends_report {block : Block R} {rest : Frontier R} {found : Found R}
    (ht : e.frontier.Takes block rest) (hl : block.level = 0)
    (hr : ({ e with frontier := rest } : Engine S R).report block = .ok (found, e')) :
    Spends e e' 1 := by
  obtain ⟨r, theta, -, -, -, rfl⟩ := report_cases hr
  have hsplits := ht.sum_map fun b => Block.splitsAt b.level
  have hanswers := ht.sum_map fun b => 4 ^ b.level
  simp only [hl, pow_zero] at hanswers
  constructor
  · simp only [Frontier.splitsLeft]
    omega
  · simp only [Frontier.answersLeft]
    omega

theorem Next.spends {found : Option (Found R)} (h : Next Frontier.Takes e (.ok (found, e'))) :
    Spends e e' found.toList.length := by
  generalize hout : Except.ok (found, e') = out at h
  induction h with
  | drained =>
    cases hout
    exact ⟨le_rfl, (Nat.zero_add _).le⟩
  | report ht hl hr =>
    cases hout
    exact spends_report ht hl hr
  | reportFault => cases hout
  | split ht hl he _ ih => exact (spends_split ht hl he).1.trans (ih hout)
  | splitFault => cases hout

/-- Nodes are split one after the other, as one request for the next translation does. -/
inductive Splits : Engine S R → ℕ → Engine S R → Prop where
  | refl (e : Engine S R) : Splits e 0 e
  | step {e e' e'' n whole rest level} : Splits e n e' → e'.frontier.Takes whole rest →
      whole.level = level + 1 →
      ({ e' with frontier := rest } : Engine S R).expand whole level = .ok e'' →
      Splits e (n + 1) e''

theorem Splits.spends {n : ℕ} (h : Splits e n e') :
    Spends e e' 0 ∧ e'.stats.nodesExpanded = e.stats.nodesExpanded + n := by
  induction h with
  | refl => exact ⟨⟨le_rfl, (Nat.zero_add _).le⟩, rfl⟩
  | step _ ht hl he ih =>
    obtain ⟨hspends, hexpanded⟩ := spends_split ht hl he
    exact ⟨ih.1.trans hspends, by rw [hexpanded, ih.2, Nat.add_assoc]⟩

/-- Requests for the next translation, one after the other, with the answers, the last first. A
query or a clearing of a scan may come between any two. -/
inductive Draws : Engine S R → List (Found R) → Engine S R → Prop where
  | refl (e : Engine S R) : Draws e [] e
  | next {e e' e'' answers found} : Draws e answers e' →
      Next Frontier.Takes e' (.ok (found, e'')) → Draws e (found.toList ++ answers) e''
  | clear {e e' answers} (i : ℕ) : Draws e answers e' → Draws e answers (e'.clearCache i)
  | query {e e' answers i cache metersPerPixel level shared cache'} {theta : R} :
      Draws e answers e' → e'.caches[i]? = some cache →
      cache.get metersPerPixel theta level = .ok (shared, cache') →
      Draws e answers { e' with caches := e'.caches.set! i cache' }

variable {answers : List (Found R)}

theorem Draws.spends (h : Draws e answers e') : Spends e e' answers.length := by
  induction h with
  | refl => exact ⟨le_rfl, (Nat.zero_add _).le⟩
  | next _ hn ih =>
    rw [List.length_append]
    exact ih.trans hn.spends
  | clear _ _ ih => exact ⟨ih.splits, ih.answers⟩
  | query _ _ _ ih => exact ⟨ih.splits, ih.answers⟩

theorem Next.eq_of_empty {out : Checked (Option (Found R) × Engine S R)}
    (h : Next Frontier.Takes e out) (hempty : e.frontier.toList = []) : out = .ok (none, e) := by
  have hnot {b : Block R} {rest : Frontier R} : ¬ e.frontier.Takes b rest := by
    intro ht
    rw [Frontier.Takes, hempty] at ht
    cases ht.length_eq
  cases h with
  | drained => rfl
  | report ht => exact absurd ht hnot
  | reportFault ht => exact absurd ht hnot
  | split ht => exact absurd ht hnot
  | splitFault ht => exact absurd ht hnot

/-- Once nothing is left, there are no answers and nothing is counted. -/
theorem Draws.of_empty (h : Draws e answers e') (hempty : e.frontier.toList = []) :
    answers = [] ∧ e'.frontier = e.frontier ∧ e'.stats = e.stats := by
  induction h with
  | refl => exact ⟨rfl, rfl, rfl⟩
  | next _ hn ih =>
    obtain ⟨rfl, hfrontier, hstats⟩ := ih
    cases hn.eq_of_empty (by rw [hfrontier, hempty])
    exact ⟨rfl, hfrontier, hstats⟩
  | clear _ _ ih => exact ih
  | query _ _ _ ih => exact ih

/-- As many requests as the frontier weighs leave nothing, if none of them fails. -/
theorem takeOnto_draws {start : Engine S R} {founds : Array (Found R)} (n : ℕ) :
    ∀ {e : Engine S R} {taken : Array (Found R)}, Draws start taken.toList.reverse e →
      e.frontier.weight ≤ n → takeOnto taken n e = .ok (founds, e') →
      Draws start founds.toList.reverse e' ∧ e'.frontier.toList = [] := by
  induction n with
  | zero =>
    intro e taken hdraws hweight htake
    cases htake
    exact ⟨hdraws, Frontier.toList_of_weight (Nat.le_zero.mp hweight)⟩
  | succ n ih =>
    intro e taken hdraws hweight htake
    have hnext := next_takes e
    unfold takeOnto at htake
    cases hout : e.next with
    | error f =>
      rw [hout] at htake
      cases htake
    | ok out =>
      obtain ⟨found, e₁⟩ := out
      rw [hout] at htake hnext
      have hdraws₁ := hdraws.next hnext
      cases found with
      | none =>
        cases htake
        exact ⟨hdraws₁, hnext.drained_of_none rfl⟩
      | some found =>
        refine ih ?_ (Nat.le_of_lt_succ (hnext.weight_lt.trans_le hweight)) htake
        rw [Array.toList_push, List.reverse_append]
        exact hdraws₁

/-- A request ends after so many splits, whatever its order, and requests for the next translation
together split and answer no more than so often. The first of them without an answer is followed
by others of its kind, which count nothing. -/
theorem Draws.search_ends (h : Draws e answers e') :
    (∀ n last, Splits e' n last → n ≤ (e'.frontier.toList.map fun b => (4 ^ b.level - 1) / 3).sum) ∧
      Next Frontier.Takes e' e'.next ∧
      e'.stats.nodesExpanded ≤ e.stats.nodesExpanded +
        (e.frontier.toList.map fun b => (4 ^ b.level - 1) / 3).sum ∧
      answers.length ≤ (e.frontier.toList.map fun b => 4 ^ b.level).sum ∧
      (∀ drained, Next Frontier.Takes e' (.ok (none, drained)) → ∀ later answers',
        Draws drained answers' later → answers' = [] ∧ later.stats = drained.stats ∧
          ∀ out, Next Frontier.Takes later out → out = .ok (none, later)) ∧
      ∀ founds drained, e'.drain = .ok (founds, drained) →
        Draws e' founds.toList.reverse drained ∧ drained.next = .ok (none, drained) := by
  refine ⟨?_, next_takes e', (Nat.le_add_right _ _).trans h.spends.splits,
    (Nat.le_add_right _ _).trans h.spends.answers, ?_, ?_⟩
  · intro n last hsplits
    obtain ⟨hspends, hexpanded⟩ := hsplits.spends
    have hle := hspends.splits
    change n ≤ e'.frontier.splitsLeft
    omega
  · intro drained hnone later answers' hlater
    have hempty := hnone.drained_of_none rfl
    obtain ⟨rfl, hfrontier, hstats⟩ := hlater.of_empty hempty
    exact ⟨rfl, hstats, fun out hout => hout.eq_of_empty (by rw [hfrontier, hempty])⟩
  · intro founds drained hdrain
    obtain ⟨hdraws, hempty⟩ := takeOnto_draws _ (Draws.refl e') le_rfl hdrain
    exact ⟨hdraws, (next_takes drained).eq_of_empty hempty⟩

/-- The search for one translation splits one node and answers once, of four times it might. -/
theorem Draws.search_ends_pinned : ∃ (e e' : Engine ℝ ℝ) (found : Found ℝ),
    Draws e [found] e' ∧ (e.frontier.toList.map fun b => (4 ^ b.level - 1) / 3).sum = 1 ∧
      (e.frontier.toList.map fun b => 4 ^ b.level).sum = 4 ∧
      e'.stats.nodesExpanded ≤ e.stats.nodesExpanded + 1 ∧ [found].length ≤ 4 ∧
      e'.next = .ok (none, e') ∧
      ∀ later answers, Draws e' answers later → answers = [] ∧ later.stats = e'.stats := by
  obtain ⟨-, e, e', found, -, -, -, htakes, hnext, hdone⟩ := exists_next_pinned 2 none
  have hanswer := next_takes e
  rw [hnext] at hanswer
  have hdraws : Draws e [found] e' := (Draws.refl e).next hanswer
  have hsplits : (e.frontier.toList.map fun b => (4 ^ b.level - 1) / 3).sum = 1 :=
    htakes.sum_map fun b => (4 ^ b.level - 1) / 3
  have hanswers : (e.frontier.toList.map fun b => 4 ^ b.level).sum = 4 :=
    htakes.sum_map fun b => 4 ^ b.level
  obtain ⟨-, -, hexpanded, hfew, hlast, -⟩ := Draws.search_ends hdraws
  rw [hsplits] at hexpanded
  rw [hanswers] at hfew
  have hend := next_takes e'
  rw [hdone] at hend
  refine ⟨e, e', found, hdraws, hsplits, hanswers, hexpanded, hfew, hdone, ?_⟩
  intro later answers hlater
  obtain ⟨hnone, hstats, -⟩ := hlast e' hend later answers hlater
  exact ⟨hnone, hstats⟩

end Engine

end ScanMatch
