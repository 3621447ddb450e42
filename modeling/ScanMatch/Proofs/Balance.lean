import Mathlib.Data.Set.Card
import ScanMatch.Proofs.Agreement
import ScanMatch.Proofs.Draining
import ScanMatch.Proofs.Merging

/-! # The balance of the counters

A node is on the frontier, or it was split, or it was answered with; a quarter of a node that was
split became a node, or it was pruned. So the counters and the size of the frontier balance after
any sequence of calls, whatever the scores are and in whatever order nodes come off the frontier.
-/
namespace ScanMatch

namespace Block

/-- The blocks of a level that hold a translation from `t0` to `t1`, along one axis. -/
def meeting (t0 t1 : Int) (level : Nat) : Set Int :=
  {b | ∃ t, (t0 ≤ t ∧ t ≤ t1) ∧ b * 2 ^ level ≤ t ∧ t < (b + 1) * 2 ^ level}

theorem mem_meeting {t0 t1 : Int} (ht : t0 ≤ t1) (level : Nat) (b : Int) :
    b ∈ meeting t0 t1 level ↔ t0 / 2 ^ level ≤ b ∧ b ≤ t1 / 2 ^ level := by
  have hd : (0 : Int) < 2 ^ level := by positivity
  constructor
  · rintro ⟨t, ⟨h0, h1⟩, hb⟩
    obtain rfl := (between_iff b t level).mp hb
    exact ⟨Int.ediv_le_ediv hd h0, Int.ediv_le_ediv hd h1⟩
  · rintro ⟨h0, h1⟩
    have h0 := (Int.ediv_lt_iff_lt_mul hd).mp (Int.lt_add_one_of_le h0)
    have h1 := (Int.le_ediv_iff_mul_le hd).mp h1
    have hside : (b + 1) * 2 ^ level = b * 2 ^ level + 2 ^ level := by ring
    -- the first translation of the block, or the lower bound if the block begins below it
    refine ⟨max t0 (b * 2 ^ level), ⟨le_max_left _ _, max_le ht h1⟩, le_max_right _ _, ?_⟩
    exact max_lt h0 (by omega)

theorem length_covering {t0 t1 : Int} {level : Nat} {bs : List Int} (ht : t0 ≤ t1)
    (h : covering t0 t1 (2 ^ level) = .ok bs) : bs.length = (meeting t0 t1 level).ncard := by
  obtain ⟨hnodup, hmem⟩ := covering_cases h
  have hset : meeting t0 t1 level = (bs.toFinset : Set Int) := by
    ext b
    rw [mem_meeting ht, Finset.mem_coe, List.mem_toFinset, hmem]
  rw [hset, Set.ncard_coe_finset, List.toFinset_card_of_nodup hnodup]

end Block

namespace Frontier

variable {R : Type}

theorem Takes.size {f rest : Frontier R} {b : Block R} (h : f.Takes b rest) :
    f.size = rest.size + 1 := by
  rw [← length_toList, ← length_toList, h.length_eq, List.length_cons]

theorem size_insertAll [Scalar R] (f : Frontier R) (bs : List (Block R)) :
    (f.insertAll bs).size = bs.length + f.size := by
  rw [← length_toList, ← length_toList, (toList_insertAll f bs).length_eq, List.length_append]

end Frontier

namespace Engine

variable {S R : Type}

/-- There is one seed for each rotation and each block of the level that meets the window. -/
theorem length_seeds {i level : Nat} {r : Registration S R} {blocks : List (Block R)}
    (hl : level < 31) (hx : r.request.tx0 ≤ r.request.tx1) (hy : r.request.ty0 ≤ r.request.ty1)
    (h : seeds i r level = .ok blocks) :
    blocks.length = r.rotations.size * (Block.meeting r.request.tx0 r.request.tx1 level).ncard *
      (Block.meeting r.request.ty0 r.request.ty1 level).ncard := by
  obtain ⟨d, hd, h⟩ := Checked.bind_eq_ok h
  obtain ⟨ys, hys, h⟩ := Checked.bind_eq_ok h
  obtain ⟨xs, hxs, h⟩ := Checked.bind_eq_ok h
  cases h
  obtain rfl : (2 : Int) ^ level = d := Except.ok.inj ((Checked.cellSide_of_lt hl).symm.trans hd)
  rw [← Block.length_covering hx hxs, ← Block.length_covering hy hys]
  simp only [List.length_flatMap, List.length_map, List.map_const', List.sum_replicate,
    List.length_range, smul_eq_mul]
  ring

variable [Scalar R] [Precision S R] {e e' : Engine S R} {seeded : ℕ}

omit [Precision S R] in
theorem size_add {i : Nat} {pyramid : Pyramid S} {request : Request R} (hp : pyramid.Built)
    (ha : e.add i pyramid request = .ok e') : ∃ level rotations,
      Registration.startLevel request (pyramid.numLevels - 1) = .ok level ∧
      request.rotations = .ok rotations ∧
      e'.size = e.size + rotations.size *
        (Block.meeting request.tx0 request.tx1 level).ncard *
        (Block.meeting request.ty0 request.ty1 level).ncard := by
  obtain ⟨level, d, r, blocks, hx, hy, hn, hlevel, -, hr, hblocks, rfl⟩ := add_cases ha
  obtain ⟨hformed, -, -, rfl⟩ := Registration.formed_of_ofRequest hr
  refine ⟨level, r.rotations, hlevel, hformed.rotations, ?_⟩
  rw [← length_seeds (hp.startLevel_lt hn hlevel).2 hx hy hblocks, size, Frontier.size_insertAll,
    Nat.add_comm]
  rfl

/-- How the counters and the size of the frontier are tied to the numbers of seeds and answers. -/
structure Balanced (e : Engine S R) (seeded answered : ℕ) : Prop where
  nodes : e.size + e.stats.resultsReturned + e.stats.childrenPruned =
    seeded + 3 * e.stats.nodesExpanded
  scored_le : e.stats.childrenScored ≤ 4 * e.stats.nodesExpanded
  unscored_le : 4 * e.stats.nodesExpanded - e.stats.childrenScored ≤ e.stats.childrenPruned
  answered : e.stats.resultsReturned = answered

/-- What the verdicts on some quarters add to the counters. Those kept are not pruned, and only
those pruned may not be scored. -/
structure Counted (stats stats' : SearchStats R) (quarters kept : ℕ) : Prop where
  expanded : stats'.nodesExpanded = stats.nodesExpanded
  returned : stats'.resultsReturned = stats.resultsReturned
  pruned : stats'.childrenPruned + kept = stats.childrenPruned + quarters
  scored_le : stats'.childrenScored ≤ stats.childrenScored + quarters
  unscored_le : stats.childrenScored + quarters + stats.childrenPruned ≤
    stats'.childrenScored + stats'.childrenPruned

omit [Precision S R] in
theorem counted_judged (r : Registration S R) (judged : List (Block R × Verdict R)) :
    ∀ stats : SearchStats R, Counted stats (judged.foldl (fun s j => s.count j.2) stats)
      judged.length (judged.filterMap r.kept?).length := by
  induction judged with
  | nil => exact fun _ => ⟨rfl, rfl, rfl, le_rfl, le_rfl⟩
  | cons j judged ih =>
    obtain ⟨quarter, verdict⟩ := j
    intro stats
    obtain ⟨hexpanded, hreturned, hpruned, hscored, hunscored⟩ := ih (stats.count verdict)
    rw [List.foldl_cons, List.length_cons]
    cases verdict with
    | outside =>
      have hkept : ((quarter, Verdict.outside) :: judged).filterMap r.kept? =
        judged.filterMap r.kept? := rfl
      simp only [SearchStats.count] at *
      exact ⟨hexpanded, hreturned, by rw [hkept]; omega, by omega, by omega⟩
    | dropped =>
      have hkept : ((quarter, Verdict.dropped) :: judged).filterMap r.kept? =
        judged.filterMap r.kept? := rfl
      simp only [SearchStats.count] at *
      exact ⟨hexpanded, hreturned, by rw [hkept]; omega, by omega, by omega⟩
    | kept score excess =>
      have hkept : (((quarter, Verdict.kept score excess) :: judged).filterMap r.kept?).length =
        (judged.filterMap r.kept?).length + 1 := rfl
      simp only [SearchStats.count] at *
      exact ⟨hexpanded, hreturned, by rw [hkept]; omega, by omega, by omega⟩

theorem Balanced.split {answered : ℕ} (h : e.Balanced seeded answered) {whole : Block R}
    {rest : Frontier R} {level : ℕ} (ht : e.frontier.Takes whole rest)
    (he : ({ e with frontier := rest } : Engine S R).expand whole level = .ok e') :
    e'.Balanced seeded answered := by
  obtain ⟨hnodes, hscored, hunscored, hanswered⟩ := h
  obtain ⟨r, cache, judged, cache', -, -, hj, rfl⟩ := expand_cases he
  obtain ⟨-, hmap, -⟩ := Registration.judgeAll_cases (fun _ => True)
    (fun _ _ _ _ _ _ _ => trivial) trivial hj
  have hfour : judged.length = 4 := by
    rw [← List.length_map Prod.fst, hmap]
    rfl
  obtain ⟨hexpanded, hreturned, hpruned, hscored', hunscored'⟩ := counted_judged r judged
    { e.stats with nodesExpanded := e.stats.nodesExpanded + 1 }
  have hsize := Frontier.size_insertAll rest (judged.filterMap r.kept?)
  have htaken := ht.size
  rw [hfour] at hpruned hscored' hunscored'
  unfold size at hnodes
  simp only at hexpanded hreturned hpruned hscored' hunscored'
  constructor <;> simp only [afterSplit, size] <;> omega

theorem Balanced.report {answered : ℕ} (h : e.Balanced seeded answered) {block : Block R}
    {rest : Frontier R} {found : Found R} (ht : e.frontier.Takes block rest)
    (hr : ({ e with frontier := rest } : Engine S R).report block = .ok (found, e')) :
    e'.Balanced seeded (answered + 1) := by
  obtain ⟨hnodes, hscored, hunscored, hanswered⟩ := h
  obtain ⟨r, theta, -, -, -, rfl⟩ := report_cases hr
  have htaken := ht.size
  unfold size at hnodes
  constructor <;> simp only [size] <;> omega

/-- One request for the next translation keeps the balance, however many nodes it splits. -/
theorem Balanced.next {answered : ℕ} {found : Option (Found R)}
    (h : e.Balanced seeded answered) (hn : Next Frontier.Takes e (.ok (found, e'))) :
    e'.Balanced seeded (found.toList.length + answered) := by
  generalize hout : Except.ok (found, e') = out at hn
  induction hn with
  | drained =>
    cases hout
    rwa [Option.toList_none, List.length_nil, Nat.zero_add]
  | report ht _ hr =>
    cases hout
    rw [Option.toList_some, List.length_singleton, Nat.add_comm]
    exact h.report ht hr
  | reportFault => cases hout
  | split ht _ he _ ih => exact ih (h.split ht he) hout
  | splitFault => cases hout

/-- The engines that calls lead to, each with the number of seeds pushed so far and the answers
given, the last first. A request for the next translation may take nodes off the frontier in any
order, and a query or a clearing of a scan may come between any two calls. -/
inductive Calls : Engine S R → ℕ → List (Found R) → Prop where
  | start (scans : List (Array (Point S) × Bool)) :
      Calls (ofCaches (scans.map fun s => ScanCache.ofPoints s.1 s.2).toArray) 0 []
  | add {e e' seeded answers i pyramid request pushed} : Calls e seeded answers →
      i < e.caches.size → pyramid.Built → e.add i pyramid request = .ok e' →
      e'.size = e.size + pushed → Calls e' (seeded + pushed) answers
  | next {e e' seeded answers found} : Calls e seeded answers →
      Next Frontier.Takes e (.ok (found, e')) → Calls e' seeded (found.toList ++ answers)
  | clear {e seeded answers} (i : ℕ) : Calls e seeded answers →
      Calls (e.clearCache i) seeded answers
  | query {e seeded answers i cache metersPerPixel level shared cache'} {theta : R} :
      Calls e seeded answers → e.caches[i]? = some cache →
      cache.get metersPerPixel theta level = .ok (shared, cache') →
      Calls { e with caches := e.caches.set! i cache' } seeded answers

variable {answers : List (Found R)}

theorem Calls.balanced (h : Calls e seeded answers) : e.Balanced seeded answers.length := by
  induction h with
  | start => exact ⟨rfl, le_rfl, le_rfl, rfl⟩
  | add _ _ _ ha hpushed ih =>
    obtain ⟨hnodes, hscored, hunscored, hanswered⟩ := ih
    obtain ⟨level, d, r, blocks, -, -, -, -, -, -, -, rfl⟩ := add_cases ha
    refine ⟨?_, hscored, hunscored, hanswered⟩
    rw [hpushed]
    simp only
    omega
  | next _ hn ih =>
    rw [List.length_append]
    exact ih.next hn
  | clear _ _ ih => exact ⟨ih.nodes, ih.scored_le, ih.unscored_le, ih.answered⟩
  | query _ _ _ ih => exact ⟨ih.nodes, ih.scored_le, ih.unscored_le, ih.answered⟩

/-- Nodes and counters balance after all calls, and an accepted request adds one node for each
rotation and each block that meets its window. -/
theorem Calls.nodes_balance (h : Calls e seeded answers) :
    e.size + e.stats.resultsReturned + e.stats.childrenPruned =
        seeded + 3 * e.stats.nodesExpanded ∧
      e.stats.childrenScored ≤ 4 * e.stats.nodesExpanded ∧
      4 * e.stats.nodesExpanded - e.stats.childrenScored ≤ e.stats.childrenPruned ∧
      e.stats.resultsReturned = answers.length ∧
      ∀ (i : ℕ) (pyramid : Pyramid S) (request : Request R) (e' : Engine S R),
        pyramid.Built → e.add i pyramid request = .ok e' → ∃ level rotations,
          Registration.startLevel request (pyramid.numLevels - 1) = .ok level ∧
          request.rotations = .ok rotations ∧
          e'.size = e.size + rotations.size *
            (Block.meeting request.tx0 request.tx1 level).ncard *
            (Block.meeting request.ty0 request.ty1 level).ncard :=
  ⟨h.balanced.nodes, h.balanced.scored_le, h.balanced.unscored_le, h.balanced.answered,
    fun _ _ _ _ hp ha => size_add hp ha⟩

/-- The search for one translation returns it, and then ends. -/
theorem exists_next_pinned (scale : ℝ) (prior : Option (Prior ℝ)) :
    ∃ (p : Pyramid ℝ) (e e' : Engine ℝ ℝ) (found : Found ℝ), p.Built ∧ p.numLevels = 2 ∧
      (ofCaches #[pinnedCache]).add 0 p (Request.pinned scale prior) = .ok e ∧
      e.frontier.Takes pinnedBlock .empty ∧
      e.next = .ok (some found, e') ∧ e'.next = .ok (none, e') := by
  obtain ⟨p, e, r, hbuilt, hn, hadd, hpinned, hr, hc, hpop⟩ := exists_added_pinned scale prior
  obtain ⟨bound, e₁, hexpand, hpop₁⟩ := expand_pinned hpinned hr hc
  have hr₁ : e₁.registrations[0]? = some r := by rw [(expand_frame hexpand).1, hr]
  have htheta : r.rotations[0]? = some 1 := by
    rw [hpinned.rotations]
    rfl
  obtain ⟨⟨found, e₂⟩, hreport⟩ : ∃ out,
      ({ e₁ with frontier := .empty } : Engine ℝ ℝ).report ⟨0, 0, 0, 0, 0, bound⟩ = .ok out :=
    report_ok hr₁ htheta
  refine ⟨p, e, e₂, found, hbuilt, hn, hadd, Frontier.toList_pop? hpop, ?_, ?_⟩
  · rw [next_of_split hpop rfl, hexpand]
    refine (next_of_single hpop₁ rfl).trans ?_
    rw [hreport]
    rfl
  · obtain ⟨r', theta, -, -, -, rfl⟩ := report_cases hreport
    exact next_of_none rfl

/-- The search for one translation, after its one answer. -/
theorem Calls.nodes_balance_pinned : ∃ (p : Pyramid ℝ) (e e' : Engine ℝ ℝ) (found : Found ℝ),
    p.Built ∧ (ofCaches #[pinnedCache]).add 0 p (Request.pinned 2 none) = .ok e ∧
      Calls e 1 [] ∧ e.size = 1 ∧ e.next = .ok (some found, e') ∧ Calls e' 1 [found] ∧
      e'.size + e'.stats.childrenPruned = 3 * e'.stats.nodesExpanded ∧
      e'.stats.resultsReturned = 1 := by
  obtain ⟨p, e, e', found, hbuilt, hn, hadd, -, hnext, -⟩ := exists_next_pinned 2 none
  have hstart : Calls (ofCaches #[pinnedCache] : Engine ℝ ℝ) 0 [] :=
    Calls.start [(pinnedScan, true)]
  obtain ⟨-, -, -, -, hseeds⟩ := Calls.nodes_balance hstart
  obtain ⟨level, rotations, hlevel, hrotations, hsize⟩ := hseeds 0 p _ e hbuilt hadd
  rw [hn] at hlevel
  obtain rfl : 1 = level := Except.ok.inj hlevel
  rw [Request.pinned_rotations] at hrotations
  obtain rfl := Except.ok.inj hrotations
  have hcovering : Block.covering 0 0 (2 ^ 1) = .ok [0] := rfl
  have hone : (Block.meeting 0 0 1).ncard = 1 :=
    (Block.length_covering le_rfl hcovering).symm
  have hsize : e.size = 0 + 1 := by
    change e.size = 0 + 1 * (Block.meeting 0 0 1).ncard * (Block.meeting 0 0 1).ncard at hsize
    rw [hsize, hone]
  have hcalls : Calls e 1 [] := hstart.add Nat.zero_lt_one hbuilt hadd hsize
  have hanswer := next_takes e
  rw [hnext] at hanswer
  have hcalls' : Calls e' 1 [found] := hcalls.next hanswer
  obtain ⟨hnodes, -, -, hreturned, -⟩ := Calls.nodes_balance hcalls'
  rw [List.length_singleton] at hreturned
  exact ⟨p, e, e', found, hbuilt, hadd, hcalls, hsize, hnext, hcalls', by omega, hreturned⟩

end Engine

end ScanMatch
