import ScanMatch.Proofs.Bounds
import ScanMatch.Proofs.Order

/-! # Best-first search is exhaustive search

In exact arithmetic each answer is a translation of greatest score among all that were not returned
yet, whatever was registered and answered before and whichever of equal bounds comes first. There is
no answer once all were returned.
-/
namespace ScanMatch

open Checked (Ensures)

namespace Engine

variable {S : Type} [Precision S ℝ]

/-- A candidate that exhaustive search would return: its scaled correlation is high enough. -/
def Hypothesis (e : Engine S ℝ) (c : Candidate) : Prop :=
  e.Offers c ∧ ∀ r points theta least, e.registrations[c.registration]? = some r →
    e.scans[r.cache]? = some points → r.rotations[c.rotation]? = some theta →
    r.request.minScore = some least →
      ¬ r.request.scale * r.correlation points theta c.x c.y < least

/-- No hypothesis left has a greater score than the one found. -/
structure IsBest (e : Engine S ℝ) (history : History S ℝ) (c : Candidate) (found : Found ℝ) :
    Prop where
  hypothesis : e.Hypothesis c
  fresh : history.timesReturned c = 0
  reports : e.Reports c found
  score : e.score? c = some found.score
  greatest : ∀ c', e.Hypothesis c' → history.timesReturned c' = 0 →
    ∃ t, e.score? c' = some t ∧ t ≤ found.score

/-- The answer is a best hypothesis left, or none where none is left. The search can go on. -/
def AnswersBest (e : Engine S ℝ) (history : History S ℝ)
    (out : Option (Found ℝ) × Engine S ℝ) : Prop :=
  match out.1 with
  | none => (∀ c, e.Hypothesis c → history.timesReturned c = 1) ∧
    ∃ history', Resumes Frontier.TakesBest e history out.2 history' ∧
      history'.returned = history.returned
  | some found => ∃ c, e.IsBest history c found ∧
    ∃ history', Resumes Frontier.TakesBest e history out.2 history' ∧
      history'.returned = (c, found) :: history.returned

variable {e e' : Engine S ℝ} {history history' : History S ℝ}

theorem Run.takes (hrun : Run Frontier.TakesBest e history) : Run Frontier.Takes e history :=
  hrun.mono (fun _ _ _ => trivial) fun _ _ _ ht => ht.takes

namespace View

variable {c : Candidate}

theorem raw_candidate (v : e.View (.ofCandidate c)) :
    v.raw = v.r.correlation v.points v.theta c.x c.y :=
  Registration.rawScore_zero v.grid_eq v.points v.theta c.x c.y

theorem not_below (v : e.View (.ofCandidate c)) (hc : e.Hypothesis c) : ¬ v.Below := by
  rintro ⟨least, hleast, hlt⟩
  refine hc.2 v.r v.points v.theta least v.registration_eq v.points_eq v.theta_eq hleast ?_
  rw [raw_candidate, Exact.ofInt_eq] at hlt
  rwa [mul_comm]

theorem hypothesis (v : e.View (.ofCandidate c)) (hc : e.Offers c) (h : ¬ v.Below) :
    e.Hypothesis c := by
  refine ⟨hc, ?_⟩
  intro r points theta least hr hpoints htheta hleast hlt
  obtain rfl : v.r = r := Option.some.inj (v.registration_eq.symm.trans hr)
  obtain rfl : v.points = points := Option.some.inj (v.points_eq.symm.trans hpoints)
  obtain rfl : v.theta = theta := Option.some.inj (v.theta_eq.symm.trans htheta)
  refine h ⟨least, hleast, ?_⟩
  rw [raw_candidate, Exact.ofInt_eq]
  rwa [mul_comm] at hlt

/-- A block of level 0 is its only translation. -/
def single {b : Block ℝ} (v : e.View b) (h0 : b.level = 0) : e.View (.ofCandidate b.candidate) where
  r := v.r
  points := v.points
  theta := v.theta
  grid := v.grid
  registration_eq := v.registration_eq
  points_eq := v.points_eq
  theta_eq := v.theta_eq
  grid_eq := by rw [← v.grid_eq, h0]; rfl

theorem single_score {b : Block ℝ} (v : e.View b) (h0 : b.level = 0) :
    (v.single h0).score = v.score ∧ ((v.single h0).Below ↔ v.Below) := by
  obtain ⟨registration, level, rotation, x, y, bound⟩ := b
  obtain rfl : level = 0 := h0
  exact ⟨rfl, Iff.rfl⟩

end View

/-- What was dropped is no hypothesis. -/
theorem Bounded.not_dropped (hrun : Run Frontier.TakesBest e history) (hp : e.WellPosed history)
    (h : e.Bounded history) {c : Candidate} (hc : e.Hypothesis c) :
    Block.holding c history.dropped = 0 := by
  refine Block.holding_eq_zero ?_
  intro b hb hholds
  obtain ⟨v, least, hleast, hlt⟩ := h.dropped b hb
  have hinside := Block.ofCandidate_inside (R := ℝ) hholds
  have hraw := (v.inside_le hrun (v.inner hinside) hinside).1
  refine (v.inner hinside).not_below hc ⟨least, hleast, lt_of_le_of_lt ?_ hlt⟩
  refine mul_le_mul_of_nonneg_right ?_ (hp.scale_nonneg _ v.r v.registration_eq)
  rw [Exact.ofInt_eq, Exact.ofInt_eq]
  exact_mod_cast hraw

/-- While it is on the frontier a hypothesis scores no more than the best block. -/
theorem score_le_top (hrun : Run Frontier.TakesBest e history) (hp : e.WellPosed history)
    {block : Block ℝ} {s : ℝ} (hbound : block.bound = .score s)
    (hbest : ∀ b ∈ e.frontier.toList, b.bound.order block.bound ≠ .gt) {c : Candidate}
    (hc : 0 < Block.holding c e.frontier.toList) : ∃ t, e.score? c = some t ∧ t ≤ s := by
  obtain ⟨b, hb, hholds⟩ := Block.exists_of_holding hc
  have hle := Bound.order_ne_gt_iff.mp (hbest b hb)
  rw [hbound] at hle
  have h := (hrun.takes.bounded hp).blocks b hb
  have hfinite : ∃ s', b.bound.finite? = some s' ∧ s' ≤ s := by
    obtain ⟨v, ⟨hunknown, -⟩ | ⟨hknown, -⟩⟩ := h
    · rw [hunknown] at hle
      exact absurd hle (not_le.mpr (EReal.coe_lt_top s))
    · rw [hknown] at hle ⊢
      exact ⟨v.score, rfl, EReal.coe_le_coe_iff.mp hle⟩
  obtain ⟨s', hs', hle'⟩ := hfinite
  obtain ⟨t, ht, htle⟩ := h.of_holds hrun hp hs' hholds
  exact ⟨t, ht, htle.trans hle'⟩

theorem IsBest.of_report {block : Block ℝ} {rest : Frontier ℝ} {found : Found ℝ}
    (hrun : Run Frontier.TakesBest e history) (hp : e.WellPosed history)
    (ht : e.frontier.TakesBest block rest) (h0 : block.level = 0)
    (hfound : ({ e with frontier := rest } : Engine S ℝ).report block = .ok (found, e')) :
    e.IsBest history block.candidate found := by
  have hpart := hrun.takes.partitioned
  have hbounded := hrun.takes.bounded hp
  have hmem : block ∈ e.frontier.toList := ht.takes.mem_iff.mpr List.mem_cons_self
  obtain ⟨r, theta, hr, htheta, rfl, -⟩ := report_cases hfound
  obtain ⟨r', hfits, hwindow⟩ := hpart.blocks block hmem
  obtain rfl : r = r' := Option.some.inj (hr.symm.trans hfits.registration)
  have hoffers : e.Offers block.candidate := ⟨r, hr, hfits.rotation_lt, hwindow h0⟩
  obtain ⟨v, ⟨-, hcoarse⟩ | ⟨hbound, hnot⟩⟩ := hbounded.blocks block hmem
  · omega
  obtain ⟨hscore, hbelow⟩ := v.single_score h0
  have hvalue : block.bound.value = v.score := by
    rw [hbound]
    rfl
  refine ⟨(v.single h0).hypothesis hoffers (mt hbelow.mp hnot), ?_,
    ⟨hoffers, rfl, r, theta, hr, htheta, rfl⟩, ?_, ?_⟩
  · have honce := hpart.once _ hoffers
    have hholds : 0 < Block.holding block.candidate e.frontier.toList :=
      List.countP_pos_iff.mpr ⟨block, hmem, decide_eq_true ((Block.holds_zero h0 _).mpr rfl)⟩
    omega
  · rw [(v.single h0).score?_eq hp, hscore, hvalue]
  -- a hypothesis left is still on the frontier, in a block of no greater bound
  · intro c hc hfresh
    have honce := hpart.once c hc.1
    have hdropped := hbounded.not_dropped hrun hp hc
    rw [hvalue]
    exact score_le_top hrun hp hbound ht.best (by omega)

/-- What is best depends on registrations, scans and answers only. -/
theorem IsBest.of_frame {c : Candidate} {found : Found ℝ} (h : e'.IsBest history' c found)
    (hr : e'.registrations = e.registrations) (hs : e'.scans = e.scans)
    (hreturned : history'.returned = history.returned) : e.IsBest history c found := by
  have hscore (c : Candidate) : e'.score? c = e.score? c := by simp only [score?, hr, hs]
  have htimes (c : Candidate) : history'.timesReturned c = history.timesReturned c := by
    simp only [History.timesReturned, hreturned]
  have hhypothesis (c : Candidate) : e'.Hypothesis c ↔ e.Hypothesis c := by
    simp only [Hypothesis, Offers, hr, hs]
  refine ⟨(hhypothesis c).mp h.hypothesis, (htimes c).symm.trans h.fresh,
    h.reports.mono (keeps_of_eq hr.symm), (hscore c).symm.trans h.score, ?_⟩
  intro c' hc hfresh
  obtain ⟨t, ht, hle⟩ := h.greatest c' ((hhypothesis c').mpr hc) ((htimes c').trans hfresh)
  exact ⟨t, (hscore c').symm.trans ht, hle⟩

theorem AnswersBest.of_frame {out : Option (Found ℝ) × Engine S ℝ}
    (h : e'.AnswersBest history' out) (hr : e'.registrations = e.registrations)
    (hs : e'.scans = e.scans) (hreturned : history'.returned = history.returned)
    (hasked : history'.asked = history.asked) : e.AnswersBest history out := by
  have hresumes {history'' : History S ℝ}
      (h : Resumes Frontier.TakesBest e' history' out.2 history'') :
      Resumes Frontier.TakesBest e history out.2 history'' :=
    ⟨h.run, h.registrations.trans hr, h.scans.trans hs, h.asked.trans hasked⟩
  obtain ⟨_ | found, e''⟩ := out
  · obtain ⟨hall, history'', h, hsame⟩ := h
    refine ⟨?_, history'', hresumes h, hsame.trans hreturned⟩
    intro c hc
    have honce := hall c (by simpa only [Hypothesis, Offers, hr, hs] using hc)
    rwa [History.timesReturned, hreturned] at honce
  · obtain ⟨c, hbest, history'', h, hsame⟩ := h
    exact ⟨c, hbest.of_frame hr hs hreturned, history'', hresumes h, by rw [hsame, hreturned]⟩

theorem Next.answersBest {out : Checked (Option (Found ℝ) × Engine S ℝ)}
    (h : Next Frontier.TakesBest e out) : ∀ {history : History S ℝ},
    Run Frontier.TakesBest e history → e.WellPosed history →
      Ensures out (e.AnswersBest history) := by
  induction h with
  | @drained e hempty =>
    intro history hrun hp
    refine ⟨?_, history, ⟨hrun, rfl, rfl, rfl⟩, rfl⟩
    intro c hc
    have honce := hrun.takes.partitioned.once c hc.1
    rw [hempty, (hrun.takes.bounded hp).not_dropped hrun hp hc] at honce
    simpa [Block.holding] using honce
  | report ht h0 hfound =>
    intro history hrun hp
    refine ⟨_, IsBest.of_report hrun hp ht h0 hfound, _,
      ⟨hrun.report ht h0 hfound, ?_, ?_, rfl⟩, rfl⟩
    all_goals
      obtain ⟨r, theta, -, -, -, rfl⟩ := report_cases hfound
      rfl
  | @reportFault e block rest f ht h0 hfault =>
    intro history hrun hp
    obtain ⟨v, -⟩ := (hrun.takes.bounded hp).blocks block
      (ht.takes.mem_iff.mpr List.mem_cons_self)
    have hr : ({ e with frontier := rest } : Engine S ℝ).registrations[block.registration]? =
        some v.r := v.registration_eq
    obtain ⟨out, hok⟩ := report_ok hr v.theta_eq
    rw [hok] at hfault
    cases hfault
  | @split e e' whole rest level out ht hl he _ ih =>
    intro history hrun hp
    obtain ⟨hregistrations, hs⟩ := expand_frame he
    have hp' : e'.WellPosed history :=
      hp.of_keeps (keeps_of_eq hregistrations.symm) fun _ hmem => hmem
    have hrun' := hrun.split ht hl trivial he
    refine (ih hrun' ⟨hp'.resolution_pos, hp'.scale_nonneg, hp'.admissible,
      hp'.distinguished⟩).mono ?_
    intro out hout
    exact hout.of_frame hregistrations hs rfl rfl
  | splitFault ht hl hfault =>
    intro history hrun hp
    exact (ensures_expand hrun (hrun.takes.bounded hp) hp ht.takes hl).of_error hfault

/-- Whatever was registered and answered before, the next answer is a hypothesis of greatest score
among those left, with its pose and its score. There is none only after every hypothesis was
returned once, and nothing but an overflow stops the search. -/
theorem Run.next_is_best (hrun : Run Frontier.TakesBest e history) (hp : e.WellPosed history) :
    Next Frontier.TakesBest e e.next ∧
      ∀ out, Next Frontier.TakesBest e out → Ensures out (e.AnswersBest history) :=
  ⟨hrun.next_best_first, fun _ h => h.answersBest hrun hp⟩

/-- The small request has candidates, and its first answer is a best one. -/
theorem Run.next_is_best_small : ∃ e : Engine ℝ ℝ,
    Run Frontier.TakesBest e ⟨[], [], []⟩ ∧ e.WellPosed ⟨[], [], []⟩ ∧ e.Offers ⟨0, 1, 0, 2⟩ ∧
      Ensures e.next (e.AnswersBest ⟨[], [], []⟩) := by
  obtain ⟨e, r, hrun, hregistrations, hrequest, hrotations, hmpp, hoffers, -⟩ :=
    Run.exists_small Frontier.TakesBest
  have hp := wellPosed_small hregistrations hrequest hrotations hmpp
  obtain ⟨hnext, hbest⟩ := Run.next_is_best hrun hp
  exact ⟨e, hrun, hp, hoffers, hbest e.next hnext⟩

end Engine

end ScanMatch
