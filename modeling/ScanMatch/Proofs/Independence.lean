import ScanMatch.Proofs.Agreement
import ScanMatch.Proofs.Draining

/-! # Requests do not interfere

Requests that share an engine and its scans get what each of them gets alone, whatever the order in
which blocks come off the frontier and whatever is asked and cleared meanwhile. All that a drained
engine returned and counted is what its registrations come to, and that is the same in any engine.
-/
namespace ScanMatch

variable {S R : Type} [Scalar R] [Precision S R]

/-- The poses and scores that were returned for a registration. -/
def History.answers (history : History S R) (i : ℕ) : Multiset (Pose R × R) :=
  ((history.founds.filter (·.registration = i)).map fun f => (f.pose, f.score) :
    List (Pose R × R))

omit [Scalar R] [Precision S R] in
theorem History.answers_eq (history : History S R) (i : ℕ) (stats : SearchStats R) :
    Tally.answers i (stats.tally history.founds) = history.answers i := by
  rw [Tally.answers_apply, SearchStats.tally, Multiset.filter_coe, Multiset.map_coe, answers]

/-- Every engine admits the request that the registration is for. -/
def Registration.Accepted (r : Registration S R) : Prop :=
  ∀ e : Engine S R, ∃ blocks, e.add r.cache r.pyramid r.request = .ok { e with
    registrations := e.registrations.push r
    frontier := e.frontier.insertAll blocks }

namespace Engine

variable {e e' : Engine S R} {history history' : History S R} {i : ℕ} {r : Registration S R}
  {take : Frontier R → Block R → Frontier R → Prop}

omit [Precision S R] in
theorem accepted_of_add {pyramid : Pyramid S} {request : Request R}
    (h : e.add i pyramid request = .ok e') :
    ∃ r, e'.registrations = e.registrations.push r ∧ r.Accepted := by
  obtain ⟨level, d, r, blocks, hx, hy, hn, hlevel, hd, hr, hseeds, rfl⟩ := add_cases h
  obtain ⟨-, rfl, rfl, rfl⟩ := Registration.formed_of_ofRequest hr
  refine ⟨r, rfl, ?_⟩
  intro e₁
  cases hfirst : seeds 0 r level with
  | error f =>
    rw [Registration.seeds_under, hfirst] at hseeds
    cases hseeds
  | ok bs =>
    refine ⟨bs.map (Block.under e₁.registrations.size), ?_⟩
    unfold Engine.add
    rw [if_neg hx.not_gt, if_neg hy.not_gt, if_neg hn.not_gt, hlevel, hr]
    simp only [bind, Except.bind, Checked.orRefuse, hd,
      Registration.seeds_under e₁.registrations.size, hfirst]
    rfl

theorem Run.accepted (hrun : Run take e history) :
    ∀ {i : ℕ} {r : Registration S R}, e.registrations[i]? = some r → r.Accepted := by
  induction hrun with
  | start scans =>
    intro i r hr
    simp [ofCaches] at hr
  | add _ _ _ ha ih =>
    obtain ⟨r, hpush, haccepted⟩ := accepted_of_add ha
    intro i r' hr'
    rw [hpush, Array.getElem?_push] at hr'
    split at hr'
    · obtain rfl := Option.some.inj hr'
      exact haccepted
    · exact ih hr'
  | clear _ _ ih => exact ih
  | query _ _ _ ih => exact ih
  | split _ _ _ _ he ih =>
    rw [(expand_frame he).1]
    exact ih
  | report _ _ _ hr ih =>
    obtain ⟨r, theta, -, -, -, rfl⟩ := report_cases hr
    exact ih

theorem Run.blank (e : Engine S R) : Run take (ofCaches e.blanks : Engine S R) ⟨[], [], []⟩ := by
  have hscans : ((e.caches.toList.map fun c => (c.points, c.merge)).map
      fun s => ScanCache.ofPoints s.1 s.2).toArray = e.blanks := by
    apply Array.ext'
    rw [List.map_map, blanks, Array.toList_map]
    rfl
  rw [← hscans]
  exact RunIf.start _

omit [Precision S R] in
theorem blanks_blank (e : Engine S R) : (ofCaches e.blanks : Engine S R).blanks = e.blanks := by
  change (e.caches.map ScanCache.blank).map ScanCache.blank = _
  rw [Array.map_map]
  rfl

/-- A search for one request alone, on the same scans, of which nothing is left. -/
structure Alone (e : Engine S R) (r : Registration S R) (e' : Engine S R)
    (history' : History S R) : Prop where
  run : Run Frontier.Takes e' history'
  registrations : e'.registrations = #[r]
  blanks : e'.blanks = e.blanks
  asked : history'.asked = []
  drained : e'.frontier.toList = []

theorem Discerns.alone (hd : e.Discerns history) (hr : e.registrations[i]? = some r)
    (hregistrations : e'.registrations = #[r]) (hasked : history'.asked = []) :
    e'.Discerns history' := by
  have hquery {j : ℕ} {mpp : S} {theta : R} (h : e'.Queries history' j mpp theta) :
      e.Queries history j mpp theta := by
    rcases h with ⟨k, r', hr', h⟩ | h
    · rw [hregistrations] at hr'
      obtain ⟨hk, rfl⟩ := Array.getElem?_eq_some_iff.mp hr'
      obtain rfl : k = 0 := Nat.lt_one_iff.mp hk
      exact Or.inl ⟨i, r, hr, h⟩
    · rw [hasked] at h
      cases h
  intro j mpp mpp' theta theta' hq hq'
  exact hd j _ _ _ _ (hquery hq) (hquery hq')

/-- In an engine of its own a registration comes to the same, up to its index. -/
theorem total_alone (hr : e.registrations[i]? = some r) (hregistrations : e'.registrations = #[r])
    (hblanks : e'.blanks = e.blanks) : e.total i = (e'.total 0).under i := by
  have hsite : e'.site? 0 = e.site? i := by
    rw [site?, site?, hr, hregistrations, hblanks]
    rfl
  rw [total, total, hsite]
  cases e.site? i with
  | none => rfl
  | some site => exact Registration.total_under i site.2 site.1

theorem Alone.tally (h : e.Alone r e' history') (hd : e'.Discerns history') :
    e'.stats.tally history'.founds = e'.total 0 := by
  rw [(h.run.accounted hd).of_drained h.drained, h.registrations]
  exact Finset.sum_range_one _

theorem Alone.total (h : e.Alone r e' history') (hd : e.Discerns history)
    (hr : e.registrations[i]? = some r) :
    e.total i = (e'.stats.tally history'.founds).under i := by
  rw [h.tally (hd.alone hr h.registrations h.asked), total_alone hr h.registrations h.blanks]

theorem Alone.answers (h : e.Alone r e' history') (hd : e'.Discerns history') :
    history'.answers 0 =
      (e'.stats.tally history'.founds).found.map fun f => (f.pose, f.score) := by
  have hr : e'.registrations[0]? = some r := by
    rw [h.registrations]
    rfl
  have hself : e'.stats.tally history'.founds = (e'.stats.tally history'.founds).under 0 := by
    rw [h.tally hd]
    exact total_alone hr h.registrations rfl
  rw [← history'.answers_eq 0 e'.stats, hself, Tally.answers_under, if_pos rfl, ← hself]

/-- The request of a registration can be searched for alone until nothing is left. -/
theorem Run.exists_alone (hrun : Run Frontier.Takes e history) (hd : e.Discerns history)
    (hf : e.Faultless) (hr : e.registrations[i]? = some r) :
    ∃ start founds e' history',
      (ofCaches e.blanks : Engine S R).add r.cache r.pyramid r.request = .ok start ∧
      start.drain = .ok (founds, e') ∧ e.Alone r e' history' ∧
      history'.founds = founds.toList.reverse := by
  obtain ⟨blocks, hadd⟩ := hrun.accepted hr (ofCaches e.blanks)
  have hadmits := hrun.admits hr
  have hcache : r.cache < e.blanks.size := by
    rw [blanks, Array.size_map, ← scans_size]
    exact hadmits.cache_lt
  obtain ⟨start, hadd, hregistrations, hblanks⟩ : ∃ start : Engine S R,
      (ofCaches e.blanks : Engine S R).add r.cache r.pyramid r.request = .ok start ∧
      start.registrations = #[r] ∧ start.blanks = e.blanks := ⟨_, hadd, rfl, blanks_blank e⟩
  have hstart : Run Frontier.Takes start ⟨[], [], []⟩ :=
    (Run.blank e).add hcache hadmits.built hadd
  have hfaultless : start.Faultless := by
    have hsize : start.registrations.size = 1 := congrArg Array.size hregistrations
    unfold Faultless
    rw [hsize, Finset.sum_range_one]
    exact (congrArg Tally.faults (total_alone hr hregistrations hblanks)).symm.trans
      (hf.total (Array.getElem?_eq_some_iff.mp hr).1)
  obtain ⟨founds, e', hdrain, ⟨history', hresumes, hfounds⟩, hblanks', hempty⟩ :=
    hstart.drains (hd.alone hr hregistrations rfl) hfaultless rfl
  exact ⟨start, founds, e', history', hadd, hdrain, ⟨hresumes.run,
    hresumes.registrations.trans hregistrations, hblanks'.trans hblanks, hresumes.asked, hempty⟩,
    hfounds⟩

/-- Whatever else is added, asked, cleared and returned meanwhile, a request is answered as it is
alone, and the counters are the sums of those of the requests alone. -/
theorem Run.requests_independent (hrun : Run Frontier.Takes e history) (hd : e.Discerns history)
    (hempty : e.frontier.toList = []) :
    (∀ (i : ℕ) (r : Registration S R), e.registrations[i]? = some r → ∃ start founds e' history',
      (ofCaches e.blanks : Engine S R).add r.cache r.pyramid r.request = .ok start ∧
      start.drain = .ok (founds, e') ∧ e.Alone r e' history' ∧
      history'.founds = founds.toList.reverse) ∧
    ∀ alone : ℕ → Engine S R × History S R,
      (∀ (i : ℕ) (r : Registration S R), e.registrations[i]? = some r →
        e.Alone r (alone i).1 (alone i).2) →
      (∀ i < e.registrations.size, history.answers i = (alone i).2.answers 0) ∧
      e.stats.nodesExpanded =
        ∑ i ∈ Finset.range e.registrations.size, (alone i).1.stats.nodesExpanded ∧
      e.stats.childrenScored =
        ∑ i ∈ Finset.range e.registrations.size, (alone i).1.stats.childrenScored ∧
      e.stats.childrenPruned =
        ∑ i ∈ Finset.range e.registrations.size, (alone i).1.stats.childrenPruned ∧
      e.stats.resultsReturned =
        ∑ i ∈ Finset.range e.registrations.size, (alone i).1.stats.resultsReturned := by
  have hall := (hrun.accounted hd).of_drained hempty
  have hf : e.Faultless := (hrun.accounted hd).faultless_iff.mpr (by rw [hempty]; nofun)
  refine ⟨fun i r hr => hrun.exists_alone hd hf hr, ?_⟩
  intro alone halone
  have htally : ∀ i ∈ Finset.range e.registrations.size, e.total i =
      ((alone i).1.stats.tally (alone i).2.founds).under i := by
    intro i hi
    have hr := Array.getElem?_eq_getElem (Finset.mem_range.mp hi)
    exact (halone i _ hr).total hd hr
  rw [Finset.sum_congr rfl htally] at hall
  have hsum {M : Type} [AddCommMonoid M] (f : Tally R → M) (h0 : f 0 = 0)
      (hadd : ∀ a b, f (a + b) = f a + f b) : f (e.stats.tally history.founds) =
      ∑ i ∈ Finset.range e.registrations.size,
        f (((alone i).1.stats.tally (alone i).2.founds).under i) :=
    (congrArg f hall).trans (Tally.sum_map f h0 hadd _ _)
  refine ⟨?_, hsum Tally.expanded rfl fun _ _ => rfl, hsum Tally.scored rfl fun _ _ => rfl,
    hsum Tally.pruned rfl fun _ _ => rfl, hsum Tally.returned rfl fun _ _ => rfl⟩
  intro i hi
  have hr := Array.getElem?_eq_getElem hi
  have h := halone i _ hr
  -- of the sum, only the answers of this registration carry its index
  rw [h.answers (hd.alone hr h.registrations h.asked), ← history.answers_eq i e.stats, hall,
    map_sum]
  simp only [Tally.answers_under, Finset.sum_ite_eq', Finset.mem_range, hi, if_true]

theorem yield_pinned {e : Engine ℝ ℝ} {history : History ℝ ℝ} (hrun : Run Frontier.Takes e history)
    (hd : e.Discerns history) {r : Registration ℝ ℝ} {scale : ℝ} {prior : Option (Prior ℝ)}
    (h : r.Pinned scale prior) (hr : e.registrations[i]? = some r)
    (hc : e.caches[r.cache]? = some (ScanCache.ofPoints pinnedScan true)) :
    (e.yield ⟨i, 1, 0, 0, 0, .unbounded⟩).faults = 0 ∧
      (e.yield ⟨i, 1, 0, 0, 0, .unbounded⟩).returned = 1 := by
  have htheta : r.rotations[0]? = some 1 := by
    rw [h.rotations]
    rfl
  obtain ⟨score, cache', hjudged⟩ := h.judgeAll i
  have hsingle : e.yield ⟨i, 0, 0, 0, 0, r.boundOf score⟩ =
      .answer ⟨i, r.reportedPose 1 0 0, (r.boundOf score).value⟩ := by
    rw [yield, site?_eq hr hc]
    exact Registration.yield_zero htheta
  rw [yield_split hrun hd rfl hr hc hjudged]
  simp [List.filterMap_cons, Registration.kept?, Verdict.tally, hsingle, Tally.add_eq,
    Tally.zero_eq, Tally.expansion, Tally.answer]

/-- Pinned requests ask their scan for one resolution and one rotation. -/
theorem Discerns.of_pinned {e : Engine ℝ ℝ} {history : History ℝ ℝ}
    (h : ∀ (j : ℕ) (r : Registration ℝ ℝ), e.registrations[j]? = some r →
      ∃ scale prior, r.Pinned scale prior) (hasked : history.asked = []) : e.Discerns history := by
  have hquery {j : ℕ} {mpp theta : ℝ} (hq : e.Queries history j mpp theta) :
      mpp = 1 ∧ theta = 1 := by
    rcases hq with ⟨k, r, hr, -, hmpp, htheta⟩ | hq
    · obtain ⟨_, _, hpinned⟩ := h k r hr
      rw [hpinned.rotations] at htheta
      exact ⟨hmpp.symm.trans hpinned.metersPerPixel, by simpa using htheta⟩
    · rw [hasked] at hq
      cases hq
  intro j mpp mpp' theta theta' hq hq' _ _
  obtain ⟨rfl, rfl⟩ := hquery hq
  obtain ⟨rfl, rfl⟩ := hquery hq'
  exact ⟨rfl, rfl⟩

/-- Two requests for the same translation of the same scan. -/
theorem Run.exists_pinned_pair (scale scale' : ℝ) (prior prior' : Option (Prior ℝ)) :
    ∃ (e : Engine ℝ ℝ) (r r' : Registration ℝ ℝ), Run Frontier.Takes e ⟨[], [], []⟩ ∧
      e.registrations = #[r, r'] ∧ r.Pinned scale prior ∧ r'.Pinned scale' prior' ∧
      e.caches[r.cache]? = some (ScanCache.ofPoints pinnedScan true) ∧
      e.caches[r'.cache]? = some (ScanCache.ofPoints pinnedScan true) ∧ e.stats = .zero ∧
      e.frontier.toList.Perm [⟨1, 1, 0, 0, 0, .unbounded⟩, ⟨0, 1, 0, 0, 0, .unbounded⟩] := by
  obtain ⟨p, hbuilt, hn, hmpp, hg⟩ := Pyramid.exists_pinned
  let blank : ScanCache ℝ := ScanCache.ofPoints pinnedScan true
  have hstart : Run Frontier.Takes (ofCaches #[blank] : Engine ℝ ℝ) ⟨[], [], []⟩ :=
    RunIf.start [(pinnedScan, true)]
  obtain ⟨r, hpinned, hcache, hadd⟩ := add_pinned (ofCaches #[blank]) hn hmpp hg scale prior
  obtain ⟨e₁, hadd, hr₁, hc₁, hstats₁, hf₁⟩ : ∃ e₁ : Engine ℝ ℝ,
      (ofCaches #[blank]).add 0 p (Request.pinned scale prior) = .ok e₁ ∧
      e₁.registrations = #[r] ∧ e₁.caches = #[blank] ∧ e₁.stats = .zero ∧
      e₁.frontier.toList.Perm [⟨0, 1, 0, 0, 0, .unbounded⟩] :=
    ⟨_, hadd, rfl, rfl, rfl, Frontier.toList_insertAll _ _⟩
  have hrun₁ := hstart.add Nat.zero_lt_one hbuilt hadd
  obtain ⟨r', hpinned', hcache', hadd'⟩ := add_pinned e₁ hn hmpp hg scale' prior'
  refine ⟨_, r, r', hrun₁.add (by rw [hc₁]; exact Nat.zero_lt_one) hbuilt hadd', by simp [hr₁],
    hpinned, hpinned', by simp [hc₁, hcache, blank], by simp [hc₁, hcache', blank], hstats₁, ?_⟩
  refine (Frontier.toList_insertAll _ _).trans ?_
  rw [hr₁]
  exact hf₁.append_left _

/-- The two requests come to one answer each. -/
theorem Run.exists_pinned (scale scale' : ℝ) (prior prior' : Option (Prior ℝ)) :
    ∃ e : Engine ℝ ℝ, Run Frontier.Takes e ⟨[], [], []⟩ ∧ e.registrations.size = 2 ∧
      e.Discerns ⟨[], [], []⟩ ∧ e.Faultless ∧
      (∑ i ∈ Finset.range e.registrations.size, e.total i).returned = 2 := by
  obtain ⟨e, r, r', hrun, hregistrations, hpinned, hpinned', hc, hc', hstats, hf⟩ :=
    Run.exists_pinned_pair scale scale' prior prior'
  have hr : e.registrations[0]? = some r := by
    rw [hregistrations]
    rfl
  have hr' : e.registrations[1]? = some r' := by
    rw [hregistrations]
    rfl
  have hsize : e.registrations.size = 2 := congrArg Array.size hregistrations
  have hd : e.Discerns ⟨[], [], []⟩ := by
    refine Discerns.of_pinned ?_ rfl
    intro j r'' hr''
    obtain ⟨hj, -⟩ := Array.getElem?_eq_some_iff.mp hr''
    obtain rfl | rfl : j = 0 ∨ j = 1 := by omega
    · obtain rfl := Option.some.inj (hr.symm.trans hr'')
      exact ⟨_, _, hpinned⟩
    · obtain rfl := Option.some.inj (hr'.symm.trans hr'')
      exact ⟨_, _, hpinned'⟩
  obtain ⟨hfaults, hreturned⟩ := yield_pinned hrun hd hpinned hr hc
  obtain ⟨hfaults', hreturned'⟩ := yield_pinned hrun hd hpinned' hr' hc'
  have htotal : ∑ i ∈ Finset.range e.registrations.size, e.total i =
      e.yield ⟨1, 1, 0, 0, 0, .unbounded⟩ + e.yield ⟨0, 1, 0, 0, 0, .unbounded⟩ := by
    rw [← hrun.accounted hd, hstats, (hf.map e.yield).sum_eq, List.map_cons, List.map_singleton,
      List.sum_cons, List.sum_singleton]
    exact zero_add _
  refine ⟨e, hrun, hsize, hd, ?_, ?_⟩
  · rw [Faultless, htotal, Tally.add_eq, hfaults, hfaults']
  · rw [htotal, Tally.add_eq, hreturned, hreturned']

/-- Two requests on one scan are answered once each, as each of them is alone. -/
theorem Run.requests_independent_pinned :
    ∃ (e : Engine ℝ ℝ) (history : History ℝ ℝ) (alone : ℕ → Engine ℝ ℝ × History ℝ ℝ),
      Run Frontier.Takes e history ∧ e.Discerns history ∧ e.frontier.toList = [] ∧
      e.registrations.size = 2 ∧
      (∀ (i : ℕ) (r : Registration ℝ ℝ), e.registrations[i]? = some r →
        e.Alone r (alone i).1 (alone i).2) ∧
      (∀ i < 2, history.answers i = (alone i).2.answers 0) ∧
      e.stats.resultsReturned = 2 ∧ (alone 0).1.stats.resultsReturned +
        (alone 1).1.stats.resultsReturned = 2 := by
  obtain ⟨start, hstart, htwo, hd, hf, hreturned⟩ :=
    Run.exists_pinned 1 2 none (some Registration.slantedPrior)
  obtain ⟨founds, e, -, ⟨history, hresumes, -⟩, hblanks, hempty⟩ := hstart.drains hd hf rfl
  have hsize : e.registrations.size = 2 := by rw [hresumes.registrations, htwo]
  have hd : e.Discerns history := hd.of_keeps (keeps_of_eq hresumes.registrations.symm)
    (by rw [hresumes.asked]; exact fun _ hmem => hmem)
  obtain ⟨hexists, hindependent⟩ := Run.requests_independent hresumes.run hd hempty
  choose start' founds' e' history' _ _ halone _ using hexists
  let alone : ℕ → Engine ℝ ℝ × History ℝ ℝ := fun i =>
    if hi : i < e.registrations.size then
      (e' i _ (Array.getElem?_eq_getElem hi), history' i _ (Array.getElem?_eq_getElem hi))
    else (e, history)
  have halone : ∀ (i : ℕ) (r : Registration ℝ ℝ), e.registrations[i]? = some r →
      e.Alone r (alone i).1 (alone i).2 := by
    intro i r hr
    obtain ⟨hi, rfl⟩ := Array.getElem?_eq_some_iff.mp hr
    simp only [alone, dif_pos hi]
    exact halone i _ hr
  obtain ⟨hanswers, -, -, -, hcount⟩ := hindependent alone halone
  have hreturned : e.stats.resultsReturned = 2 := by
    have htotals := (hresumes.run.accounted hd).of_drained hempty
    rw [hresumes.registrations, (yield_congr hresumes.registrations hblanks).2] at htotals
    exact (congrArg Tally.returned htotals).trans hreturned
  rw [hsize] at hanswers hcount
  refine ⟨e, history, alone, hresumes.run, hd, hempty, hsize, halone, hanswers, hreturned, ?_⟩
  rw [← hreturned, hcount, Finset.sum_range_succ, Finset.sum_range_one]

end Engine

end ScanMatch
