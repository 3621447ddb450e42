import ScanMatch.Proofs.Yield

/-! # The accounts of a run

What was returned and counted so far, with what the blocks of the frontier still come to, is at all
times what the registrations come to in all.
-/
namespace ScanMatch

/-- What was returned, the last first. -/
def History.founds {S R : Type} (history : History S R) : List (Found R) :=
  history.returned.map Prod.snd

namespace Engine

variable {S R : Type}

/-- The scans, as if nothing had been asked. -/
def blanks (e : Engine S R) : Array (ScanCache S) := e.caches.map ScanCache.blank

theorem blanks_get {e : Engine S R} {i : ℕ} {cache : ScanCache S}
    (h : e.caches[i]? = some cache) : e.blanks[i]? = some cache.blank := by
  rw [blanks, Array.getElem?_map, h, Option.map_some]

theorem blanks_set {e : Engine S R} {i : ℕ} {cache cache' : ScanCache S}
    (h : e.caches[i]? = some cache) (hblank : cache'.blank = cache.blank) :
    (e.caches.set! i cache').map ScanCache.blank = e.blanks := map_set ScanCache.blank h hblank

theorem blanks_clearCache (e : Engine S R) (i : ℕ) : (e.clearCache i).blanks = e.blanks := by
  rcases e.clearCache_cases i with h | ⟨cache, hc, h⟩
  · rw [h]
  · rw [h]
    exact blanks_set hc rfl

/-- A registration, and its scan. -/
def site? (e : Engine S R) (i : ℕ) : Option (Registration S R × ScanCache S) := do
  let r ← e.registrations[i]?
  let scan ← e.blanks[r.cache]?
  return (r, scan)

theorem site?_eq {e : Engine S R} {i : ℕ} {r : Registration S R} {cache : ScanCache S}
    (hr : e.registrations[i]? = some r) (hc : e.caches[r.cache]? = some cache) :
    e.site? i = some (r, cache.blank) := by
  simp only [site?, hr, blanks_get hc, bind, Option.bind, pure]

theorem site?_cases {e : Engine S R} {i : ℕ} {r : Registration S R} {scan : ScanCache S}
    (h : e.site? i = some (r, scan)) : e.registrations[i]? = some r ∧
      ∃ cache, e.caches[r.cache]? = some cache ∧ scan = cache.blank := by
  obtain ⟨r', hr, h⟩ := Option.bind_eq_some_iff.mp h
  obtain ⟨scan', hscan, h⟩ := Option.bind_eq_some_iff.mp h
  cases h
  rw [blanks, Array.getElem?_map] at hscan
  obtain ⟨cache, hc, hblank⟩ := Option.map_eq_some_iff.mp hscan
  exact ⟨hr, cache, hc, hblank.symm⟩

variable [Scalar R] [Precision S R]

/-- No two different queries of one scan meet one key. -/
def Discerns (e : Engine S R) (history : History S R) : Prop :=
  ∀ i metersPerPixel metersPerPixel' theta theta',
    e.Queries history i metersPerPixel theta → e.Queries history i metersPerPixel' theta' →
      Distinguished metersPerPixel metersPerPixel' theta theta'

def yield (e : Engine S R) (b : Block R) : Tally R :=
  match e.site? b.registration with
  | none => .fault
  | some (r, scan) => r.yield scan b.level b

def total (e : Engine S R) (i : ℕ) : Tally R :=
  match e.site? i with
  | none => .fault
  | some (r, scan) => r.total scan i

/-- What is done and what is left are everything. -/
def Accounted (e : Engine S R) (history : History S R) : Prop :=
  e.stats.tally history.founds + (e.frontier.toList.map e.yield).sum =
    ∑ i ∈ Finset.range e.registrations.size, e.total i

variable {take : Frontier R → Block R → Frontier R → Prop} {e e' : Engine S R}
  {history history' : History S R}

theorem Discerns.of_keeps (h : e'.Discerns history') (hk : e.Keeps e')
    (hasked : history.asked ⊆ history'.asked) : e.Discerns history :=
  fun i _ _ _ _ hq hq' => h i _ _ _ _ (hq.mono hk hasked) (hq'.mono hk hasked)

/-- Every set at hand was made for a query of its scan. -/
theorem Run.madeFor (hrun : Run take e history) : ∀ (i : ℕ) (cache : ScanCache S),
    e.caches[i]? = some cache → cache.MadeFor (e.Queries history i) := by
  induction hrun with
  | start scans =>
    intro i cache hc
    refine ScanCache.madeFor_of_empty ?_ _
    simp only [ofCaches, List.getElem?_toArray, List.getElem?_map] at hc
    obtain ⟨scan, -, rfl⟩ := Option.map_eq_some_iff.mp hc
    rfl
  | @add e e' history i pyramid request _ _ _ ha ih =>
    obtain ⟨level, d, r, blocks, -, -, -, -, -, -, -, heq⟩ := add_cases ha
    have hk := (add_keeps ha).1
    subst heq
    intro j cache hc
    exact (ih j cache hc).mono fun _ _ hq => hq.mono hk fun _ hmem => hmem
  | @clear e history i _ ih =>
    rcases e.clearCache_cases i with heq | ⟨cache, hc, heq⟩
    · rw [heq]
      exact ih
    · rw [heq]
      exact madeFor_set ih (fun _ _ _ hq => hq.mono (keeps_of_eq rfl) fun _ hmem => hmem)
        (ScanCache.madeFor_of_empty rfl _)
  | @query e history i cache mpp theta level shared cache' _ hc hq ih =>
    have hmem : history.asked ⊆ (i, mpp, theta) :: history.asked :=
      fun _ hmem => List.mem_cons_of_mem _ hmem
    refine madeFor_set ih (fun _ _ _ hq => hq.mono (keeps_of_eq rfl) hmem) ?_
    refine ((ih i cache hc).mono ?_).get (Or.inr List.mem_cons_self) hq
    exact fun _ _ hq => hq.mono (keeps_of_eq rfl) hmem
  | @split e e' history whole rest level _ _ _ _ he ih =>
    obtain ⟨r, cache, judged, cache', hr, hc, hj, rfl⟩ := expand_cases he
    have hmade : cache'.MadeFor (e.Queries history r.cache) := by
      refine (Registration.judgeAll_cases (fun c => c.MadeFor (e.Queries history r.cache))
        (fun c c' x y verdict hP hjudged => ?_) (ih _ _ hc) hj).1
      rcases hjudged.cache_cases with rfl | ⟨theta, shared, htheta, hget⟩
      · exact hP
      · exact hP.get (Or.inl ⟨_, r, hr, rfl, rfl, Array.mem_of_getElem? htheta⟩) hget
    exact madeFor_set ih (fun _ _ _ hq => hq) hmade
  | report _ _ _ hr ih =>
    obtain ⟨r, theta, -, -, -, rfl⟩ := report_cases hr
    exact ih

theorem Run.trusts (hrun : Run take e history) (hd : e.Discerns history) {i : ℕ}
    {r : Registration S R} {cache : ScanCache S} (hr : e.registrations[i]? = some r)
    (hc : e.caches[r.cache]? = some cache) (rotation level : ℕ) :
    r.Trusts cache rotation level := by
  intro theta htheta
  refine (hrun.madeFor _ _ hc).faithful (fun mpp' theta' hq => ?_) level
  exact hd _ _ _ _ _ (Or.inl ⟨i, r, hr, rfl, rfl, Array.mem_of_getElem? htheta⟩) hq

theorem expand_blanks {whole : Block R} {rest : Frontier R} {level : ℕ}
    (h : ({ e with frontier := rest } : Engine S R).expand whole level = .ok e') :
    e'.blanks = e.blanks := by
  obtain ⟨r, cache, judged, cache', -, hc, hj, rfl⟩ := expand_cases h
  refine blanks_set (e := e) hc ?_
  exact (Registration.judgeAll_cases (fun c => c.blank = cache.blank)
    (fun _ _ _ _ _ hP hjudged => hjudged.blank.trans hP) rfl hj).1

/-- What is left of a search depends on registrations and scans only. -/
theorem yield_congr (hr : e'.registrations = e.registrations) (hb : e'.blanks = e.blanks) :
    e'.yield = e.yield ∧ e'.total = e.total := by
  have hsite : e'.site? = e.site? := by
    funext i
    rw [site?, site?, hr, hb]
  constructor
  · funext b
    rw [yield, yield, hsite]
  · funext i
    rw [total, total, hsite]

/-- What comes of a block that is split is what comes of its quarters. -/
theorem yield_split (hrun : Run take e history) (hd : e.Discerns history) {whole : Block R}
    {level : ℕ} (hl : whole.level = level + 1) {r : Registration S R} {cache cache' : ScanCache S}
    {judged : List (Block R × Verdict R)} (hr : e.registrations[whole.registration]? = some r)
    (hc : e.caches[r.cache]? = some cache)
    (hj : r.judgeAll whole level Block.quarters cache = .ok (judged, cache')) :
    e.yield whole = .expansion + (judged.map fun j => j.2.tally).sum +
      ((judged.filterMap r.kept?).map e.yield).sum := by
  have hverdicts := Registration.judgeAll_map Block.quarters
    (hrun.trusts hd hr hc whole.rotation level)
  rw [hj] at hverdicts
  have hmap := (Registration.judgeAll_cases (fun _ => True) (fun _ _ _ _ _ _ _ => trivial)
    trivial hj).2.1
  have hkept : ∀ b ∈ judged.filterMap r.kept?, e.yield b = r.yield cache.blank level b := by
    intro b hb
    obtain ⟨q, -, score, excess, -, rfl⟩ := Registration.kept_quarter hmap hb
    have hsite : e.site? whole.registration = some (r, cache.blank) := site?_eq hr hc
    simp only [yield, Block.quarter, hsite]
  rw [yield, site?_eq hr hc]
  simp only
  rw [hl, Registration.yield_succ hverdicts.symm, List.map_congr_left hkept]

/-- A block comes off the frontier. What it comes to is done, or is that of blocks put back. -/
theorem Accounted.move (h : e.Accounted history) {b : Block R} (bs : List (Block R))
    {rest : Frontier R} (ht : e.frontier.Takes b rest)
    (hf : e'.frontier.toList.Perm (bs ++ rest.toList))
    (hr : e'.registrations = e.registrations) (hblanks : e'.blanks = e.blanks)
    (hstep : e'.stats.tally history'.founds + (bs.map e.yield).sum =
      e.stats.tally history.founds + e.yield b) : e'.Accounted history' := by
  obtain ⟨hyield, htotal⟩ := yield_congr hr hblanks
  unfold Accounted at h ⊢
  rw [hr, htotal, hyield, ← h, (hf.map e.yield).sum_eq, (ht.map e.yield).sum_eq, List.map_append,
    List.sum_append, List.map_cons, List.sum_cons, ← add_assoc, hstep, add_assoc]

/-- Queries and clearings touch nothing that is counted. -/
theorem Accounted.of_eq (h : e.Accounted history) (hr : e'.registrations = e.registrations)
    (hblanks : e'.blanks = e.blanks) (hf : e'.frontier = e.frontier) (hs : e'.stats = e.stats)
    (asked : List (Nat × S × R)) : e'.Accounted { history with asked } := by
  obtain ⟨hyield, htotal⟩ := yield_congr hr hblanks
  unfold Accounted at h ⊢
  rw [hr, hf, hs, htotal, hyield, ← h]
  rfl

theorem Accounted.split (hrun : Run take e history) (hd : e.Discerns history)
    (h : e.Accounted history) {whole : Block R} {rest : Frontier R} {level : ℕ}
    (ht : e.frontier.Takes whole rest) (hl : whole.level = level + 1)
    (he : ({ e with frontier := rest } : Engine S R).expand whole level = .ok e')
    (dropped : List (Block R)) : e'.Accounted { history with dropped } := by
  have hblanks := expand_blanks he
  obtain ⟨r, cache, judged, cache', hr, hc, hj, rfl⟩ := expand_cases he
  refine h.move _ ht (Frontier.toList_insertAll rest _) rfl hblanks ?_
  -- the counters grow by the split and by the verdicts, and the quarters kept are put back
  rw [yield_split hrun hd hl hr hc hj, ← add_assoc, ← add_assoc]
  congr 1
  change SearchStats.tally (judged.foldl _ _) history.founds = _
  rw [SearchStats.tally_foldl]
  congr 1
  simp [SearchStats.tally, Tally.expansion, Tally.add_eq, Tally.zero_eq]

theorem Accounted.report (h : e.Accounted history) {block : Block R} {rest : Frontier R}
    {found : Found R} (ht : e.frontier.Takes block rest) (hl : block.level = 0)
    (hcache : ∀ r, e.registrations[block.registration]? = some r → r.cache < e.caches.size)
    (hfound : ({ e with frontier := rest } : Engine S R).report block = .ok (found, e')) :
    e'.Accounted { history with returned := (block.candidate, found) :: history.returned } := by
  obtain ⟨r, theta, hr, htheta, rfl, rfl⟩ := report_cases hfound
  have hsite := site?_eq (e := e) hr (Array.getElem?_eq_getElem (hcache r hr))
  refine h.move [] ht (List.Perm.refl _) rfl rfl ?_
  rw [yield, hsite]
  simp only
  rw [hl, Registration.yield_zero htheta, List.map_nil, List.sum_nil, add_zero]
  simp only [SearchStats.tally, History.founds, Tally.answer, Tally.add_eq, Tally.zero_eq, add_zero,
    List.map_cons, ← Multiset.cons_coe]
  rw [← Multiset.singleton_add, add_comm]

theorem Accounted.add (h : e.Accounted history) {i : ℕ} {pyramid : Pyramid S} {request : Request R}
    (hi : i < e.caches.size)
    (hold : ∀ b ∈ e.frontier.toList, b.registration < e.registrations.size)
    (ha : e.add i pyramid request = .ok e') : e'.Accounted history := by
  obtain ⟨level, d, r, blocks, -, -, -, hlevel, -, hr, hseeds, heq⟩ := add_cases ha
  obtain ⟨-, hcache, hpyramid, hrequest⟩ := Registration.formed_of_ofRequest hr
  have hbefore (j : ℕ) (hj : j < e.registrations.size) : e'.site? j = e.site? j := by
    rw [heq, site?, site?, Array.getElem?_push, if_neg hj.ne]
    rfl
  have hnew : e'.site? e.registrations.size = some (r, e.caches[i].blank) := by
    rw [heq, site?, Array.getElem?_push_size]
    simp only [bind, Option.bind, hcache]
    rw [blanks, Array.getElem?_map, Array.getElem?_eq_getElem hi]
    rfl
  have hblocks : ∀ b ∈ blocks, e'.yield b = r.yield e.caches[i].blank b.level b := by
    intro b hb
    rw [yield, Registration.registration_of_mem_seeds hseeds hb, hnew]
  have hothers : ∀ b ∈ e.frontier.toList, e'.yield b = e.yield b := by
    intro b hb
    rw [yield, yield, hbefore _ (hold b hb)]
  have htotals : ∀ j ∈ Finset.range e.registrations.size, e'.total j = e.total j := by
    intro j hj
    rw [total, total, hbefore j (Finset.mem_range.mp hj)]
  have htotal : e'.total e.registrations.size =
      (blocks.map fun b => r.yield e.caches[i].blank b.level b).sum := by
    rw [total, hnew]
    exact Registration.total_eq (by rw [hrequest, hpyramid, hlevel]) hseeds
  have hperm := (Frontier.toList_insertAll e.frontier blocks).map e'.yield
  have hsize : e'.registrations.size = e.registrations.size + 1 := by rw [heq, Array.size_push]
  have hfrontier : e'.frontier = e.frontier.insertAll blocks := by rw [heq]
  have hstats : e'.stats = e.stats := by rw [heq]
  unfold Accounted at h ⊢
  rw [hfrontier, hstats, hsize, hperm.sum_eq, List.map_append, List.sum_append,
    List.map_congr_left hblocks, List.map_congr_left hothers, Finset.sum_range_succ,
    Finset.sum_congr rfl htotals, htotal, ← h, add_comm (List.sum _), add_assoc]

/-- What is done and what is left are everything, at every step of a run. -/
theorem Run.accounted (hrun : Run Frontier.Takes e history) :
    e.Discerns history → e.Accounted history := by
  induction hrun with
  | start scans => exact fun _ => rfl
  | @add e e' history i pyramid request hrun hi hp ha ih =>
    intro hd
    refine (ih (hd.of_keeps (add_keeps ha).1 fun _ hmem => hmem)).add hi ?_ ha
    intro b hb
    obtain ⟨r, hfits, -⟩ := hrun.partitioned.blocks b hb
    exact (Array.getElem?_eq_some_iff.mp hfits.registration).1
  | @clear e history i _ ih =>
    intro hd
    have hk : e.Keeps (e.clearCache i) := keeps_of_eq rfl
    have h := ih (hd.of_keeps hk fun _ hmem => hmem)
    refine Accounted.of_eq h ?_ (blanks_clearCache e i) ?_ ?_ history.asked <;> rfl
  | @query e history i cache mpp theta level shared cache' _ hc hq ih =>
    intro hd
    have hk : e.Keeps { e with caches := e.caches.set! i cache' } := keeps_of_eq rfl
    have h := ih (hd.of_keeps hk fun _ hmem => List.mem_cons_of_mem _ hmem)
    have hblanks : ({ e with caches := e.caches.set! i cache' } : Engine S R).blanks = e.blanks :=
      blanks_set hc (ScanCache.blank_get hq)
    refine Accounted.of_eq h ?_ hblanks ?_ ?_ _ <;> rfl
  | @split e e' history whole rest level hrun ht hl _ he ih =>
    intro hd
    have hk : e.Keeps e' := keeps_of_eq (expand_frame he).1
    have hd : e.Discerns history := hd.of_keeps hk fun _ hmem => hmem
    exact (ih hd).split hrun hd ht hl he _
  | @report e e' history block rest found hrun ht hl hr ih =>
    intro hd
    have hk : e.Keeps e' := by
      obtain ⟨r, theta, -, -, -, rfl⟩ := report_cases hr
      exact keeps_of_eq rfl
    refine (ih (hd.of_keeps hk fun _ hmem => hmem)).report ht hl ?_ hr
    intro r hr
    rw [← scans_size]
    exact (hrun.admits hr).cache_lt

end Engine

end ScanMatch
