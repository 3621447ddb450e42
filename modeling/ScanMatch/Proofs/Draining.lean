import ScanMatch.Proofs.Accounting

/-! # Searches that come to an end

If nothing that the registrations come to is a fault, then nothing stops a search, in whatever
order it goes, and it can be drained.
-/
namespace ScanMatch

theorem Frontier.toList_of_weight {R : Type} {f : Frontier R} (h : f.weight = 0) :
    f.toList = [] := by
  cases f with
  | empty => rfl
  | node rank top left right =>
    have hpos : 0 < top.weight := by
      unfold Block.weight
      cases top.level <;> simp [Block.weightAt]
    simp only [weight] at h
    omega

theorem Frontier.Takes.weight {R : Type} {f rest : Frontier R} {b : Block R}
    (h : f.Takes b rest) : f.weight = b.weight + rest.weight := by
  rw [weight_eq, weight_eq, Block.totalWeight_perm h, Block.totalWeight]

namespace Engine

variable {S R : Type} [Scalar R] [Precision S R] {e e' : Engine S R} {history : History S R}
  {take : Frontier R → Block R → Frontier R → Prop}

/-- Nothing that the registrations come to is a fault. -/
def Faultless (e : Engine S R) : Prop :=
  (∑ i ∈ Finset.range e.registrations.size, e.total i).faults = 0

theorem Faultless.of_eq (h : e.Faultless) (hr : e'.registrations = e.registrations)
    (hb : e'.blanks = e.blanks) : e'.Faultless := by
  unfold Faultless at h ⊢
  rwa [hr, (yield_congr hr hb).2]

theorem Faultless.total (h : e.Faultless) {i : ℕ} (hi : i < e.registrations.size) :
    (e.total i).faults = 0 := by
  unfold Faultless at h
  rw [Tally.sum_map Tally.faults rfl fun _ _ => rfl] at h
  exact Finset.sum_eq_zero_iff.mp h i (Finset.mem_range.mpr hi)

/-- Once nothing is left, what is done is everything. -/
theorem Accounted.of_drained (h : e.Accounted history) (hempty : e.frontier.toList = []) :
    e.stats.tally history.founds = ∑ i ∈ Finset.range e.registrations.size, e.total i := by
  unfold Accounted at h
  rwa [hempty, List.map_nil, List.sum_nil, add_zero] at h

/-- What is done was no fault, so a search has none exactly if nothing left is one. -/
theorem Accounted.faultless_iff (h : e.Accounted history) :
    e.Faultless ↔ ∀ b ∈ e.frontier.toList, (e.yield b).faults = 0 := by
  have hleft : (∑ i ∈ Finset.range e.registrations.size, e.total i).faults =
      (e.frontier.toList.map e.yield).sum.faults :=
    (congrArg Tally.faults h).symm.trans (Nat.zero_add _)
  rw [Faultless, hleft, Tally.faults_sum_eq_zero, List.forall_mem_map]

theorem expand_ok (hrun : Run take e history) (hd : e.Discerns history) {whole : Block R}
    {level : ℕ} (hl : whole.level = level + 1) (h : (e.yield whole).faults = 0)
    (rest : Frontier R) :
    ∃ e', ({ e with frontier := rest } : Engine S R).expand whole level = .ok e' := by
  unfold yield at h
  cases hsite : e.site? whole.registration with
  | none =>
    rw [hsite] at h
    cases h
  | some site =>
    obtain ⟨r, scan⟩ := site
    obtain ⟨hr, cache, hc, rfl⟩ := site?_cases hsite
    rw [hsite] at h
    simp only [hl] at h
    obtain ⟨judged, hverdicts⟩ := Registration.verdicts_of_faultless h
    rw [← Registration.judgeAll_map _ (hrun.trusts hd hr hc whole.rotation level)] at hverdicts
    rw [expand_eq (e := { e with frontier := rest }) hr hc level]
    cases hj : r.judgeAll whole level Block.quarters cache with
    | error f =>
      rw [hj] at hverdicts
      cases hverdicts
    | ok out => exact ⟨_, rfl⟩

theorem report_of_faultless {block : Block R} (hl : block.level = 0)
    (h : (e.yield block).faults = 0) (rest : Frontier R) :
    ∃ out, ({ e with frontier := rest } : Engine S R).report block = .ok out := by
  unfold yield at h
  cases hsite : e.site? block.registration with
  | none =>
    rw [hsite] at h
    cases h
  | some site =>
    obtain ⟨r, scan⟩ := site
    rw [hsite] at h
    simp only [hl] at h
    cases htheta : r.rotations[block.rotation]? with
    | none =>
      rw [Registration.yield, htheta] at h
      cases h
    | some theta => exact report_ok (e := { e with frontier := rest }) (site?_cases hsite).1 htheta

/-- Nothing stops the request for a next translation. -/
theorem Next.ok {out : Checked (Option (Found R) × Engine S R)} (h : Next Frontier.Takes e out) :
    ∀ {history : History S R}, Run Frontier.Takes e history → e.Discerns history → e.Faultless →
      ∃ found e', out = .ok (found, e') := by
  induction h with
  | drained => exact fun _ _ _ => ⟨_, _, rfl⟩
  | report => exact fun _ _ _ => ⟨_, _, rfl⟩
  | @reportFault e block rest f ht hl hfault =>
    intro history hrun hd hf
    have hmem := ht.mem_iff.mpr List.mem_cons_self
    have hyield := (hrun.accounted hd).faultless_iff.mp hf block hmem
    obtain ⟨out, hok⟩ := report_of_faultless hl hyield rest
    rw [hok] at hfault
    cases hfault
  | @split e e' whole rest level out ht hl he _ ih =>
    intro history hrun hd hf
    have hr := (expand_frame he).1
    have hk : e'.Keeps e := keeps_of_eq hr.symm
    exact ih (hrun.split ht hl trivial he) (hd.of_keeps hk fun _ hmem => hmem)
      (hf.of_eq hr (expand_blanks he))
  | @splitFault e whole rest level f ht hl hfault =>
    intro history hrun hd hf
    have hmem := ht.mem_iff.mpr List.mem_cons_self
    have hyield := (hrun.accounted hd).faultless_iff.mp hf whole hmem
    obtain ⟨e', hok⟩ := expand_ok hrun hd hl hyield rest
    rw [hok] at hfault
    cases hfault

theorem Next.blanks {found : Option (Found R)} (h : Next take e (.ok (found, e'))) :
    e'.blanks = e.blanks := by
  generalize hout : Except.ok (found, e') = out at h
  induction h with
  | drained =>
    cases hout
    rfl
  | report _ _ hr =>
    cases hout
    obtain ⟨r, theta, -, -, -, rfl⟩ := report_cases hr
    rfl
  | reportFault => cases hout
  | split _ _ he _ ih => exact (ih hout).trans (expand_blanks he)
  | splitFault => cases hout

/-- Every answer lowers the weight of the frontier. -/
theorem Next.weight_lt {found : Found R} (h : Next Frontier.Takes e (.ok (some found, e'))) :
    e'.frontier.weight < e.frontier.weight := by
  generalize hout : Except.ok (some found, e') = out at h
  induction h with
  | drained => cases hout
  | report ht hl hr =>
    cases hout
    obtain ⟨r, theta, -, -, -, rfl⟩ := report_cases hr
    have := ht.weight
    simp only [Block.weight, hl, Block.weightAt] at this
    simp only
    omega
  | reportFault => cases hout
  | split ht hl he _ ih =>
    have hwhole := ht.weight
    have hquarters := weight_expand _ _ _ _ he
    have := ih hout
    simp only [Block.weight, hl, Block.weightAt] at hwhole hquarters
    omega
  | splitFault => cases hout

theorem next_takes (e : Engine S R) : Next Frontier.Takes e e.next :=
  next_outcome (fun _ => True) (fun _ _ _ _ hpop => ⟨Frontier.toList_pop? hpop, trivial⟩)
    (fun _ _ _ => trivial) e trivial

theorem Resumes.trans {e'' : Engine S R} {history' history'' : History S R}
    (h : Resumes take e history e' history') (h' : Resumes take e' history' e'' history'') :
    Resumes take e history e'' history'' :=
  ⟨h'.run, h'.registrations.trans h.registrations, h'.scans.trans h.scans, h'.asked.trans h.asked⟩

/-- The second engine has nothing left of the search of the first, and has returned these. -/
structure Drains (e : Engine S R) (history : History S R) (e' : Engine S R)
    (founds : List (Found R)) : Prop where
  resumes : ∃ history', Resumes Frontier.Takes e history e' history' ∧ history'.founds = founds
  blanks : e'.blanks = e.blanks
  empty : e'.frontier.toList = []

/-- The weight of the frontier bounds how many answers are still to come. -/
theorem takeOnto_drains (n : ℕ) : ∀ {e : Engine S R} {history : History S R}
    {taken : Array (Found R)}, Run Frontier.Takes e history → e.Discerns history → e.Faultless →
      e.frontier.weight ≤ n → history.founds = taken.toList.reverse →
      ∃ founds e', takeOnto taken n e = .ok (founds, e') ∧
        Drains e history e' founds.toList.reverse := by
  induction n with
  | zero =>
    intro e history taken hrun _ _ hweight htaken
    have hempty := Frontier.toList_of_weight (Nat.le_zero.mp hweight)
    exact ⟨taken, e, rfl, ⟨history, ⟨hrun, rfl, rfl, rfl⟩, htaken⟩, rfl, hempty⟩
  | succ n ih =>
    intro e history taken hrun hd hf hweight htaken
    have hnext := next_takes e
    obtain ⟨found, e₁, hout⟩ := hnext.ok hrun hd hf
    rw [hout] at hnext
    obtain ⟨history₁, hresumes, hanswers⟩ := hrun.next hnext
    unfold takeOnto
    rw [hout]
    cases found with
    | none =>
      refine ⟨taken, e₁, rfl, ⟨history₁, hresumes, ?_⟩, hnext.blanks, hnext.drained_of_none rfl⟩
      rw [← htaken, History.founds, hanswers, History.founds]
    | some found =>
      obtain ⟨c, hanswer⟩ := hanswers
      have hk : e₁.Keeps e := keeps_of_eq hresumes.registrations.symm
      have htaken' : history₁.founds = (taken.push found).toList.reverse := by
        rw [History.founds, hanswer, List.map_cons, Array.toList_push, List.reverse_append,
          ← htaken]
        rfl
      obtain ⟨founds, e₂, htake, hdrains⟩ := ih hresumes.run
        (hd.of_keeps hk (by rw [hresumes.asked]; exact fun _ hmem => hmem))
        (hf.of_eq hresumes.registrations hnext.blanks)
        (Nat.le_of_lt_succ (hnext.weight_lt.trans_le hweight)) htaken'
      obtain ⟨history₂, hresumes₂, hfounds⟩ := hdrains.resumes
      exact ⟨founds, e₂, htake, ⟨history₂, hresumes.trans hresumes₂, hfounds⟩,
        hdrains.blanks.trans hnext.blanks, hdrains.empty⟩

/-- A search without faults can be drained. -/
theorem Run.drains (hrun : Run Frontier.Takes e history) (hd : e.Discerns history)
    (hf : e.Faultless) (hfresh : history.founds = []) : ∃ founds e',
      e.drain = .ok (founds, e') ∧ Drains e history e' founds.toList.reverse :=
  takeOnto_drains _ hrun hd hf le_rfl hfresh

end Engine

end ScanMatch
