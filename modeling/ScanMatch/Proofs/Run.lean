import ScanMatch.Proofs.Charge
import ScanMatch.Proofs.Steps

/-! # Runs of an engine

A run registers requests, clears and queries scans, splits coarse blocks and reports single
translations, in any order. How blocks come off the frontier is left open, so that a statement
about all runs covers every order of equal bounds, or every order at all.
-/
namespace ScanMatch

/-- A translation by whole pixels at one rotation of one registration. -/
structure Candidate where
  registration : Nat
  rotation : Nat
  x : Int
  y : Int
  deriving DecidableEq, Repr

/-- The candidate is one of the translations of the block. -/
def Block.Holds {R : Type} (b : Block R) (c : Candidate) : Prop :=
  b.registration = c.registration ∧ b.rotation = c.rotation ∧
    (b.x * 2 ^ b.level ≤ c.x ∧ c.x < (b.x + 1) * 2 ^ b.level) ∧
    (b.y * 2 ^ b.level ≤ c.y ∧ c.y < (b.y + 1) * 2 ^ b.level)

instance {R : Type} (b : Block R) (c : Candidate) : Decidable (b.Holds c) :=
  inferInstanceAs (Decidable (_ ∧ _))

/-- The single translation of a block of level 0. -/
def Block.candidate {R : Type} (b : Block R) : Candidate := ⟨b.registration, b.rotation, b.x, b.y⟩

/-- What a run did, besides its engine. -/
structure History (S R : Type) where
  /-- What was returned, the last first. -/
  returned : List (Candidate × Found R)
  /-- The quarters dropped for their scores. -/
  dropped : List (Block R)
  /-- The queries of scans that no registration made: scan, resolution and rotation. -/
  asked : List (Nat × S × R)

/-- The later history has one more answer, if there was one, and no other. -/
def History.Answers {S R : Type} (history history' : History S R) : Option (Found R) → Prop
  | none => history'.returned = history.returned
  | some found => ∃ c, history'.returned = (c, found) :: history.returned

/-- One block comes off a frontier, which one does not matter. -/
def Frontier.Takes {R : Type} (f : Frontier R) (b : Block R) (rest : Frontier R) : Prop :=
  f.toList.Perm (b :: rest.toList)

namespace Engine

section

variable {S R : Type}

/-- The scans, without what was made of them. -/
def scans (e : Engine S R) : Array (Array (Point S)) := e.caches.map ScanCache.points

/-- Every registration of the first engine is one of the second, of the same index. -/
def Keeps (e e' : Engine S R) : Prop :=
  ∀ (i : Nat) (r : Registration S R), e.registrations[i]? = some r → e'.registrations[i]? = some r

theorem keeps_of_eq {e e' : Engine S R} (h : e'.registrations = e.registrations) : e.Keeps e' := by
  intro i r hr
  rwa [h]

theorem scans_size (e : Engine S R) : e.scans.size = e.caches.size := Array.size_map

theorem scans_get {e : Engine S R} {i : Nat} {cache : ScanCache S} (h : e.caches[i]? = some cache) :
    e.scans[i]? = some cache.points := by
  rw [scans, Array.getElem?_map, h, Option.map_some]

/-- What a cache in place of another keeps of it, all caches keep. -/
theorem map_set {α : Type} (f : ScanCache S → α) {e : Engine S R} {i : Nat}
    {cache cache' : ScanCache S} (h : e.caches[i]? = some cache) (hf : f cache' = f cache) :
    (e.caches.set! i cache').map f = e.caches.map f := by
  apply Array.ext_getElem?
  intro j
  rw [Array.set!_eq_setIfInBounds, Array.map_setIfInBounds, Array.getElem?_setIfInBounds]
  by_cases hij : i = j
  · subst hij
    have hi : i < (e.caches.map f).size := by
      rw [Array.size_map]
      exact (Array.getElem?_eq_some_iff.mp h).1
    rw [if_pos rfl, if_pos hi, hf, Array.getElem?_map, h, Option.map_some]
  · rw [if_neg hij]

theorem scans_set {e : Engine S R} {i : Nat} {cache cache' : ScanCache S}
    (h : e.caches[i]? = some cache) (hpoints : cache'.points = cache.points) :
    (e.caches.set! i cache').map ScanCache.points = e.scans := map_set ScanCache.points h hpoints

/-- Clearing a scan that is there is to put the cleared one in its place. -/
theorem clearCache_cases (e : Engine S R) (i : Nat) :
    e.clearCache i = e ∨ ∃ cache, e.caches[i]? = some cache ∧
      e.clearCache i = { e with caches := e.caches.set! i cache.clear } := by
  cases hc : e.caches[i]? with
  | none =>
    left
    have hcaches : e.caches.modify i ScanCache.clear = e.caches := by
      apply Array.ext_getElem?
      intro j
      rw [Array.getElem?_modify]
      split
      · next hij => rw [← hij, hc, Option.map_none]
      · rfl
    rw [clearCache, hcaches]
  | some cache =>
    right
    have hi := (Array.getElem?_eq_some_iff.mp hc).1
    have hcaches : e.caches.modify i ScanCache.clear = e.caches.set! i cache.clear := by
      apply Array.ext_getElem?
      intro j
      rw [Array.getElem?_modify, Array.set!_eq_setIfInBounds, Array.getElem?_setIfInBounds]
      split
      · next hij => rw [← hij, hc, Option.map_some]
      · rfl
    exact ⟨cache, rfl, by rw [clearCache, hcaches]⟩

theorem scans_clearCache (e : Engine S R) (i : Nat) : (e.clearCache i).scans = e.scans := by
  rcases e.clearCache_cases i with h | ⟨cache, hc, h⟩
  · rw [h]
  · rw [h]
    exact scans_set hc rfl

end

variable {S R : Type} [Scalar R] [Precision S R]

omit [Precision S R] in
/-- A registration gets an index that none had before. -/
theorem add_keeps {e e' : Engine S R} {i : Nat} {pyramid : Pyramid S} {request : Request R}
    (h : e.add i pyramid request = .ok e') :
    e.Keeps e' ∧ ∀ j r, e.registrations[j]? = some r → j ≠ e.registrations.size := by
  obtain ⟨level, d, r, blocks, -, -, -, -, -, -, -, rfl⟩ := add_cases h
  have hne (j : Nat) (r : Registration S R) (hr : e.registrations[j]? = some r) :
      j ≠ e.registrations.size := Nat.ne_of_lt (Array.getElem?_eq_some_iff.mp hr).1
  refine ⟨?_, hne⟩
  intro j r' hr'
  rw [Array.getElem?_push, if_neg (hne j r' hr')]
  exact hr'

theorem expand_frame {e e' : Engine S R} {whole : Block R} {level : Nat}
    (h : e.expand whole level = .ok e') :
    e'.registrations = e.registrations ∧ e'.scans = e.scans := by
  obtain ⟨r, cache, judged, cache', -, hc, hj, rfl⟩ := expand_cases h
  refine ⟨rfl, scans_set hc ?_⟩
  exact (Registration.judgeAll_cases (fun c => c.points = cache.points)
    (fun _ _ _ _ _ hP hjudged => hjudged.points.trans hP) rfl hj).1

/-- The quarters of a block that are dropped for their scores when it is split. -/
def droppedQuarters (e : Engine S R) (whole : Block R) (level : Nat) : List (Block R) :=
  match e.registrations[whole.registration]? with
  | none => []
  | some r =>
    match e.caches[r.cache]? with
    | none => []
    | some cache =>
      match r.judgeAll whole level Block.quarters cache with
      | .error _ => []
      | .ok (judged, _) => judged.filterMap Verdict.dropped?

theorem droppedQuarters_eq {e : Engine S R} {whole : Block R} {level : Nat}
    {r : Registration S R} {cache cache' : ScanCache S} {judged : List (Block R × Verdict R)}
    (hr : e.registrations[whole.registration]? = some r) (hc : e.caches[r.cache]? = some cache)
    (hj : r.judgeAll whole level Block.quarters cache = .ok (judged, cache')) :
    e.droppedQuarters whole level = judged.filterMap Verdict.dropped? := by
  simp only [droppedQuarters, hr, hc, hj]

/-- The engines within reach, each with what was done on the way, by splits that meet a condition
on the engine and on the block. -/
inductive RunIf (allow : Engine S R → Block R → Prop)
    (take : Frontier R → Block R → Frontier R → Prop) : Engine S R → History S R → Prop where
  | start (scans : List (Array (Point S) × Bool)) :
      RunIf allow take (ofCaches (scans.map fun s => ScanCache.ofPoints s.1 s.2).toArray)
        ⟨[], [], []⟩
  | add {e e' history i pyramid request} : RunIf allow take e history → i < e.caches.size →
      pyramid.Built → e.add i pyramid request = .ok e' → RunIf allow take e' history
  | clear {e history} (i : Nat) : RunIf allow take e history →
      RunIf allow take (e.clearCache i) history
  | query {e history i cache metersPerPixel theta level shared cache'} :
      RunIf allow take e history → e.caches[i]? = some cache →
      cache.get metersPerPixel theta level = .ok (shared, cache') →
      RunIf allow take { e with caches := e.caches.set! i cache' }
        { history with asked := (i, metersPerPixel, theta) :: history.asked }
  | split {e e' history whole rest level} : RunIf allow take e history →
      take e.frontier whole rest → whole.level = level + 1 → allow e whole →
      { e with frontier := rest }.expand whole level = .ok e' →
      RunIf allow take e' { history with
        dropped := { e with frontier := rest }.droppedQuarters whole level ++ history.dropped }
  | report {e e' history block rest found} : RunIf allow take e history →
      take e.frontier block rest → block.level = 0 →
      { e with frontier := rest }.report block = .ok (found, e') →
      RunIf allow take e' { history with returned := (block.candidate, found) :: history.returned }

/-- The engines within reach of any splits. -/
abbrev Run (take : Frontier R → Block R → Frontier R → Prop) :
    Engine S R → History S R → Prop := RunIf (fun _ _ => True) take

/-- How a request for the next translation can end. -/
inductive Next (take : Frontier R → Block R → Frontier R → Prop) :
    Engine S R → Checked (Option (Found R) × Engine S R) → Prop where
  | drained {e} : e.frontier.toList = [] → Next take e (.ok (none, e))
  | report {e e' block rest found} : take e.frontier block rest → block.level = 0 →
      { e with frontier := rest }.report block = .ok (found, e') →
      Next take e (.ok (some found, e'))
  | reportFault {e block rest f} : take e.frontier block rest → block.level = 0 →
      { e with frontier := rest }.report block = .error f → Next take e (.error f)
  | split {e e' whole rest level out} : take e.frontier whole rest → whole.level = level + 1 →
      { e with frontier := rest }.expand whole level = .ok e' → Next take e' out →
      Next take e out
  | splitFault {e whole rest level f} : take e.frontier whole rest → whole.level = level + 1 →
      { e with frontier := rest }.expand whole level = .error f → Next take e (.error f)

variable {take take' : Frontier R → Block R → Frontier R → Prop} {e e' : Engine S R}
  {history : History S R}

theorem RunIf.mono {allow allow' : Engine S R → Block R → Prop}
    (hallow : ∀ e b, allow e b → allow' e b) (htake : ∀ f b rest, take f b rest → take' f b rest)
    (hrun : RunIf allow take e history) : RunIf allow' take' e history := by
  induction hrun with
  | start scans => exact start scans
  | add _ hi hp ha ih => exact ih.add hi hp ha
  | clear i _ ih => exact ih.clear i
  | query _ hc hq ih => exact ih.query hc hq
  | split _ ht hl hw he ih => exact ih.split (htake _ _ _ ht) hl (hallow _ _ hw) he
  | report _ ht hl hr ih => exact ih.report (htake _ _ _ ht) hl hr

theorem RunIf.run {allow : Engine S R → Block R → Prop} (h : RunIf allow take e history) :
    Run take e history := h.mono (fun _ _ _ => trivial) fun _ _ _ ht => ht

/-- What is known of a registration in an engine of so many scans. -/
structure Admits (scans : Nat) (r : Registration S R) : Prop where
  cache_lt : r.cache < scans
  built : r.pyramid.Built
  formed : r.Formed
  window_x : r.request.tx0 ≤ r.request.tx1
  window_y : r.request.ty0 ≤ r.request.ty1

theorem RunIf.admits {allow : Engine S R → Block R → Prop} (hrun : RunIf allow take e history) :
    ∀ {i : Nat} {r : Registration S R}, e.registrations[i]? = some r → Admits e.scans.size r := by
  induction hrun with
  | start scans =>
    intro i r hr
    simp [ofCaches] at hr
  | add _ hi hp ha ih =>
    obtain ⟨level, d, r', blocks, hx, hy, -, -, -, hr', -, rfl⟩ := add_cases ha
    obtain ⟨hformed, hcache, hpyramid, hrequest⟩ := Registration.formed_of_ofRequest hr'
    intro j r hr
    rw [Array.getElem?_push] at hr
    split at hr
    · obtain rfl := Option.some.inj hr
      refine ⟨?_, by rwa [hpyramid], hformed, by rwa [hrequest], by rwa [hrequest]⟩
      rwa [hcache, scans_size]
    · exact ih hr
  | clear i _ ih =>
    rw [scans_clearCache]
    exact ih
  | query _ hc hq ih =>
    intro j r hr
    rw [scans, scans_set hc (ScanCache.get_points hq).1]
    exact ih hr
  | split _ _ _ _ he ih =>
    obtain ⟨hregistrations, hscans⟩ := expand_frame he
    rw [hregistrations, hscans]
    exact ih
  | report _ _ _ hr ih =>
    obtain ⟨r, theta, -, -, -, rfl⟩ := report_cases hr
    exact ih

/-- The second engine is within reach, and searches the same scans for the same registrations. -/
structure Resumes (take : Frontier R → Block R → Frontier R → Prop) (e : Engine S R)
    (history : History S R) (e' : Engine S R) (history' : History S R) : Prop where
  run : Run take e' history'
  registrations : e'.registrations = e.registrations
  scans : e'.scans = e.scans
  asked : history'.asked = history.asked

/-- A run goes on through a request for the next translation, which adds the answer to what was
returned. -/
theorem Run.next {found : Option (Found R)} (hrun : Run take e history)
    (h : Next take e (.ok (found, e'))) :
    ∃ history', Resumes take e history e' history' ∧ history.Answers history' found := by
  generalize hout : Except.ok (found, e') = out at h
  induction h generalizing history with
  | drained =>
    cases hout
    exact ⟨history, ⟨hrun, rfl, rfl, rfl⟩, rfl⟩
  | report ht hl hr =>
    cases hout
    refine ⟨_, ⟨hrun.report ht hl hr, ?_, ?_, rfl⟩, _, rfl⟩
    all_goals
      obtain ⟨r, theta, -, -, -, rfl⟩ := report_cases hr
      rfl
  | reportFault => cases hout
  | split ht hl he _ ih =>
    obtain ⟨hregistrations, hscans⟩ := expand_frame he
    obtain ⟨history', hresumes, hanswers⟩ := ih (hrun.split ht hl trivial he) hout
    exact ⟨history', ⟨hresumes.run, hresumes.registrations.trans hregistrations,
      hresumes.scans.trans hscans, hresumes.asked⟩, hanswers⟩
  | splitFault => cases hout

theorem Next.drained_of_none {out : Checked (Option (Found R) × Engine S R)} (h : Next take e out)
    (hout : out = .ok (none, e')) : e'.frontier.toList = [] := by
  induction h with
  | drained hempty =>
    cases hout
    exact hempty
  | report => cases hout
  | reportFault => cases hout
  | split _ _ _ _ ih => exact ih hout
  | splitFault => cases hout

/-- What `next` does is one way for the request to end, if its pops are among those allowed. -/
theorem next_outcome (P : Frontier R → Prop)
    (hpop : ∀ f b rest, P f → f.pop? = some (b, rest) → take f b rest ∧ P rest)
    (hinsert : ∀ f bs, P f → P (f.insertAll bs)) :
    ∀ e : Engine S R, P e.frontier → Next take e e.next := by
  intro e
  fun_induction next e with
  | case1 e hnone =>
    intro _
    refine Next.drained ?_
    cases hf : e.frontier with
    | empty => rfl
    | node => simp [hf, Frontier.pop?] at hnone
  | case2 e block rest hsome hlevel =>
    intro hP
    have ht := (hpop _ _ _ hP hsome).1
    cases hr : { e with frontier := rest }.report block with
    | ok out => exact Next.report ht hlevel hr
    | error f => exact Next.reportFault ht hlevel hr
  | case3 e block rest hsome level hlevel f hexpand =>
    intro hP
    exact Next.splitFault (hpop _ _ _ hP hsome).1 hlevel hexpand
  | case4 e block rest hsome level hlevel e' hexpand ih =>
    intro hP
    obtain ⟨ht, hrest⟩ := hpop _ _ _ hP hsome
    refine Next.split ht hlevel hexpand (ih ?_)
    obtain ⟨r, cache, judged, cache', -, -, -, rfl⟩ := expand_cases hexpand
    exact hinsert _ _ hrest

end Engine

end ScanMatch
