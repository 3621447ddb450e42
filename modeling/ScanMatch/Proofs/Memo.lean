import Mathlib.Data.Finset.Card
import Mathlib.Data.List.Infix
import ScanMatch.Proofs.CacheHistory

/-! # A cache as a memo of its first queries

Calls and events are listed latest first. The sets at hand are those handed out since the last
clearing, and their serial numbers are greater than all from before it.
-/
namespace ScanMatch

inductive Call (S R : Type) where
  | get (query : Query S R)
  | clear

inductive Event (S R : Type) where
  | got (query : Query S R) (shared : SharedSet)
  | cleared

namespace Event

variable {S R : Type}

def call : Event S R → Call S R
  | got q _ => .get q
  | cleared => .clear

@[simp] theorem call_eq_get {event : Event S R} {q : Query S R} :
    event.call = .get q ↔ ∃ shared, event = .got q shared := by
  cases event <;> simp [call]

@[simp] theorem call_eq_clear {event : Event S R} : event.call = .clear ↔ event = .cleared := by
  cases event <;> simp [call]

/-- The queries answered since the last clearing. -/
def since : List (Event S R) → List (Query S R)
  | [] => []
  | got q _ :: log => q :: since log
  | cleared :: _ => []

theorem exists_got {q : Query S R} {log : List (Event S R)} (h : q ∈ since log) :
    ∃ shared, .got q shared ∈ log := by
  induction log with
  | nil => cases h
  | cons event log ih =>
    cases event with
    | cleared => cases h
    | got q' shared =>
      rcases List.mem_cons.mp h with rfl | h
      · exact ⟨shared, List.mem_cons_self⟩
      · obtain ⟨shared', hmem⟩ := ih h
        exact ⟨shared', List.mem_cons_of_mem _ hmem⟩

end Event

namespace ScanCache

variable {S R : Type} [Scalar R] [Precision S R]

def handle (cache : ScanCache S) : Call S R → Checked (Event S R × ScanCache S)
  | .get q => (cache.get q.metersPerPixel q.rotation q.level).map fun out => (.got q out.1, out.2)
  | .clear => .ok (.cleared, cache.clear)

/-- The cache of a scan after the calls, and what happened at them. -/
def serve (points : Array (Point S)) (merge : Bool) :
    List (Call S R) → Checked (ScanCache S × List (Event S R))
  | [] => .ok (ofPoints points merge, [])
  | call :: earlier => do
    let (cache, log) ← serve points merge earlier
    let (event, cache) ← cache.handle call
    return (cache, event :: log)

variable {points : Array (Point S)} {merge : Bool} {cache cache' : ScanCache S}
  {log : List (Event S R)} {calls earlier : List (Call S R)}

theorem serve_cons {call : Call S R}
    (h : serve points merge (call :: earlier) = .ok (cache', log)) :
    ∃ cache log₀ event, serve points merge earlier = .ok (cache, log₀) ∧
      cache.handle call = .ok (event, cache') ∧ log = event :: log₀ := by
  obtain ⟨⟨cache, log₀⟩, hserve, h⟩ := Checked.bind_eq_ok h
  obtain ⟨⟨event, cache₁⟩, hevent, h⟩ := Checked.bind_eq_ok h
  cases h
  exact ⟨cache, log₀, event, hserve, hevent, rfl⟩

theorem handle_get {q : Query S R} {event : Event S R}
    (h : cache.handle (.get q) = .ok (event, cache')) :
    ∃ shared, event = .got q shared ∧
      cache.get q.metersPerPixel q.rotation q.level = .ok (shared, cache') := by
  rw [handle] at h
  cases hget : cache.get q.metersPerPixel q.rotation q.level with
  | error f =>
    rw [hget] at h
    cases h
  | ok out =>
    rw [hget] at h
    cases h
    exact ⟨out.1, rfl, rfl⟩

theorem handle_call {call : Call S R} {event : Event S R}
    (h : cache.handle call = .ok (event, cache')) : event.call = call := by
  cases call with
  | get q =>
    obtain ⟨shared, rfl, -⟩ := handle_get h
    rfl
  | clear =>
    cases h
    rfl

/-- The set at hand is handed out. Where there is none, one is made under the next number. -/
theorem get_eq_ok {q : Query S R} {shared : SharedSet}
    (h : cache.get q.metersPerPixel q.rotation q.level = .ok (shared, cache')) :
    (cache.sets[q.key]? = some shared ∧ cache' = cache) ∨
      cache.sets[q.key]? = none ∧ shared.serial = cache.made ∧
        cache'.sets = cache.sets.insert q.key shared ∧ cache'.made = cache.made + 1 := by
  unfold get at h
  dsimp only at h
  split at h
  · next hhit =>
    cases h
    exact Or.inl ⟨hhit, rfl⟩
  · next hmiss =>
    obtain ⟨set, -, h⟩ := Checked.bind_eq_ok h
    cases h
    exact Or.inr ⟨hmiss, rfl, rfl, rfl⟩

/-- What a log tells of the cache. -/
structure Logged (points : Array (Point S)) (merge : Bool) (cache : ScanCache S)
    (log : List (Event S R)) : Prop where
  remembers : cache.Remembers points merge (Event.since log)
  size : cache.cachedSets = ((Event.since log).map Query.key).toFinset.card
  numbered : ∀ (q : Query S R) (shared : SharedSet), .got q shared ∈ log →
    shared.serial < cache.made
  held : ∀ (key : CacheKey) (s : SharedSet), cache.sets[key]? = some s → s.serial < cache.made
  /-- No set is held under two keys. -/
  apart : ∀ (key key' : CacheKey) (s s' : SharedSet), cache.sets[key]? = some s →
    cache.sets[key']? = some s' → s.serial = s'.serial → key = key'
  atHand : ∀ (later older : List (Event S R)) (q : Query S R) (shared : SharedSet),
    log = later ++ .got q shared :: older → .cleared ∉ later → cache.sets[q.key]? = some shared
  stale : ∀ (later older : List (Event S R)) (q : Query S R) (shared : SharedSet),
    log = later ++ .got q shared :: older → .cleared ∈ later →
      ∀ (key : CacheKey) (s : SharedSet), cache.sets[key]? = some s → shared.serial < s.serial

namespace Logged

theorem nil : Logged points merge (ofPoints points merge) ([] : List (Event S R)) where
  remembers := ⟨rfl, rfl, by simp [ofPoints], fun _ _ => rfl⟩
  size := by simp [cachedSets, ofPoints, Event.since]
  numbered := by simp
  held := by simp [ofPoints]
  apart := by simp [ofPoints]
  atHand := by simp
  stale := by simp

theorem clear (h : Logged points merge cache log) :
    Logged points merge cache.clear (.cleared :: log) where
  remembers := ⟨h.remembers.points_eq, h.remembers.merge_eq, by simp [ScanCache.clear],
    fun _ _ => rfl⟩
  size := by simp [cachedSets, ScanCache.clear, Event.since]
  numbered q shared hmem := by
    apply h.numbered q shared
    simpa using hmem
  held := by simp [ScanCache.clear]
  apart := by simp [ScanCache.clear]
  atHand later older q shared hlog hlater := by
    rcases List.cons_eq_append_iff.mp hlog with ⟨rfl, hcons⟩ | ⟨later', rfl, -⟩
    · cases hcons
    · simp at hlater
  stale := by simp [ScanCache.clear]

/-- The keys of the queries since the last clearing are those that sets are held under. -/
theorem mem_keys_iff (h : Logged points merge cache log) (key : CacheKey) :
    key ∈ (Event.since log).map Query.key ↔ cache.sets[key]? ≠ none := by
  constructor
  · intro hmem hnone
    obtain ⟨q, hq, rfl⟩ := List.mem_map.mp hmem
    have hfirst := h.remembers.held _ hnone
    rw [Query.first?, List.find?_eq_none] at hfirst
    exact hfirst q (List.mem_reverse.mpr hq) (by simp)
  · intro hsome
    obtain ⟨s, hs⟩ := Option.ne_none_iff_exists'.mp hsome
    obtain ⟨q, hfirst, -⟩ := h.remembers.made key s hs
    rw [← Query.key_of_first? hfirst]
    exact List.mem_map_of_mem (List.mem_reverse.mp (List.mem_of_find?_eq_some hfirst))

theorem hit (h : Logged points merge cache log) {q : Query S R} {shared : SharedSet}
    (hremembers : cache.Remembers points merge (q :: Event.since log))
    (hhit : cache.sets[q.key]? = some shared) :
    Logged points merge cache (.got q shared :: log) where
  remembers := hremembers
  size := by
    have hkey := (h.mem_keys_iff q.key).mpr (by simp [hhit])
    rw [h.size, Event.since, List.map_cons, List.toFinset_cons,
      Finset.insert_eq_of_mem (List.mem_toFinset.mpr hkey)]
  numbered q' s hmem := by
    rcases List.mem_cons.mp hmem with heq | hmem
    · cases heq
      exact h.held _ _ hhit
    · exact h.numbered q' s hmem
  held := h.held
  apart := h.apart
  atHand later older q' s hlog hlater := by
    rcases List.cons_eq_append_iff.mp hlog with ⟨rfl, hcons⟩ | ⟨later', rfl, hlog'⟩
    · cases hcons
      exact hhit
    · apply h.atHand later' older q' s hlog'
      simp_all
  stale later older q' s hlog hlater := by
    rcases List.cons_eq_append_iff.mp hlog with ⟨rfl, hcons⟩ | ⟨later', rfl, hlog'⟩
    · simp at hlater
    · apply h.stale later' older q' s hlog'
      simpa using hlater

theorem miss (h : Logged points merge cache log) {q : Query S R} {shared : SharedSet}
    (hremembers : cache'.Remembers points merge (q :: Event.since log))
    (hmiss : cache.sets[q.key]? = none) (hserial : shared.serial = cache.made)
    (hsets : cache'.sets = cache.sets.insert q.key shared) (hmade : cache'.made = cache.made + 1) :
    Logged points merge cache' (.got q shared :: log) := by
  have hcases {key : CacheKey} {s : SharedSet} (hs : cache'.sets[key]? = some s) :
      key = q.key ∧ s = shared ∨ cache.sets[key]? = some s := by
    rw [hsets, Std.HashMap.getElem?_insert] at hs
    split at hs
    · next heq => exact Or.inl ⟨(beq_iff_eq.mp heq).symm, (Option.some.inj hs).symm⟩
    · exact Or.inr hs
  refine ⟨hremembers, ?size, ?numbered, ?held, ?apart, ?atHand, ?stale⟩
  case size =>
    have hkey : q.key ∉ (Event.since log).map Query.key := by
      rw [h.mem_keys_iff]
      simpa using hmiss
    have hnew : q.key ∉ cache.sets := by
      rw [← Std.HashMap.isSome_getElem?_iff_mem, hmiss]
      decide
    rw [Event.since, List.map_cons, List.toFinset_cons,
      Finset.card_insert_of_notMem (by simpa using hkey), ← h.size, cachedSets, cachedSets, hsets,
      Std.HashMap.size_insert, if_neg hnew]
  case numbered =>
    intro q' s hmem
    rw [hmade]
    rcases List.mem_cons.mp hmem with heq | hmem
    · cases heq
      omega
    · have := h.numbered q' s hmem
      omega
  case held =>
    intro key s hs
    rw [hmade]
    rcases hcases hs with ⟨-, rfl⟩ | hs
    · omega
    · have := h.held key s hs
      omega
  case apart =>
    intro key key' s s' hs hs' heq
    rcases hcases hs with ⟨rfl, rfl⟩ | hs <;> rcases hcases hs' with ⟨rfl, rfl⟩ | hs'
    · rfl
    · have := h.held key' s' hs'
      omega
    · have := h.held key s hs
      omega
    · exact h.apart key key' s s' hs hs' heq
  case atHand =>
    intro later older q' s hlog hlater
    rw [hsets]
    rcases List.cons_eq_append_iff.mp hlog with ⟨rfl, hcons⟩ | ⟨later', rfl, hlog'⟩
    · cases hcons
      exact Std.HashMap.getElem?_insert_self
    · have hs := h.atHand later' older q' s hlog' (by simp_all)
      have hne : q.key ≠ q'.key := by
        intro heq
        rw [← heq, hmiss] at hs
        cases hs
      rw [Std.HashMap.getElem?_insert, if_neg (by simpa using hne), hs]
  case stale =>
    intro later older q' s hlog hlater key s' hs'
    rcases List.cons_eq_append_iff.mp hlog with ⟨rfl, hcons⟩ | ⟨later', rfl, hlog'⟩
    · simp at hlater
    · rcases hcases hs' with ⟨-, rfl⟩ | hs'
      · rw [hserial]
        apply h.numbered q' s
        simp [hlog']
      · exact h.stale later' older q' s hlog' (by simpa using hlater) key s' hs'

theorem handle (h : Logged points merge cache log) {call : Call S R} {event : Event S R}
    (he : cache.handle call = .ok (event, cache')) : Logged points merge cache' (event :: log) := by
  cases call with
  | get q =>
    obtain ⟨shared, rfl, hget⟩ := handle_get he
    have hremembers := h.remembers.get q hget
    rcases get_eq_ok hget with ⟨hhit, rfl⟩ | ⟨hmiss, hserial, hsets, hmade⟩
    · exact h.hit hremembers hhit
    · exact h.miss hremembers hmiss hserial hsets hmade
  | clear =>
    cases he
    exact h.clear

end Logged

theorem logged_of_serve (h : serve points merge calls = .ok (cache, log)) :
    Logged points merge cache log := by
  induction calls generalizing cache log with
  | nil =>
    cases h
    exact Logged.nil
  | cons call earlier ih =>
    obtain ⟨cache₀, log₀, event, hserve, hevent, rfl⟩ := serve_cons h
    exact (ih hserve).handle hevent

theorem map_call_of_serve (h : serve points merge calls = .ok (cache, log)) :
    log.map Event.call = calls := by
  induction calls generalizing cache log with
  | nil =>
    cases h
    rfl
  | cons call earlier ih =>
    obtain ⟨cache₀, log₀, event, hserve, hevent, rfl⟩ := serve_cons h
    rw [List.map_cons, ih hserve, handle_call hevent]

/-- A log only ever grows. -/
theorem serve_append {later : List (Call S R)}
    (h : serve points merge (later ++ earlier) = .ok (cache, log)) :
    ∃ cache₀ log₀, serve points merge earlier = .ok (cache₀, log₀) ∧ log₀ <:+ log := by
  induction later generalizing cache log with
  | nil => exact ⟨cache, log, h, List.suffix_rfl⟩
  | cons call later ih =>
    obtain ⟨cache₁, log₁, event, hserve, -, rfl⟩ := serve_cons h
    obtain ⟨cache₀, log₀, hserve₀, hsuffix⟩ := ih hserve
    exact ⟨cache₀, log₀, hserve₀, hsuffix.trans (List.suffix_cons event log₁)⟩

/-- Every part of a log that goes back to the start was the whole log at its time. -/
theorem logged_of_suffix {later log₀ : List (Event S R)}
    (h : serve points merge calls = .ok (cache, later ++ log₀)) :
    ∃ cache₀, Logged points merge cache₀ log₀ := by
  induction later generalizing cache calls with
  | nil => exact ⟨cache, logged_of_serve h⟩
  | cons event later ih =>
    cases calls with
    | nil => cases h
    | cons call earlier =>
      obtain ⟨cache₁, log₁, event', hserve, -, hlog⟩ := serve_cons h
      cases hlog
      exact ih hserve

theorem exists_serve
    (h : ∀ q : Query S R, .get q ∈ calls → ∃ set, q.quantize points merge = .ok set) :
    ∃ cache log, serve points merge calls = .ok (cache, log) := by
  induction calls with
  | nil => exact ⟨_, _, rfl⟩
  | cons call earlier ih =>
    obtain ⟨cache, log, hserve⟩ := ih fun q hq => h q (List.mem_cons_of_mem _ hq)
    have hlogged := logged_of_serve hserve
    have hhandle : ∃ event cache', cache.handle call = .ok (event, cache') := by
      cases call with
      | clear => exact ⟨_, _, rfl⟩
      | get q =>
        obtain ⟨set, hset⟩ := h q List.mem_cons_self
        rw [Query.quantize, ← hlogged.remembers.points_eq, ← hlogged.remembers.merge_eq] at hset
        rw [handle, ScanCache.get]
        dsimp only
        split
        · exact ⟨_, _, rfl⟩
        · rw [hset]
          exact ⟨_, _, rfl⟩
    obtain ⟨event, cache', hevent⟩ := hhandle
    refine ⟨cache', event :: log, ?_⟩
    rw [serve, hserve]
    change (cache.handle call >>= _) = _
    rw [hevent]
    rfl

/-- What the calls to a cache come to. -/
structure Memo (points : Array (Point S)) (merge : Bool) (calls : List (Call S R))
    (cache : ScanCache S) (log : List (Event S R)) : Prop where
  calls_eq : log.map Event.call = calls
  points_eq : cache.points = points
  merge_eq : cache.merge = merge
  cachedSets_eq : cache.cachedSets = ((Event.since log).map Query.key).toFinset.card
  /-- What was handed out before is still on record. -/
  kept : ∀ earlier, earlier <:+ calls →
    ∃ cache₀ log₀, serve points merge earlier = .ok (cache₀, log₀) ∧ log₀ <:+ log
  first : ∀ (later older : List (Event S R)) (q : Query S R) (shared : SharedSet),
    log = later ++ .got q shared :: older →
      ∃ q₀, Query.first? q.key (q :: Event.since older) = some q₀ ∧
        q₀.quantize points merge = .ok shared.set
  shared : ∀ (later between older : List (Event S R)) (q q' : Query S R) (s s' : SharedSet),
    log = later ++ .got q' s' :: (between ++ .got q s :: older) →
      q'.key = q.key → .cleared ∉ between → s' = s
  distinct : ∀ (later between older : List (Event S R)) (q q' : Query S R) (s s' : SharedSet),
    log = later ++ .got q' s' :: (between ++ .got q s :: older) →
      q'.key ≠ q.key ∨ .cleared ∈ between → s'.serial ≠ s.serial

theorem memo_of_serve (h : serve points merge calls = .ok (cache, log)) :
    Memo points merge calls cache log where
  calls_eq := map_call_of_serve h
  points_eq := (logged_of_serve h).remembers.points_eq
  merge_eq := (logged_of_serve h).remembers.merge_eq
  cachedSets_eq := (logged_of_serve h).size
  kept := by
    rintro earlier ⟨later, rfl⟩
    exact serve_append h
  first := by
    rintro later older q shared rfl
    obtain ⟨cache₀, hlogged⟩ := logged_of_suffix h
    have hs := hlogged.atHand [] older q shared rfl (by simp)
    exact hlogged.remembers.made q.key shared hs
  shared := by
    rintro later between older q q' s s' rfl hkey hbetween
    obtain ⟨cache₀, hlogged⟩ := logged_of_suffix h
    have hs' := hlogged.atHand [] _ q' s' rfl (by simp)
    have hs := hlogged.atHand (.got q' s' :: between) older q s rfl (by simpa using hbetween)
    rw [hkey, hs] at hs'
    exact (Option.some.inj hs').symm
  distinct := by
    rintro later between older q q' s s' rfl hdifferent heq
    obtain ⟨cache₀, hlogged⟩ := logged_of_suffix h
    have hs' := hlogged.atHand [] _ q' s' rfl (by simp)
    by_cases hbetween : .cleared ∈ between
    · have := hlogged.stale (.got q' s' :: between) older q s rfl (by simp [hbetween]) _ _ hs'
      omega
    · have hs := hlogged.atHand (.got q' s' :: between) older q s rfl (by simpa using hbetween)
      have hkey := hlogged.apart _ _ _ _ hs' hs heq
      exact hdifferent.elim (fun hne => hne hkey) hbetween

namespace Memo

theorem get_mem (h : Memo points merge calls cache log) {q : Query S R} {shared : SharedSet}
    (hq : .got q shared ∈ log) : .get q ∈ calls := by
  rw [← h.calls_eq]
  exact List.mem_map_of_mem (f := Event.call) hq

/-- Where no two queries meet under one key, each is answered by its own set. -/
theorem quantize_eq (h : Memo points merge calls cache log)
    (hkeys : ∀ q q' : Query S R, .get q ∈ calls → .get q' ∈ calls → q.key = q'.key → q = q')
    {q : Query S R} {shared : SharedSet} (hq : .got q shared ∈ log) :
    q.quantize points merge = .ok shared.set := by
  obtain ⟨later, older, hlog⟩ := List.append_of_mem hq
  obtain ⟨q₀, hfirst, hset⟩ := h.first later older q shared hlog
  have hq₀ : .get q₀ ∈ calls := by
    have hmem := List.mem_reverse.mp (List.mem_of_find?_eq_some hfirst)
    rcases List.mem_cons.mp hmem with rfl | hmem
    · exact h.get_mem hq
    · obtain ⟨s, hs⟩ := Event.exists_got hmem
      have hmem : .got q₀ s ∈ log := by simp [hlog, hs]
      exact h.get_mem hmem
  rw [hkeys q q₀ (h.get_mem hq) hq₀ (Query.key_of_first? hfirst).symm, hset]

end Memo

/-- Clearings and repeated queries, put in or taken out anywhere, change no set handed out, unless
two queries meet under one key. -/
theorem serve_memo (points : Array (Point S)) (merge : Bool) (calls : List (Call S R))
    (h : ∀ q : Query S R, .get q ∈ calls → ∃ set, q.quantize points merge = .ok set) :
    ∃ cache log, serve points merge calls = .ok (cache, log) ∧
      Memo points merge calls cache log ∧
      ((∀ q q' : Query S R, .get q ∈ calls → .get q' ∈ calls → q.key = q'.key → q = q') →
        ∀ calls', (∀ q : Query S R, .get q ∈ calls' → .get q ∈ calls) →
          ∃ cache' log', serve points merge calls' = .ok (cache', log') ∧
            Memo points merge calls' cache' log' ∧
            ∀ q s s', .got q s ∈ log → .got q s' ∈ log' → s'.set = s.set) := by
  obtain ⟨cache, log, hserve⟩ := exists_serve h
  have hmemo := memo_of_serve hserve
  refine ⟨cache, log, hserve, hmemo, ?_⟩
  intro hkeys calls' hcalls
  obtain ⟨cache', log', hserve'⟩ := exists_serve fun q hq => h q (hcalls q hq)
  have hmemo' := memo_of_serve hserve'
  refine ⟨cache', log', hserve', hmemo', ?_⟩
  intro q s s' hs hs'
  have hset := hmemo.quantize_eq hkeys hs
  have hset' := hmemo'.quantize_eq
    (fun q q' hq hq' => hkeys q q' (hcalls q hq) (hcalls q' hq')) hs'
  rw [hset] at hset'
  exact (Except.ok.inj hset').symm

end ScanCache

/-! ### The scan on the boundary

Two rotations under one key share a set until the clearing, and after it the first of them has its
set made again. Two levels under different keys do without it.
-/

noncomputable section

def upward (level : ℕ) : Query ℝ ℝ := boundaryQuery (1 / 10 ^ 10) level

def downward : Query ℝ ℝ := boundaryQuery (-(1 / 10 ^ 10)) 0

theorem upward_key (level : ℕ) : (upward level).key = ⟨level, 0, 1000000000⟩ :=
  boundaryQuery_key _ _ (by norm_num [abs_le])

theorem downward_key : downward.key = ⟨0, 0, 1000000000⟩ :=
  boundaryQuery_key _ _ (by norm_num [abs_le])

namespace ScanCache

theorem serve_memo_boundary :
    (∃ cache a b c, serve boundaryScan true
        [.get (upward 0), .clear, .get downward, .get (upward 0)] =
          .ok (cache, [.got (upward 0) c, .cleared, .got downward b, .got (upward 0) a]) ∧
      b = a ∧ c.serial ≠ a.serial ∧ c.set = a.set ∧ cache.cachedSets = 1) ∧
    ∃ cache log cache' log',
      serve boundaryScan true [.get (upward 1), .clear, .get (upward 0)] = .ok (cache, log) ∧
      serve boundaryScan true [.get (upward 1), .get (upward 0), .get (upward 0)] =
        .ok (cache', log') ∧
      ∀ q s s', .got q s ∈ log → .got q s' ∈ log' → s'.set = s.set := by
  have completes (q : Query ℝ ℝ) (hlevel : q.level < 31) :
      ∃ set, q.quantize boundaryScan true = .ok set :=
    ⟨_, CellSet.quantize_eq_ok _ _ _ _ hlevel (by simp [boundaryScan])⟩
  constructor
  · obtain ⟨cache, log, hserve, hmemo, -⟩ := serve_memo boundaryScan true
      [.get (upward 0), .clear, .get downward, .get (upward 0)] (by
        intro q hq
        apply completes
        simp only [List.mem_cons, Call.get.injEq] at hq
        rcases hq with rfl | hq | rfl | rfl | hq
        all_goals first | cases hq | decide)
    obtain ⟨c, b, a, rfl⟩ : ∃ c b a, log =
        [.got (upward 0) c, .cleared, .got downward b, .got (upward 0) a] := by
      simpa [List.map_eq_cons_iff] using hmemo.calls_eq
    have hkey : downward.key = (upward 0).key := downward_key.trans (upward_key 0).symm
    have hfirst : Query.first? (upward 0).key [upward 0] = some (upward 0) := by
      simp [Query.first?]
    obtain ⟨q, hq, hc⟩ := hmemo.first [] _ (upward 0) c rfl
    obtain ⟨q', hq', ha⟩ := hmemo.first [.got (upward 0) c, .cleared, .got downward b] [] _ a rfl
    obtain rfl := Option.some.inj (hfirst.symm.trans hq)
    obtain rfl := Option.some.inj (hfirst.symm.trans hq')
    refine ⟨cache, a, b, c, hserve, ?_, ?_, ?_, ?_⟩
    · exact hmemo.shared [.got (upward 0) c, .cleared] [] [] _ _ a b rfl hkey
        (by simp)
    · exact hmemo.distinct [] [.cleared, .got downward b] [] _ _ a c rfl
        (Or.inr (by simp))
    · rw [hc] at ha
      exact Except.ok.inj ha
    · rw [hmemo.cachedSets_eq]
      rfl
  · obtain ⟨cache, log, hserve, -, hedit⟩ := serve_memo boundaryScan true
      [.get (upward 1), .clear, .get (upward 0)] (by
        intro q hq
        apply completes
        simp only [List.mem_cons, Call.get.injEq] at hq
        rcases hq with rfl | hq | rfl | hq
        all_goals first | cases hq | decide)
    have hkeys : (upward 0).key ≠ (upward 1).key := by
      rw [upward_key, upward_key]
      decide
    obtain ⟨cache', log', hserve', -, hsame⟩ := hedit (by
        intro q q' hq hq' heq
        simp only [List.mem_cons, Call.get.injEq, reduceCtorEq, List.not_mem_nil, false_or,
          or_false] at hq hq'
        rcases hq with rfl | rfl <;> rcases hq' with rfl | rfl
        · rfl
        · exact absurd heq.symm hkeys
        · exact absurd heq hkeys
        · rfl)
      [.get (upward 1), .get (upward 0), .get (upward 0)] (by simp)
    exact ⟨cache, log, cache', log', hserve, hserve', hsame⟩

end ScanCache

end

end ScanMatch
