import ScanMatch.Config.MatchConfig

/-! # Partial configurations

A document that gives some settings stands for the standard configuration with just these replaced.
Neither the order of keys nor unknown keys matter, and a section may be left out, left empty or
spelled out with its standard values, as the defaults of the settings make up the standard section.
-/
namespace ScanMatch

/-! ### Entries -/

section

variable {N : Type}

/-- Under a key there is one value at most, and one that can be read. -/
def HoldsUnder (key : String) (reads : N → Bool) (entries : List (String × N)) : Prop :=
  (entries.map Prod.fst).count key ≤ 1 ∧ ∀ e ∈ entries, e.1 = key → reads e.2

instance (key : String) (reads : N → Bool) (entries : List (String × N)) :
    Decidable (HoldsUnder key reads entries) :=
  inferInstanceAs (Decidable (_ ∧ _))

theorem HoldsUnder.valueOf?_eq {key : String} {reads : N → Bool}
    {entries : List (String × N)} (h : HoldsUnder key reads entries) :
    valueOf? key entries = some (entries.lookup key) := by
  cases hlookup : entries.lookup key with
  | none =>
    have habsent : key ∉ entries.map Prod.fst := by
      intro hkey
      obtain ⟨e, he, rfl⟩ := List.mem_map.1 hkey
      have hne := List.lookup_eq_none_iff.1 hlookup e he
      simp at hne
    rw [valueOf?, filter_key_eq_nil habsent]
  | some node =>
    obtain ⟨before, after, rfl, -⟩ := List.lookup_eq_some_iff.1 hlookup
    have hone := h.1
    simp only [List.map_append, List.map_cons, List.count_append, List.count_cons_self] at hone
    have hbefore : key ∉ before.map Prod.fst := List.count_eq_zero.1 (by omega)
    have hafter : key ∉ after.map Prod.fst := List.count_eq_zero.1 (by omega)
    rw [valueOf?, List.filter_append, List.filter_cons_of_pos (by simp), filter_key_eq_nil hbefore,
      filter_key_eq_nil hafter, List.nil_append]

theorem HoldsUnder.reads_lookup {key : String} {reads : N → Bool}
    {entries : List (String × N)} (h : HoldsUnder key reads entries) {node : N}
    (hnode : entries.lookup key = some node) : reads node := by
  obtain ⟨before, after, rfl, -⟩ := List.lookup_eq_some_iff.1 hnode
  exact h.2 (key, node) (by simp) rfl

/-- The entries under some keys are the same, in whatever order and whatever else there is. -/
def SameUnder (keys : List String) (es fs : List (String × N)) : Prop :=
  (es.filter (·.1 ∈ keys)).Perm (fs.filter (·.1 ∈ keys))

theorem SameUnder.of_perm {keys : List String} {es fs : List (String × N)} (h : es.Perm fs) :
    SameUnder keys es fs :=
  h.filter _

theorem valueOf?_perm {key : String} {es fs : List (String × N)}
    (h : (es.filter (·.1 = key)).Perm (fs.filter (·.1 = key))) :
    valueOf? key es = valueOf? key fs := by
  unfold valueOf?
  generalize es.filter (·.1 = key) = xs at h
  generalize fs.filter (·.1 = key) = ys at h
  match xs with
  | [] => rw [h.nil_eq]
  | [x] => rw [List.singleton_perm.1 h]
  | x :: x' :: xs =>
    have hlength := h.length_eq
    match ys with
    | [] | [_] => simp at hlength
    | y :: y' :: ys => rfl

theorem SameUnder.valueOf?_eq {keys : List String} {es fs : List (String × N)}
    (h : SameUnder keys es fs) {key : String} (hkey : key ∈ keys) :
    valueOf? key es = valueOf? key fs := by
  have hfilter (entries : List (String × N)) :
      (entries.filter (·.1 ∈ keys)).filter (·.1 = key) = entries.filter (·.1 = key) := by
    rw [List.filter_filter]
    apply List.filter_congr
    intro e _
    by_cases he : e.1 = key
    · simp [he, hkey]
    · simp [he]
  apply valueOf?_perm
  rw [← hfilter es, ← hfilter fs]
  exact h.filter _

/-- What is not given keeps its default. -/
theorem HoldsUnder.valueOr_eq {α : Type} {key : String} {read : N → Option α}
    {entries : List (String × N)} (h : HoldsUnder key (fun node => (read node).isSome) entries)
    (default : α) :
    valueOr key read default entries =
      some (((entries.lookup key).bind read).getD default) := by
  rw [valueOr, h.valueOf?_eq]
  cases hlookup : entries.lookup key with
  | none => rfl
  | some node =>
    obtain ⟨value, hvalue⟩ := Option.isSome_iff_exists.1 (h.reads_lookup hlookup)
    simp [hvalue]

theorem SameUnder.valueOr_eq {α : Type} {keys : List String} {es fs : List (String × N)}
    (h : SameUnder keys es fs) {key : String} (hkey : key ∈ keys) (read : N → Option α)
    (default : α) : valueOr key read default es = valueOr key read default fs := by
  rw [valueOr, valueOr, h.valueOf?_eq hkey]

theorem valueOr_cons_of_ne {α : Type} {key name : String} (hne : name ≠ key) (node : N)
    (entries : List (String × N)) (read : N → Option α) (default : α) :
    valueOr key read default ((name, node) :: entries) = valueOr key read default entries := by
  have hvalue : valueOf? key ((name, node) :: entries) = valueOf? key entries := by
    rw [valueOf?, valueOf?, List.filter_cons_of_neg (by simpa using hne)]
  rw [valueOr, valueOr, hvalue]

end

/-! ### Sections

A section that is left empty is the standard one: the defaults of its settings, each of them where
the setting is read, make up its default as a whole. -/

theorem PyramidSection.ofEntries?_nil {R : Type} (codec : Codec R) :
    ofEntries? codec [] = some .standard := rfl

theorem SearchSection.ofEntries?_nil {R : Type} [Scalar R] (codec : Codec R) :
    ofEntries? codec [] = some .standard := rfl

theorem ClimbParams.ofEntries?_nil {R : Type} [Scalar R] (codec : Codec R) :
    ofEntries? codec [] = some .standard := rfl

theorem AlignParams.ofEntries?_nil {R : Type} [Scalar R] (codec : Codec R) :
    ofEntries? codec [] = some .standard := rfl

/-- What a setting may hold. -/
inductive Kind where
  | count (width : Width)
  | number
  | flag
  deriving DecidableEq, Repr

namespace Codec

variable {R : Type} (codec : Codec R)

def reads : Kind → codec.Node → Bool
  | .count width, node => (codec.count? width node).isSome
  | .number, node => (codec.number? node).isSome
  | .flag, node => (codec.flag? node).isSome

/-- The entries of a section: none if it is not there or empty. -/
def sectionEntries (name : String) (doc : List (String × codec.Node)) :
    List (String × codec.Node) :=
  ((doc.lookup name).bind codec.entries?).getD []

/-- A section that is not there reads as one that is left empty. -/
theorem valueOr_sectionEntries {C : Type} {read : List (String × codec.Node) → Option C}
    {default : C} (hdefault : read [] = some default) {name : String}
    {doc : List (String × codec.Node)}
    (h : HoldsUnder name (fun node => (codec.entries? node).isSome) doc) :
    valueOr name (codec.fromEntries? read) default doc = read (codec.sectionEntries name doc) := by
  rw [valueOr, h.valueOf?_eq, sectionEntries]
  cases hlookup : doc.lookup name with
  | none => exact hdefault.symm
  | some node =>
    obtain ⟨entries, hentries⟩ := Option.isSome_iff_exists.1 (h.reads_lookup hlookup)
    simp [fromEntries?, hentries]

end Codec

namespace MatchConfig

/-- All sections with their keys. -/
def schema : List (String × List (String × Kind)) :=
  [("pyramid", [("levels", .count .bits64)]),
    ("search", [("translation_window", .number), ("rotation_window", .number),
      ("rotation_step", .number), ("min_score", .number), ("scale_by_point_count", .flag)]),
    ("hill_climb", [("step_x", .number), ("step_y", .number), ("step_theta", .number),
      ("shrink_factor", .number), ("max_shrinks", .count .bits32),
      ("max_iterations", .count .bits32)]),
    ("icp", [("max_dist_ratio", .number), ("trans_thresh", .number), ("rad_thresh", .number),
      ("max_iterations", .count .bits32)])]

def sectionNames : List String := schema.map Prod.fst

def keysOf (name : String) : List String := ((schema.lookup name).getD []).map Prod.fst

/-- There is such a key in such a section. -/
def Known (name key : String) (kind : Kind) : Prop := ∃ s ∈ schema, s.1 = name ∧ (key, kind) ∈ s.2

instance (name key : String) (kind : Kind) : Decidable (Known name key kind) :=
  inferInstanceAs (Decidable (∃ s ∈ schema, _ ∧ _))

variable {R : Type} (codec : Codec R)

/-- Sections and their keys are given once at most, and with values that can be read. -/
structure Readable (doc : List (String × codec.Node)) : Prop where
  sections : ∀ s ∈ schema, HoldsUnder s.1 (fun node => (codec.entries? node).isSome) doc
  settings : ∀ s ∈ schema, ∀ k ∈ s.2,
    HoldsUnder k.1 (codec.reads k.2) (codec.sectionEntries s.1 doc)

instance (doc : List (String × codec.Node)) : Decidable (Readable codec doc) :=
  decidable_of_iff
    ((∀ s ∈ schema, HoldsUnder s.1 (fun node => (codec.entries? node).isSome) doc) ∧
      ∀ s ∈ schema, ∀ k ∈ s.2, HoldsUnder k.1 (codec.reads k.2) (codec.sectionEntries s.1 doc))
    ⟨fun h => ⟨h.1, h.2⟩, fun h => ⟨h.sections, h.settings⟩⟩

/-- The value that a document gives for a setting, or the one it has. -/
def givenOr {α : Type} (doc : List (String × codec.Node)) (name key : String)
    (read : codec.Node → Option α) (value : α) : α :=
  (((codec.sectionEntries name doc).lookup key).bind read).getD value

/-- The configuration with the settings that a document gives replaced. -/
def overriddenBy (c : MatchConfig R) (doc : List (String × codec.Node)) : MatchConfig R where
  pyramid :=
    { levels := givenOr codec doc "pyramid" "levels" (codec.count? .bits64) c.pyramid.levels }
  search :=
    { translationWindow := givenOr codec doc "search" "translation_window" codec.number?
        c.search.translationWindow
      rotationWindow := givenOr codec doc "search" "rotation_window" codec.number?
        c.search.rotationWindow
      rotationStep := givenOr codec doc "search" "rotation_step" codec.number?
        c.search.rotationStep
      minScore := givenOr codec doc "search" "min_score" codec.number? c.search.minScore
      scaleByPointCount := givenOr codec doc "search" "scale_by_point_count" codec.flag?
        c.search.scaleByPointCount }
  hillClimb :=
    { stepX := givenOr codec doc "hill_climb" "step_x" codec.number? c.hillClimb.stepX
      stepY := givenOr codec doc "hill_climb" "step_y" codec.number? c.hillClimb.stepY
      stepTheta := givenOr codec doc "hill_climb" "step_theta" codec.number? c.hillClimb.stepTheta
      shrinkFactor := givenOr codec doc "hill_climb" "shrink_factor" codec.number?
        c.hillClimb.shrinkFactor
      maxShrinks := givenOr codec doc "hill_climb" "max_shrinks" (codec.count? .bits32)
        c.hillClimb.maxShrinks
      maxIterations := givenOr codec doc "hill_climb" "max_iterations" (codec.count? .bits32)
        c.hillClimb.maxIterations }
  icp :=
    { maxDistRatio := givenOr codec doc "icp" "max_dist_ratio" codec.number? c.icp.maxDistRatio
      transThresh := givenOr codec doc "icp" "trans_thresh" codec.number? c.icp.transThresh
      radThresh := givenOr codec doc "icp" "rad_thresh" codec.number? c.icp.radThresh
      maxIterations := givenOr codec doc "icp" "max_iterations" (codec.count? .bits32)
        c.icp.maxIterations }

namespace Readable

variable {codec} {doc : List (String × codec.Node)} (h : Readable codec doc)

include h

section

variable {name key : String}

theorem holdsUnder {kind : Kind} (hkey : Known name key kind) :
    HoldsUnder key (codec.reads kind) (codec.sectionEntries name doc) := by
  obtain ⟨s, hs, rfl, hk⟩ := hkey
  exact h.settings s hs _ hk

theorem valueOr_count {width : Width} (hkey : Known name key (.count width)) (default : Nat) :
    valueOr key (codec.count? width) default (codec.sectionEntries name doc) =
      some (givenOr codec doc name key (codec.count? width) default) :=
  (h.holdsUnder hkey).valueOr_eq default

theorem valueOr_number (hkey : Known name key .number) (default : R) :
    valueOr key codec.number? default (codec.sectionEntries name doc) =
      some (givenOr codec doc name key codec.number? default) :=
  (h.holdsUnder hkey).valueOr_eq default

theorem valueOr_flag (hkey : Known name key .flag) (default : Bool) :
    valueOr key codec.flag? default (codec.sectionEntries name doc) =
      some (givenOr codec doc name key codec.flag? default) :=
  (h.holdsUnder hkey).valueOr_eq default

theorem valueOr_section {C : Type} {read : List (String × codec.Node) → Option C} {default : C}
    (hdefault : read [] = some default) (hname : name ∈ sectionNames) :
    valueOr name (codec.fromEntries? read) default doc = read (codec.sectionEntries name doc) := by
  obtain ⟨s, hs, rfl⟩ := List.mem_map.1 hname
  exact codec.valueOr_sectionEntries hdefault (h.sections s hs)

end

variable [Scalar R]

theorem ofEntries?_pyramid :
    PyramidSection.ofEntries? codec (codec.sectionEntries "pyramid" doc) =
      some (standard.overriddenBy codec doc).pyramid := by
  simp (disch := decide) only [PyramidSection.ofEntries?, h.valueOr_count]
  rfl

theorem ofEntries?_search :
    SearchSection.ofEntries? codec (codec.sectionEntries "search" doc) =
      some (standard.overriddenBy codec doc).search := by
  simp (disch := decide) only [SearchSection.ofEntries?, h.valueOr_number, h.valueOr_flag]
  rfl

theorem ofEntries?_hillClimb :
    ClimbParams.ofEntries? codec (codec.sectionEntries "hill_climb" doc) =
      some (standard.overriddenBy codec doc).hillClimb := by
  simp (disch := decide) only [ClimbParams.ofEntries?, h.valueOr_number, h.valueOr_count]
  rfl

theorem ofEntries?_icp :
    AlignParams.ofEntries? codec (codec.sectionEntries "icp" doc) =
      some (standard.overriddenBy codec doc).icp := by
  simp (disch := decide) only [AlignParams.ofEntries?, h.valueOr_number, h.valueOr_count]
  rfl

/-- A document replaces the settings that it gives. -/
theorem ofNode?_eq {node : codec.Node} (hdoc : codec.entries? node = some doc) :
    ofNode? codec node = some (standard.overriddenBy codec doc) := by
  simp (disch := decide) only [ofNode?, hdoc, Option.bind_eq_bind, Option.bind_some,
    h.valueOr_section (PyramidSection.ofEntries?_nil codec),
    h.valueOr_section (SearchSection.ofEntries?_nil codec),
    h.valueOr_section (ClimbParams.ofEntries?_nil codec),
    h.valueOr_section (AlignParams.ofEntries?_nil codec), h.ofEntries?_pyramid,
    h.ofEntries?_search, h.ofEntries?_hillClimb, h.ofEntries?_icp]
  rfl

end Readable

/-! ### Documents in other words -/

/-- Documents that differ only in the order of keys, in unknown keys, or in sections that give
nothing but standard values. -/
inductive Rewords [Scalar R] :
    List (String × codec.Node) → List (String × codec.Node) → Prop where
  | sections {doc doc' : List (String × codec.Node)} (h : SameUnder sectionNames doc doc') :
    Rewords doc doc'
  | settings {name : String} {node node' : codec.Node} {es fs doc : List (String × codec.Node)}
    (hnode : codec.entries? node = some es) (hnode' : codec.entries? node' = some fs)
    (h : SameUnder (keysOf name) es fs) : Rewords ((name, node) :: doc) ((name, node') :: doc)
  | standard {name : String} {node : codec.Node} {doc : List (String × codec.Node)}
    (hname : name ∉ doc.map Prod.fst) (hreadable : Readable codec [(name, node)])
    (h : standard.overriddenBy codec [(name, node)] = standard) :
    Rewords ((name, node) :: doc) doc
  | symm {doc doc' : List (String × codec.Node)} (h : Rewords doc doc') : Rewords doc' doc
  | trans {doc doc' doc'' : List (String × codec.Node)} (h : Rewords doc doc')
    (h' : Rewords doc' doc'') : Rewords doc doc''

section

variable {codec} {C : Type} {name n : String} {node node' : codec.Node}
  {es fs doc : List (String × codec.Node)} {read : List (String × codec.Node) → Option C}

/-- A section is read from its own entries only, in whatever node they stand. -/
theorem valueOr_section_settings (hnode : codec.entries? node = some es)
    (hnode' : codec.entries? node' = some fs) (h : SameUnder (keysOf name) es fs)
    (hsame : SameUnder (keysOf n) es fs → read es = read fs) (default : C) :
    valueOr n (codec.fromEntries? read) default ((name, node) :: doc) =
      valueOr n (codec.fromEntries? read) default ((name, node') :: doc) := by
  by_cases hname : name = n
  · subst hname
    have hread : codec.fromEntries? read node = codec.fromEntries? read node' := by
      rw [Codec.fromEntries?, Codec.fromEntries?, hnode, hnode']
      exact hsame h
    rw [valueOr, valueOr, valueOf?, valueOf?, List.filter_cons_of_pos (by simp),
      List.filter_cons_of_pos (by simp)]
    cases doc.filter (·.1 = name) with
    | nil => exact hread
    | cons e rest => rfl
  · rw [valueOr_cons_of_ne hname, valueOr_cons_of_ne hname]

/-- A section that gives nothing new may as well be left out. -/
theorem valueOr_section_standard (hname : name ∉ doc.map Prod.fst) {default : C}
    (hsingle : valueOr n (codec.fromEntries? read) default [(name, node)] = some default) :
    valueOr n (codec.fromEntries? read) default ((name, node) :: doc) =
      valueOr n (codec.fromEntries? read) default doc := by
  by_cases hn : name = n
  · subst hn
    have hfilter := filter_key_eq_nil hname
    have habsent : valueOr name (codec.fromEntries? read) default doc = some default := by
      rw [valueOr, valueOf?, hfilter]
      rfl
    rw [habsent, ← hsingle, valueOr, valueOr, valueOf?, valueOf?,
      List.filter_cons_of_pos (by simp), List.filter_cons_of_pos (by simp), hfilter]
    rfl
  · exact valueOr_cons_of_ne hn node doc _ default

end

section

variable {codec} {es fs : List (String × codec.Node)}

theorem ofEntries?_pyramid_sameUnder (h : SameUnder (keysOf "pyramid") es fs) :
    PyramidSection.ofEntries? codec es = PyramidSection.ofEntries? codec fs := by
  simp (disch := decide) only [PyramidSection.ofEntries?, h.valueOr_eq]

variable [Scalar R]

theorem ofEntries?_search_sameUnder (h : SameUnder (keysOf "search") es fs) :
    SearchSection.ofEntries? codec es = SearchSection.ofEntries? codec fs := by
  simp (disch := decide) only [SearchSection.ofEntries?, h.valueOr_eq]

theorem ofEntries?_hillClimb_sameUnder (h : SameUnder (keysOf "hill_climb") es fs) :
    ClimbParams.ofEntries? codec es = ClimbParams.ofEntries? codec fs := by
  simp (disch := decide) only [ClimbParams.ofEntries?, h.valueOr_eq]

theorem ofEntries?_icp_sameUnder (h : SameUnder (keysOf "icp") es fs) :
    AlignParams.ofEntries? codec es = AlignParams.ofEntries? codec fs := by
  simp (disch := decide) only [AlignParams.ofEntries?, h.valueOr_eq]

end

/-- Every section reads the same from both documents. -/
structure ReadsLike [Scalar R] (doc doc' : List (String × codec.Node)) : Prop where
  pyramid :
    valueOr "pyramid" (codec.fromEntries? <| PyramidSection.ofEntries? codec) .standard doc =
      valueOr "pyramid" (codec.fromEntries? <| PyramidSection.ofEntries? codec) .standard doc'
  search :
    valueOr "search" (codec.fromEntries? <| SearchSection.ofEntries? codec) .standard doc =
      valueOr "search" (codec.fromEntries? <| SearchSection.ofEntries? codec) .standard doc'
  hillClimb :
    valueOr "hill_climb" (codec.fromEntries? <| ClimbParams.ofEntries? codec) .standard doc =
      valueOr "hill_climb" (codec.fromEntries? <| ClimbParams.ofEntries? codec) .standard doc'
  icp :
    valueOr "icp" (codec.fromEntries? <| AlignParams.ofEntries? codec) .standard doc =
      valueOr "icp" (codec.fromEntries? <| AlignParams.ofEntries? codec) .standard doc'

variable {codec} [Scalar R] {doc doc' : List (String × codec.Node)}

theorem Rewords.readsLike (h : Rewords codec doc doc') : ReadsLike codec doc doc' := by
  induction h with
  | sections h =>
    constructor
    all_goals exact h.valueOr_eq (by decide) _ _
  | settings hnode hnode' h =>
    constructor
    · exact valueOr_section_settings hnode hnode' h ofEntries?_pyramid_sameUnder _
    · exact valueOr_section_settings hnode hnode' h ofEntries?_search_sameUnder _
    · exact valueOr_section_settings hnode hnode' h ofEntries?_hillClimb_sameUnder _
    · exact valueOr_section_settings hnode hnode' h ofEntries?_icp_sameUnder _
  | @standard name node doc hname hreadable h =>
    have hpyramid := hreadable.ofEntries?_pyramid
    have hsearch := hreadable.ofEntries?_search
    have hhillClimb := hreadable.ofEntries?_hillClimb
    have hicp := hreadable.ofEntries?_icp
    rw [h, ← hreadable.valueOr_section (PyramidSection.ofEntries?_nil codec) (by decide)]
      at hpyramid
    rw [h, ← hreadable.valueOr_section (SearchSection.ofEntries?_nil codec) (by decide)] at hsearch
    rw [h, ← hreadable.valueOr_section (ClimbParams.ofEntries?_nil codec) (by decide)]
      at hhillClimb
    rw [h, ← hreadable.valueOr_section (AlignParams.ofEntries?_nil codec) (by decide)] at hicp
    exact ⟨valueOr_section_standard hname hpyramid, valueOr_section_standard hname hsearch,
      valueOr_section_standard hname hhillClimb, valueOr_section_standard hname hicp⟩
  | symm _ ih => exact ⟨ih.pyramid.symm, ih.search.symm, ih.hillClimb.symm, ih.icp.symm⟩
  | trans _ _ ih ih' =>
    exact ⟨ih.pyramid.trans ih'.pyramid, ih.search.trans ih'.search,
      ih.hillClimb.trans ih'.hillClimb, ih.icp.trans ih'.icp⟩

theorem Rewords.ofNode?_eq (h : Rewords codec doc doc') {node node' : codec.Node}
    (hdoc : codec.entries? node = some doc) (hdoc' : codec.entries? node' = some doc') :
    ofNode? codec node = ofNode? codec node' := by
  obtain ⟨hpyramid, hsearch, hhillClimb, hicp⟩ := h.readsLike
  simp only [ofNode?, hdoc, hdoc', Option.bind_eq_bind, Option.bind_some, hpyramid, hsearch,
    hhillClimb, hicp]

/-- A document whose values can be read stands for the standard configuration with the settings
that it gives replaced, once this is checked. So does every document that says the same in other
words. -/
theorem parse_overrides {text : String} {node : codec.Node} (htext : codec.ofText? text = some node)
    (hdoc : codec.entries? node = some doc) (hreadable : Readable codec doc) :
    parse codec text = (standard.overriddenBy codec doc).validate ∧
    ∀ (text' : String) (node' : codec.Node) (doc' : List (String × codec.Node)),
      codec.ofText? text' = some node' → codec.entries? node' = some doc' →
      Rewords codec doc doc' → parse codec text' = (standard.overriddenBy codec doc).validate := by
  have hread := hreadable.ofNode?_eq hdoc
  constructor
  · exact parse_eq htext hread
  · intro text' node' doc' htext' hdoc' hrewords
    exact parse_eq htext' ((hrewords.ofNode?_eq hdoc hdoc').symm.trans hread)

/-- A score, an unknown key, a count and an empty section. -/
def sparseDocument : List (String × Yaml.Node) :=
  [("search", .mapping [(.plain "min_score", .plain "-0.5"), (.plain "window", .plain "3")]),
    ("icp", .mapping [(.plain "max_iterations", .plain "7")]), ("hill_climb", .empty)]

/-- The same in another order, with a standard value in place of the empty section. -/
def reorderedDocument : List (String × Yaml.Node) :=
  [("pyramid", .mapping [(.plain "levels", .plain "8")]),
    ("icp", .mapping [(.plain "max_iterations", .plain "7")]),
    ("search", .mapping [(.plain "min_score", .plain "-0.5")])]

theorem rewords_sparse :
    Rewords (Yaml.codec (R := Float)) sparseDocument reorderedDocument := by
  let codec : Codec Float := Yaml.codec
  let icp : String × Yaml.Node := ("icp", .mapping [(.plain "max_iterations", .plain "7")])
  let windowed : Yaml.Node :=
    .mapping [(.plain "min_score", .plain "-0.5"), (.plain "window", .plain "3")]
  let scored : Yaml.Node := .mapping [(.plain "min_score", .plain "-0.5")]
  have hfirst : Rewords codec sparseDocument
      [("hill_climb", .empty), ("search", windowed), icp] :=
    .sections (.of_perm (@List.perm_append_comm _ [("search", windowed), icp] _))
  have hempty : Rewords codec [("hill_climb", .empty), ("search", windowed), icp]
      [("search", windowed), icp] :=
    .standard (by decide) (by decide +kernel) rfl
  have hwindow : Rewords codec [("search", windowed), icp] [("search", scored), icp] := by
    have hwindowed : windowed.entries? =
        some [("min_score", .plain "-0.5"), ("window", .plain "3")] := rfl
    have hscored : scored.entries? = some [("min_score", .plain "-0.5")] := rfl
    have hsame : SameUnder (keysOf "search")
        [("min_score", Yaml.Node.plain "-0.5"), ("window", .plain "3")]
        [("min_score", .plain "-0.5")] :=
      List.Perm.refl [("min_score", Yaml.Node.plain "-0.5")]
    exact .settings hwindowed hscored hsame
  have hswap : Rewords codec [("search", scored), icp] [icp, ("search", scored)] :=
    .sections (.of_perm (.swap _ _ _))
  have hlevels : Rewords codec reorderedDocument [icp, ("search", scored)] :=
    .standard (by decide) (by decide +kernel) rfl
  exact hfirst.trans (hempty.trans (hwindow.trans (hswap.trans hlevels.symm)))

/-- Two texts that replace a score and a count. -/
theorem parse_overrides_sparse :
    let text := "search: # scores\n  min_score: -0.5\n  window: 3\nicp: {max_iterations: 7}\n" ++
      "hill_climb:\n"
    let text' := "pyramid:\n  levels: 8\nicp:\n  max_iterations: 7\nsearch:\n  min_score: -0.5\n"
    let codec : Codec Float := Yaml.codec
    let config : MatchConfig Float :=
      { standard with search.minScore := -0.5, icp.maxIterations := 7 }
    ∃ node node' : Yaml.Node,
      codec.ofText? text = some node ∧ codec.entries? node = some sparseDocument ∧
      codec.ofText? text' = some node' ∧ codec.entries? node' = some reorderedDocument ∧
      Readable codec sparseDocument ∧ Rewords codec sparseDocument reorderedDocument ∧
      parse codec text = config.validate ∧ parse codec text' = config.validate := by
  intro text text' codec config
  let node (doc : List (String × Yaml.Node)) : Yaml.Node :=
    .mapping (doc.map fun e => (.plain e.1, e.2))
  have htext : Yaml.ofText? text = some (node sparseDocument) := by
    have htokens : (Yaml.characters? text).bind Yaml.tokens? =
        some [.blockMapping, .key, .plain "search", .value, .blockMapping, .key,
          .plain "min_score", .value, .plain "-0.5", .key, .plain "window", .value, .plain "3",
          .blockEnd, .key, .plain "icp", .value, .flowMapping, .key, .plain "max_iterations",
          .value, .plain "7", .flowMappingEnd, .key, .plain "hill_climb", .value, .blockEnd] := by
      decide +kernel
    rw [Yaml.ofText?_eq, htokens]
    rfl
  have htext' : Yaml.ofText? text' = some (node reorderedDocument) := by
    have htokens : (Yaml.characters? text').bind Yaml.tokens? =
        some [.blockMapping, .key, .plain "pyramid", .value, .blockMapping, .key,
          .plain "levels", .value, .plain "8", .blockEnd, .key, .plain "icp", .value,
          .blockMapping, .key, .plain "max_iterations", .value, .plain "7", .blockEnd, .key,
          .plain "search", .value, .blockMapping, .key, .plain "min_score", .value,
          .plain "-0.5", .blockEnd, .blockEnd] := by
      decide +kernel
    rw [Yaml.ofText?_eq, htokens]
    rfl
  have hdoc : (node sparseDocument).entries? = some sparseDocument := rfl
  have hdoc' : (node reorderedDocument).entries? = some reorderedDocument := rfl
  have hreadable : Readable codec sparseDocument := by decide +kernel
  have hconfig : standard.overriddenBy codec sparseDocument = config := by decide +kernel
  obtain ⟨hread, hreword⟩ := parse_overrides htext hdoc hreadable
  rw [hconfig] at hread hreword
  exact ⟨_, _, htext, hdoc, htext', hdoc', hreadable, rewords_sparse, hread,
    hreword _ _ _ htext' hdoc' rewords_sparse⟩

end MatchConfig

end ScanMatch
