import ScanMatch.Proofs.Numerals

/-!
# Configurations read back

A section writes each of its keys once, and reads the same keys. So a codec that reads back single
scalars and mappings reads back every configuration.
-/
namespace ScanMatch

theorem valueOf?_of_mem {N : Type} {entries : List (String × N)} {key : String} {value : N}
    (h : (entries.map Prod.fst).Nodup) (hmem : (key, value) ∈ entries) :
    valueOf? key entries = some (some value) := by
  have hfilter : entries.filter (·.1 = key) = [(key, value)] := by
    induction entries with
    | nil => cases hmem
    | cons e entries ih =>
      rw [List.map_cons, List.nodup_cons] at h
      rcases List.mem_cons.1 hmem with rfl | hmem
      · rw [List.filter_cons_of_pos (by simp), filter_key_eq_nil h.1]
      · have hne : e.1 ≠ key := fun heq => h.1 (heq ▸ List.mem_map_of_mem hmem)
        rw [List.filter_cons_of_neg (by simpa using hne), ih h.2 hmem]
  rw [valueOf?, hfilter]

namespace Codec

variable {R : Type} {codec : Codec R}

/-- Of a section that is written without double keys, each key reads as it was written. -/
theorem valueOr_nodes {α : Type} {entries : List (String × Datum R)}
    (hdistinct : (entries.map Prod.fst).Nodup) {key : String} {d : Datum R}
    (hlookup : entries.lookup key = some d) (read : codec.Node → Option α) (default : α) :
    valueOr key read default (codec.nodes entries) = read (codec.scalar d) := by
  have hmem : (key, codec.scalar d) ∈ codec.nodes entries := by
    obtain ⟨before, after, rfl, -⟩ := List.lookup_eq_some_iff.1 hlookup
    simp [nodes]
  have hkeys : ((codec.nodes entries).map Prod.fst).Nodup := by
    simpa [nodes, Function.comp_def] using hdistinct
  rw [valueOr, valueOf?_of_mem hkeys hmem]
  rfl

/-- Of a document without double names, each section reads as its entries were written. -/
theorem valueOr_fromEntries {α : Type} {sections : List (String × List (String × Datum R))}
    (hdistinct : (sections.map Prod.fst).Nodup) {entries : List (String × codec.Node)}
    (hentries : entries.map (fun e => (e.1, codec.entries? e.2)) =
      sections.map fun s => (s.1, some (codec.nodes s.2)))
    {name : String} {settings : List (String × Datum R)} (hmem : (name, settings) ∈ sections)
    (read : List (String × codec.Node) → Option α) (default : α) :
    valueOr name (codec.fromEntries? read) default entries = read (codec.nodes settings) := by
  have hkeys : (entries.map Prod.fst).Nodup := by
    have hnames : entries.map Prod.fst = sections.map Prod.fst := by
      simpa [Function.comp_def] using congrArg (List.map Prod.fst) hentries
    rwa [hnames]
  have hwritten : (name, some (codec.nodes settings)) ∈
      entries.map fun e => (e.1, codec.entries? e.2) := by
    rw [hentries]
    exact List.mem_map.2 ⟨(name, settings), hmem, rfl⟩
  obtain ⟨⟨key, node⟩, hnode, heq⟩ := List.mem_map.1 hwritten
  obtain ⟨rfl, hread⟩ := Prod.mk.inj heq
  rw [valueOr, valueOf?_of_mem hkeys hnode]
  exact congrArg (Option.bind · read) hread

end Codec

/-- Whether the scalar is a number that is none. -/
def Datum.isNaN {R : Type} [Arith R] : Datum R → Bool
  | .number x => Arith.isNaN x
  | _ => false

namespace Codec.ScalarsReadBack

variable {R : Type} [Arith R] {codec : Codec R} (h : codec.ScalarsReadBack)
  {entries : List (String × Datum R)} (hdistinct : (entries.map Prod.fst).Nodup)

include h hdistinct

theorem valueOr_count (key : String) {width : Width} {n : Nat}
    (hlookup : entries.lookup key = some (.count n)) (hn : n ≤ width.greatest) (default : Nat) :
    valueOr key (codec.count? width) default (codec.nodes entries) = some n := by
  rw [valueOr_nodes hdistinct hlookup, h.count width n hn]

theorem valueOr_number (hnumeric : ∀ e ∈ entries, e.2.isNaN = false) (key : String) {x : R}
    (hlookup : entries.lookup key = some (.number x)) (default : R) :
    valueOr key codec.number? default (codec.nodes entries) = some x := by
  obtain ⟨before, after, hentries, -⟩ := List.lookup_eq_some_iff.1 hlookup
  have hx : Arith.isNaN x = false := hnumeric (key, .number x) (by simp [hentries])
  rw [valueOr_nodes hdistinct hlookup, h.number x hx]

theorem valueOr_flag (key : String) {b : Bool} (hlookup : entries.lookup key = some (.flag b))
    (default : Bool) :
    valueOr key codec.flag? default (codec.nodes entries) = some b := by
  rw [valueOr_nodes hdistinct hlookup, h.flag b]

end Codec.ScalarsReadBack

/-! ### Sections -/

section

variable {R : Type} [Scalar R] {codec : Codec R} (h : codec.ScalarsReadBack)

include h

theorem PyramidSection.ofEntries?_nodes {c : PyramidSection}
    (hlevels : c.levels ≤ Width.bits64.greatest) :
    ofEntries? codec (codec.nodes c.entries) = some c := by
  have hdistinct : ((c.entries : List (String × Datum R)).map Prod.fst).Nodup := by simp [entries]
  have hread := h.valueOr_count hdistinct "levels" rfl hlevels Defaults.pyramidLevels
  simp only [ofEntries?, hread]
  rfl

theorem SearchSection.ofEntries?_nodes {c : SearchSection R}
    (hnumeric : ∀ e ∈ c.entries, e.2.isNaN = false) :
    ofEntries? codec (codec.nodes c.entries) = some c := by
  have hdistinct : (c.entries.map Prod.fst).Nodup := by simp [entries]
  have htranslation :=
    h.valueOr_number hdistinct hnumeric "translation_window" rfl Defaults.translationWindow
  have hrotation :=
    h.valueOr_number hdistinct hnumeric "rotation_window" rfl Defaults.rotationWindow
  have hstep := h.valueOr_number hdistinct hnumeric "rotation_step" rfl Defaults.rotationStep
  have hscore := h.valueOr_number hdistinct hnumeric "min_score" rfl Defaults.minScore
  have hscale := h.valueOr_flag hdistinct "scale_by_point_count" rfl Defaults.enabled
  simp only [ofEntries?, htranslation, hrotation, hstep, hscore, hscale]
  rfl

theorem ClimbParams.ofEntries?_nodes {c : ClimbParams R}
    (hnumeric : ∀ e ∈ c.entries, e.2.isNaN = false)
    (hshrinks : c.maxShrinks ≤ Width.bits32.greatest)
    (hiterations : c.maxIterations ≤ Width.bits32.greatest) :
    ofEntries? codec (codec.nodes c.entries) = some c := by
  have hdistinct : (c.entries.map Prod.fst).Nodup := by simp [entries]
  have hx := h.valueOr_number hdistinct hnumeric "step_x" rfl defaultStep
  have hy := h.valueOr_number hdistinct hnumeric "step_y" rfl defaultStep
  have htheta := h.valueOr_number hdistinct hnumeric "step_theta" rfl defaultStepTheta
  have hfactor := h.valueOr_number hdistinct hnumeric "shrink_factor" rfl defaultShrinkFactor
  have hmost := h.valueOr_count hdistinct "max_shrinks" rfl hshrinks defaultMaxShrinks
  have hbudget := h.valueOr_count hdistinct "max_iterations" rfl hiterations defaultMaxIterations
  simp only [ofEntries?, hx, hy, htheta, hfactor, hmost, hbudget]
  rfl

theorem AlignParams.ofEntries?_nodes {c : AlignParams R}
    (hnumeric : ∀ e ∈ c.entries, e.2.isNaN = false)
    (hiterations : c.maxIterations ≤ Width.bits32.greatest) :
    ofEntries? codec (codec.nodes c.entries) = some c := by
  have hdistinct : (c.entries.map Prod.fst).Nodup := by simp [entries]
  have hratio := h.valueOr_number hdistinct hnumeric "max_dist_ratio" rfl defaultMaxDistRatio
  have htranslation := h.valueOr_number hdistinct hnumeric "trans_thresh" rfl defaultTransThresh
  have hrotation := h.valueOr_number hdistinct hnumeric "rad_thresh" rfl defaultRadThresh
  have hbudget := h.valueOr_count hdistinct "max_iterations" rfl hiterations
    defaultMaxIterations
  simp only [ofEntries?, hratio, htranslation, hrotation, hbudget]
  rfl

end

/-! ### Configurations -/

namespace MatchConfig

variable {R : Type}

/-- The counts of a configuration fit the types that they are read into. -/
structure Fits (c : MatchConfig R) : Prop where
  levels : c.pyramid.levels ≤ Width.bits64.greatest
  maxShrinks : c.hillClimb.maxShrinks ≤ Width.bits32.greatest
  climbIterations : c.hillClimb.maxIterations ≤ Width.bits32.greatest
  alignIterations : c.icp.maxIterations ≤ Width.bits32.greatest

/-- All numbers of a configuration are numbers. -/
def IsNumeric [Arith R] (c : MatchConfig R) : Prop :=
  ∀ s ∈ c.sections, ∀ e ∈ s.2, e.2.isNaN = false

instance [Arith R] (c : MatchConfig R) : Decidable c.IsNumeric :=
  inferInstanceAs (Decidable (∀ s ∈ c.sections, ∀ e ∈ s.2, e.2.isNaN = false))

theorem sections_isName (c : MatchConfig R) :
    ∀ s ∈ c.sections, Codec.isName s.1 ∧ s.2 ≠ [] ∧ ∀ e ∈ s.2, Codec.isName e.1 := by
  simp only [sections, PyramidSection.entries, SearchSection.entries, ClimbParams.entries,
    AlignParams.entries, List.forall_mem_cons, List.not_mem_nil, IsEmpty.forall_iff, implies_true,
    and_true, ne_eq, List.cons_ne_nil, not_false_eq_true, true_and]
  decide

variable [Scalar R] {codec : Codec R}

/-- A document with the sections of a configuration reads as the configuration. -/
theorem ofNode?_sections (hscalars : codec.ScalarsReadBack) {c : MatchConfig R} (hfits : c.Fits)
    (hnumeric : c.IsNumeric) {node : codec.Node} {entries : List (String × codec.Node)}
    (hnode : codec.entries? node = some entries)
    (hentries : entries.map (fun e => (e.1, codec.entries? e.2)) =
      c.sections.map fun s => (s.1, some (codec.nodes s.2))) :
    ofNode? codec node = some c := by
  have hdistinct : (c.sections.map Prod.fst).Nodup := by simp [sections]
  have hpyramid : ("pyramid", c.pyramid.entries) ∈ c.sections := by simp [sections]
  have hsearch : ("search", c.search.entries) ∈ c.sections := by simp [sections]
  have hhillClimb : ("hill_climb", c.hillClimb.entries) ∈ c.sections := by simp [sections]
  have hicp : ("icp", c.icp.entries) ∈ c.sections := by simp [sections]
  simp only [ofNode?, hnode, Option.bind_eq_bind, Option.bind_some,
    Codec.valueOr_fromEntries hdistinct hentries hpyramid,
    Codec.valueOr_fromEntries hdistinct hentries hsearch,
    Codec.valueOr_fromEntries hdistinct hentries hhillClimb,
    Codec.valueOr_fromEntries hdistinct hentries hicp,
    PyramidSection.ofEntries?_nodes hscalars hfits.levels,
    SearchSection.ofEntries?_nodes hscalars (hnumeric _ hsearch),
    ClimbParams.ofEntries?_nodes hscalars (hnumeric _ hhillClimb) hfits.maxShrinks
      hfits.climbIterations,
    AlignParams.ofEntries?_nodes hscalars (hnumeric _ hicp) hfits.alignIterations]
  rfl

/-- An accepted configuration is read back from its document with every setting as it was. -/
theorem parse_write (hscalars : codec.ScalarsReadBack) (hmappings : codec.MappingsReadBack)
    {c c' : MatchConfig R} (haccepted : c.validate = .ok c') (hfits : c.Fits)
    (hnumeric : c.IsNumeric) :
    ∃ text, c.write codec = .ok text ∧ parse codec text = .ok c := by
  obtain ⟨text, node, entries, hwrite, htext, hnode, hentries⟩ :=
    hmappings c.sections (List.cons_ne_nil _ _) c.sections_isName
  obtain ⟨rfl, -⟩ := validate_eq_ok.mp haccepted
  refine ⟨text, ?_, ?_⟩
  · rw [write, hwrite]
  · rw [parse_eq htext (ofNode?_sections hscalars hfits hnumeric hnode hentries), haccepted]

/-- Counts at their limits, infinite windows, a negative zero and the least positive number. -/
def outermost : MatchConfig Float where
  pyramid := ⟨18446744073709551615⟩
  search := ⟨1 / 0, 1 / 0, 5e-324, -1 / 0, false⟩
  hillClimb := ⟨1 / 0, 1.7976931348623157e308, 0.1, 0.3, 4294967295, 0⟩
  icp := ⟨1e16, -0, 1e-5, 4294967295⟩

theorem parse_write_outermost :
    (Yaml.codec : Codec Float).ScalarsReadBack ∧ (Yaml.codec : Codec Float).MappingsReadBack ∧
    outermost.validate = .ok outermost ∧ outermost.Fits ∧ outermost.IsNumeric ∧
    outermost.write Yaml.codec = .ok outermost.toYaml ∧
    ofYaml outermost.toYaml = .ok outermost := by
  have haccepted : outermost.validate = .ok outermost := by decide +kernel
  have hfits : outermost.Fits := by constructor <;> decide
  have hnumeric : outermost.IsNumeric := by decide +kernel
  obtain ⟨text, hwrite, hread⟩ := parse_write Yaml.codec_scalarsReadBack
    Yaml.codec_mappingsReadBack haccepted hfits hnumeric
  obtain rfl : outermost.toYaml = text := Except.ok.inj (outermost.write_yaml.symm.trans hwrite)
  exact ⟨Yaml.codec_scalarsReadBack, Yaml.codec_mappingsReadBack, haccepted, hfits, hnumeric,
    hwrite, hread⟩

end MatchConfig

end ScanMatch
