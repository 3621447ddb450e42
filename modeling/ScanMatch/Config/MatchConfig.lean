import ScanMatch.Config.Codec
import ScanMatch.Refine.Alignment
import ScanMatch.Refine.Climb
import ScanMatch.Search.Request
import ScanMatch.Yaml.Codec

/-!
# Configurations

All settings of the matcher, by section. A configuration is read from a document, where every key
has a default, as has every section, is checked for its ranges, and is written back with all its
keys.
-/
namespace ScanMatch

structure PyramidSection where
  /-- Number of levels, the base included. -/
  levels : Nat
  deriving DecidableEq, Repr

structure SearchSection (R : Type) where
  /-- Half the width of the translation window in meters. -/
  translationWindow : R
  rotationWindow : R
  rotationStep : R
  /-- Least score before the prior penalty. -/
  minScore : R
  /-- Whether raw scores are divided by the number of points. -/
  scaleByPointCount : Bool
  deriving DecidableEq, Repr

structure MatchConfig (R : Type) where
  pyramid : PyramidSection
  search : SearchSection R
  hillClimb : ClimbParams R
  icp : AlignParams R
  deriving DecidableEq, Repr

inductive ConfigError (R : Type) where
  | unreadable
  | noText
  | tooFewLevels (levels : Nat)
  | negativeWindow
  | stepNotPositive (step : R)
  | shrinkOutOfRange (factor : R)
  | climbStepNotPositive
  | ratioNotPositive (ratio : R)
  | negativeThreshold
  deriving DecidableEq, Repr

def ConfigError.message {R : Type} (number : R → String) : ConfigError R → String
  | .unreadable => "Parse error"
  | .noText => "I/O error"
  | .tooFewLevels levels =>
    "Invalid parameter: pyramid.levels must be >= 2, got " ++ toString levels
  | .negativeWindow => "Invalid parameter: search windows must be non-negative"
  | .stepNotPositive step =>
    "Invalid parameter: search.rotation_step must be positive, got " ++ number step
  | .shrinkOutOfRange factor =>
    "Invalid parameter: hill_climb.shrink_factor must be in (0, 1), got " ++ number factor
  | .climbStepNotPositive => "Invalid parameter: hill_climb steps must be positive"
  | .ratioNotPositive ratio =>
    "Invalid parameter: icp.max_dist_ratio must be positive, got " ++ number ratio
  | .negativeThreshold => "Invalid parameter: icp thresholds must be non-negative"

/-! ### Writing -/

section

variable {R : Type}

def PyramidSection.entries (c : PyramidSection) : List (String × Datum R) :=
  [("levels", .count c.levels)]

def SearchSection.entries (c : SearchSection R) : List (String × Datum R) :=
  [("translation_window", .number c.translationWindow),
    ("rotation_window", .number c.rotationWindow), ("rotation_step", .number c.rotationStep),
    ("min_score", .number c.minScore), ("scale_by_point_count", .flag c.scaleByPointCount)]

def ClimbParams.entries (c : ClimbParams R) : List (String × Datum R) :=
  [("step_x", .number c.stepX), ("step_y", .number c.stepY), ("step_theta", .number c.stepTheta),
    ("shrink_factor", .number c.shrinkFactor), ("max_shrinks", .count c.maxShrinks),
    ("max_iterations", .count c.maxIterations)]

def AlignParams.entries (c : AlignParams R) : List (String × Datum R) :=
  [("max_dist_ratio", .number c.maxDistRatio), ("trans_thresh", .number c.transThresh),
    ("rad_thresh", .number c.radThresh), ("max_iterations", .count c.maxIterations)]

/-- The sections of a configuration with their keys and scalars. -/
def MatchConfig.sections (c : MatchConfig R) : List (String × List (String × Datum R)) :=
  [("pyramid", c.pyramid.entries), ("search", c.search.entries),
    ("hill_climb", c.hillClimb.entries), ("icp", c.icp.entries)]

/-- The text of a configuration. What cannot be written is reported as what cannot be read. -/
def MatchConfig.write (codec : Codec R) (c : MatchConfig R) : Except (ConfigError R) String :=
  match codec.toText? c.sections with
  | some text => .ok text
  | none => .error .unreadable

end

variable {R : Type} [Scalar R]

/-! ### Defaults

Each setting that is not given has a value of its own, and a section that is not there is the
standard one. -/

namespace Defaults

def pyramidLevels : Nat := 8

def translationWindow : R := 1

def rotationWindow : R := Scalar.ofDegrees 20

def rotationStep : R := Scalar.ofDegrees 1

def minScore : R := -100

def enabled : Bool := true

end Defaults

def PyramidSection.standard : PyramidSection := ⟨Defaults.pyramidLevels⟩

def SearchSection.standard : SearchSection R :=
  { translationWindow := Defaults.translationWindow, rotationWindow := Defaults.rotationWindow
    rotationStep := Defaults.rotationStep, minScore := Defaults.minScore
    scaleByPointCount := Defaults.enabled }

/-- The configuration where nothing is given. -/
def MatchConfig.standard : MatchConfig R := ⟨.standard, .standard, .standard, .standard⟩

/-! ### Requests -/

/-- The request for the section's windows around an estimated pose. Translation bounds go outward
to whole pixels. -/
def SearchSection.requestAround {S : Type} [Precision S R] (windows : SearchSection R)
    (estimate : Pose R) (metersPerPixel : S) (numPoints : Nat) : Request R :=
  let resolution : R := widen metersPerPixel
  let low (c : R) : Int :=
    Scalar.toInt32 (Scalar.floor ((c - windows.translationWindow) / resolution))
  let high (c : R) : Int :=
    Scalar.toInt32 (Scalar.ceil ((c + windows.translationWindow) / resolution))
  { tx0 := low estimate.x, tx1 := high estimate.x, ty0 := low estimate.y, ty1 := high estimate.y
    rotationMin := estimate.theta - windows.rotationWindow
    rotationMax := estimate.theta + windows.rotationWindow
    rotationStep := windows.rotationStep
    scale :=
      if windows.scaleByPointCount && decide (0 < numPoints) then
        1 / Arith.ofInt (numPoints : Nat)
      else 1
    prior := none
    minScore := some windows.minScore }

/-! ### Reading -/

def PyramidSection.ofEntries? (codec : Codec R) (entries : List (String × codec.Node)) :
    Option PyramidSection := do
  let levels ← valueOr "levels" (codec.count? .bits64) Defaults.pyramidLevels entries
  return { levels }

def SearchSection.ofEntries? (codec : Codec R) (entries : List (String × codec.Node)) :
    Option (SearchSection R) := do
  let translationWindow ←
    valueOr "translation_window" codec.number? Defaults.translationWindow entries
  let rotationWindow ← valueOr "rotation_window" codec.number? Defaults.rotationWindow entries
  let rotationStep ← valueOr "rotation_step" codec.number? Defaults.rotationStep entries
  let minScore ← valueOr "min_score" codec.number? Defaults.minScore entries
  let scaleByPointCount ← valueOr "scale_by_point_count" codec.flag? Defaults.enabled entries
  return { translationWindow, rotationWindow, rotationStep, minScore, scaleByPointCount }

def ClimbParams.ofEntries? (codec : Codec R) (entries : List (String × codec.Node)) :
    Option (ClimbParams R) := do
  let stepX ← valueOr "step_x" codec.number? defaultStep entries
  let stepY ← valueOr "step_y" codec.number? defaultStep entries
  let stepTheta ← valueOr "step_theta" codec.number? defaultStepTheta entries
  let shrinkFactor ← valueOr "shrink_factor" codec.number? defaultShrinkFactor entries
  let maxShrinks ← valueOr "max_shrinks" (codec.count? .bits32) defaultMaxShrinks entries
  let maxIterations ← valueOr "max_iterations" (codec.count? .bits32) defaultMaxIterations entries
  return { stepX, stepY, stepTheta, shrinkFactor, maxShrinks, maxIterations }

def AlignParams.ofEntries? (codec : Codec R) (entries : List (String × codec.Node)) :
    Option (AlignParams R) := do
  let maxDistRatio ← valueOr "max_dist_ratio" codec.number? defaultMaxDistRatio entries
  let transThresh ← valueOr "trans_thresh" codec.number? defaultTransThresh entries
  let radThresh ← valueOr "rad_thresh" codec.number? defaultRadThresh entries
  let maxIterations ← valueOr "max_iterations" (codec.count? .bits32) defaultMaxIterations entries
  return { maxDistRatio, transThresh, radThresh, maxIterations }

namespace MatchConfig

/-- The configuration, if all its values are in range. The first that is not is named. -/
def validate (c : MatchConfig R) : Except (ConfigError R) (MatchConfig R) := do
  if c.pyramid.levels < 2 then throw (.tooFewLevels c.pyramid.levels)
  if c.search.translationWindow < 0 ∨ c.search.rotationWindow < 0 then throw .negativeWindow
  if c.search.rotationStep ≤ 0 then throw (.stepNotPositive c.search.rotationStep)
  if ¬ (0 < c.hillClimb.shrinkFactor ∧ c.hillClimb.shrinkFactor < 1) then
    throw (.shrinkOutOfRange c.hillClimb.shrinkFactor)
  if c.hillClimb.stepX ≤ 0 ∨ c.hillClimb.stepY ≤ 0 ∨ c.hillClimb.stepTheta ≤ 0 then
    throw .climbStepNotPositive
  if c.icp.maxDistRatio ≤ 0 then throw (.ratioNotPositive c.icp.maxDistRatio)
  if c.icp.transThresh < 0 ∨ c.icp.radThresh < 0 then throw .negativeThreshold
  return c

/-- The configuration of a document. A section that is not there is the standard one. -/
def ofNode? (codec : Codec R) (node : codec.Node) : Option (MatchConfig R) := do
  let entries ← codec.entries? node
  let pyramid ←
    valueOr "pyramid" (codec.fromEntries? <| PyramidSection.ofEntries? codec) .standard entries
  let search ←
    valueOr "search" (codec.fromEntries? <| SearchSection.ofEntries? codec) .standard entries
  let hillClimb ←
    valueOr "hill_climb" (codec.fromEntries? <| ClimbParams.ofEntries? codec) .standard entries
  let icp ← valueOr "icp" (codec.fromEntries? <| AlignParams.ofEntries? codec) .standard entries
  return { pyramid, search, hillClimb, icp }

/-- The configuration of a text, read and checked. -/
def parse (codec : Codec R) (text : String) : Except (ConfigError R) (MatchConfig R) :=
  match (codec.ofText? text).bind (ofNode? codec) with
  | some c => c.validate
  | none => .error .unreadable

theorem parse_eq {codec : Codec R} {text : String} {node : codec.Node} {c : MatchConfig R}
    (htext : codec.ofText? text = some node) (hread : ofNode? codec node = some c) :
    parse codec text = c.validate := by
  rw [parse, htext, Option.bind_some, hread]

/-! ### YAML -/

variable [Numeral R]

def ofYaml (text : String) : Except (ConfigError R) (MatchConfig R) := parse Yaml.codec text

/-- The configuration of a file with the given bytes, if there is such a file. -/
def load (bytes : Option ByteArray) : Except (ConfigError R) (MatchConfig R) :=
  match bytes.bind String.fromUTF8? with
  | some text => ofYaml text
  | none => .error .noText

def toYaml (c : MatchConfig R) : String := Yaml.render (Yaml.scalarTexts c.sections)

omit [Scalar R] in
theorem write_yaml (c : MatchConfig R) : c.write Yaml.codec = .ok c.toYaml := rfl

end MatchConfig

end ScanMatch
