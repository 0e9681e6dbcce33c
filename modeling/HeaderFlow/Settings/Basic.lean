import HeaderFlow.Document.Value

/-!
# Settings

How a network is watched: when a flow counts as looping, which findings are reported, and how much
work one change may cause. *Presets* name four ready-made choices; the last of them, `custom`,
stands for settings that agree with no other preset and starts from the values of `balanced`.
-/

namespace HeaderFlow

/-- When a flow loops. -/
inductive LoopDetection where
  /-- When it comes back to a rule. -/
  | rule
  /-- When it comes back to a table. -/
  | table
  deriving DecidableEq, Repr

namespace LoopDetection

/-- The bits of a node's identifier that decide whether two visits are at the same place. The table
of a rule is in the upper half. -/
def keyMask : LoopDetection → UInt64
  | .rule => 0xffffffffffffffff
  | .table => 0xffffffff00000000

/-- The written form. -/
def name : LoopDetection → String
  | .rule => "rule"
  | .table => "table"

/-- Reads the written form. -/
def ofName? : String → Option LoopDetection
  | "rule" => some .rule
  | "table" => some .table
  | _ => none

end LoopDetection

/-- Which findings an audit reports. -/
structure AnomalyChecks where
  /-- Rules that rules of higher priority cover. -/
  shadow : Bool := true
  /-- Rules below rules that cover every header. -/
  reach : Bool := true
  /-- Rules that rules of lower priority cover. -/
  generalization : Bool := false
  deriving DecidableEq, Repr

/-- How a network is watched. -/
structure Settings where
  loopDetection : LoopDetection
  /-- Report a new rule that is shadowed or unreachable. -/
  checkShadow : Bool
  /-- Report a flow of which only a part enters a pipe. -/
  checkBlackholes : Bool
  anomalies : AnomalyChecks
  /-- How deep visits of flows may be nested. -/
  maxDepth : UInt64
  /-- How many visits of flows a change may cause; `0` is no limit. -/
  maxVisits : UInt64
  /-- How many milliseconds a change may take; `0` is no limit. -/
  timeoutMs : UInt64
  deriving DecidableEq, Repr

/-- Ready-made settings. -/
inductive Preset where
  | fast
  | balanced
  | thorough
  | custom
  deriving DecidableEq, Repr

namespace Preset

/-- The name of a preset. -/
def name : Preset → String
  | .fast => "fast"
  | .balanced => "balanced"
  | .thorough => "thorough"
  | .custom => "custom"

/-- Reads a name, in which case does not matter. None of the letters in these names is the small
form of a letter outside ASCII, so only ASCII letters need be made small. -/
def ofName? (s : String) : Option Preset :=
  match s.map Char.toLower with
  | "fast" => some .fast
  | "balanced" => some .balanced
  | "thorough" => some .thorough
  | "custom" => some .custom
  | _ => none

/-- The settings of a preset. -/
def settings : Preset → Settings
  | .fast =>
    { loopDetection := .table, checkShadow := false, checkBlackholes := false, anomalies := {}
      maxDepth := 256, maxVisits := 250000, timeoutMs := 0 }
  | .balanced | .custom =>
    { loopDetection := .table, checkShadow := true, checkBlackholes := false, anomalies := {}
      maxDepth := 512, maxVisits := 1000000, timeoutMs := 0 }
  | .thorough =>
    { loopDetection := .rule, checkShadow := true, checkBlackholes := true
      anomalies := { generalization := true }
      maxDepth := 4096, maxVisits := 0, timeoutMs := 0 }

end Preset

/-- Why settings could not be obtained. -/
inductive SettingsError where
  /-- The nesting depth is out of range. -/
  | depthOutOfRange (value : UInt64)
  /-- The document does not say which version it has. -/
  | missingVersion
  /-- The document has a version that is not known. -/
  | unsupportedVersion (found : Nat)
  /-- The document starts from a preset that does not exist. -/
  | unknownPreset (name : String)
  /-- There is no document. -/
  | unreadable
  /-- The text is no document, or its values do not fit. -/
  | malformed
  deriving DecidableEq, Repr

namespace SettingsError

/-- The wording of an unknown preset. -/
def unknownPresetText (name : String) : String :=
  s!"Unknown preset '{name}'. Valid presets: fast, balanced, thorough, custom"

/-- The wording of an error, where it has one. -/
def message? : SettingsError → Option String
  | .depthOutOfRange v => some <|
    s!"Invalid range for field 'max_depth': {v} not in 1..=100000. " ++
      "Flow chains need at least one hop; very deep limits risk stack exhaustion"
  | .missingVersion => some <|
    "Missing 'version' field in configuration file. " ++
      "Add 'version: 1' to the top of your YAML file."
  | .unsupportedVersion v => some s!"Unsupported configuration version {v}. Supported versions: 1"
  | .unknownPreset n => some (unknownPresetText n)
  | .unreadable | .malformed => none

end SettingsError

namespace Settings

/-- The settings used where none are given. -/
def default : Settings := Preset.balanced.settings

/-- The greatest depth to which visits may be nested. -/
def depthLimit : UInt64 := 100000

/-- The depth must be at least one and at most `depthLimit`. -/
def validate (s : Settings) : Except SettingsError Unit :=
  if s.maxDepth = 0 ∨ depthLimit < s.maxDepth then .error (.depthOutOfRange s.maxDepth)
  else .ok ()

/-- The first preset with these very settings, or `custom`. -/
def preset (s : Settings) : Preset :=
  ([Preset.fast, .balanced, .thorough].find? fun p ↦ p.settings = s).getD .custom

/-- The time that a change may take, if it is limited. -/
def timeout? (s : Settings) : Option UInt64 := if s.timeoutMs = 0 then none else some s.timeoutMs

end Settings

end HeaderFlow
