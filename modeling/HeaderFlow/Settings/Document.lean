import HeaderFlow.Document.Reader
import HeaderFlow.Settings.Basic

/-!
# Settings as documents

A settings document has a version, the name of a preset, and optionally a mapping of overrides,
which are **merged mapping by mapping over the values of the preset**. The document of given
settings names their preset, and lists all values as overrides if that preset is `custom`.

A mapping of settings may leave out fields, which then have the values of `balanced`, and may not
have others. Types are not converted: a quoted number is no number. The kind of a value, if it has
one, is the name of a choice and otherwise does not matter; but **a mapping with a kind is not
merged**.

The language of the texts is a parameter (`Document.Codec`). Nothing here knows how values look in
it.
-/

namespace HeaderFlow

open Document (Value Scalar Codec)

/-! ### Values of fields -/

namespace Document.Value

/-- The truth value. -/
def bool? (v : Value) : Option Bool :=
  match v.untagged with
  | .scalar (.bool b) => some b
  | _ => none

/-- The natural number below `bound`. -/
def natBelow? (bound : Nat) (v : Value) : Option Nat :=
  match v.untagged with
  | .scalar (.int (.ofNat n)) => if n < bound then some n else none
  | _ => none

/-- The natural number of 64 bits. -/
def word? (v : Value) : Option UInt64 := (v.natBelow? UInt64.size).map UInt64.ofNat

/-- The string. -/
def string? (v : Value) : Option String :=
  match v.untagged with
  | .scalar (.string s) => some s
  | _ => none

end Document.Value

/-! ### From settings to values -/

/-- The mapping of all fields. -/
def AnomalyChecks.toValue (a : AnomalyChecks) : Value :=
  .record [("shadow", .bool a.shadow), ("reach", .bool a.reach),
    ("generalization", .bool a.generalization)]

namespace Settings

/-- The mapping of all fields. -/
def toValue (s : Settings) : Value :=
  .record [("loop_detection", .string s.loopDetection.name), ("check_shadow", .bool s.checkShadow),
    ("check_blackholes", .bool s.checkBlackholes), ("anomalies", s.anomalies.toValue),
    ("max_depth", .nat s.maxDepth.toNat), ("max_visits", .nat s.maxVisits.toNat),
    ("timeout_ms", .nat s.timeoutMs.toNat)]

/-- The document from which the settings can be read back. -/
def toDocument (s : Settings) : Value :=
  let head := [("version", Value.nat 1), ("preset", .string s.preset.name)]
  .record <| if s.preset = .custom then head ++ [("overrides", s.toValue)] else head

/-- The text of `toDocument`. -/
def writeBy (codec : Codec) (s : Settings) : String := codec.write s.toDocument

end Settings

/-! ### From values to settings -/

/-- The two forms in which values arrive, which allow different shorthands for the same settings. -/
inductive Form where
  /-- Part of a document: null stands for a mapping without entries. -/
  | document
  /-- A record: a sequence gives the values of the fields in their order, and a choice may be a
  mapping from its name to null. -/
  | record
  deriving DecidableEq

/-- The values of named fields, **no field twice**. -/
def namedFields? (entries : List (Value × Value)) : Option (List (String × Value)) := do
  let fields ← entries.mapM fun (k, v) ↦ return (← k.string?, v)
  if (fields.map Prod.fst).Nodup then some fields else none

/-- The values of the fields that a value gives: those of a mapping, **none if it is null in a
document, and those of the first of `fields` for a sequence in a record**, which has no more items
than there are fields. -/
def Form.fields? (form : Form) (fields : List String) (v : Value) :
    Option (List (String × Value)) :=
  match v.untagged with
  | .map entries => namedFields? entries
  | .scalar .null => if form = .document then some [] else none
  | .seq items =>
    if form = .record ∧ items.length ≤ fields.length then some (fields.zip items) else none
  | _ => none

/-- The names of the fields of the checks, in their order. -/
def AnomalyChecks.fields : List String := ["shadow", "reach", "generalization"]

/-- Sets one field of the checks. -/
def AnomalyChecks.setField (a : AnomalyChecks) (field : String) (v : Value) :
    Option AnomalyChecks :=
  match field with
  | "shadow" => v.bool?.map fun b ↦ { a with shadow := b }
  | "reach" => v.bool?.map fun b ↦ { a with reach := b }
  | "generalization" => v.bool?.map fun b ↦ { a with generalization := b }
  | _ => none

/-- Reads the checks; fields that are left out have their usual values. -/
def AnomalyChecks.ofValue? (form : Form) (v : Value) : Option AnomalyChecks := do
  (← form.fields? fields v).foldlM (fun a (f, w) ↦ a.setField f w) {}

/-- Reads a way of detecting loops by its name, which may also be the kind of null. -/
def LoopDetection.ofValue? (form : Form) : Value → Option LoopDetection
  | .scalar (.string s) => ofName? s
  | .tagged kind v =>
    match v.untagged with
    | .scalar .null => ofName? kind
    | _ => none
  | .map [(.scalar (.string s), .scalar .null)] => if form = .record then ofName? s else none
  | _ => none

namespace Settings

/-- The names of the fields, in their order. -/
def fields : List String :=
  ["loop_detection", "check_shadow", "check_blackholes", "anomalies", "max_depth", "max_visits",
    "timeout_ms"]

/-- Sets one field. -/
def setField (form : Form) (s : Settings) (field : String) (v : Value) : Option Settings :=
  match field with
  | "loop_detection" => (LoopDetection.ofValue? form v).map fun l ↦ { s with loopDetection := l }
  | "check_shadow" => v.bool?.map fun b ↦ { s with checkShadow := b }
  | "check_blackholes" => v.bool?.map fun b ↦ { s with checkBlackholes := b }
  | "anomalies" => (AnomalyChecks.ofValue? form v).map fun a ↦ { s with anomalies := a }
  | "max_depth" => v.word?.map fun n ↦ { s with maxDepth := n }
  | "max_visits" => v.word?.map fun n ↦ { s with maxVisits := n }
  | "timeout_ms" => v.word?.map fun n ↦ { s with timeoutMs := n }
  | _ => none

/-- Reads settings, without judging their values; a field left out has that of `balanced`. -/
def ofValue? (form : Form) (v : Value) : Option Settings := do
  (← form.fields? fields v).foldlM (fun s (f, w) ↦ s.setField form f w) default

/-- The parts of a settings document. -/
structure Header where
  version : Nat
  preset : String
  overrides : Option Value

/-- The names of the parts. -/
def Header.fields : List String := ["version", "preset", "overrides"]

/-- Reads the parts of a document, which must be these and no others. -/
def Header.ofValue? (doc : Value) : Option Header := do
  let parts ← Form.document.fields? fields doc
  guard <| parts.all fun (f, _) ↦ fields.contains f
  let version ← (← parts.lookup "version").natBelow? UInt32.size
  let preset ← (← parts.lookup "preset").string?
  let overrides := match parts.lookup "overrides" with
    | some (.scalar .null) => none
    | o => o
  return { version, preset, overrides }

/-- Reads settings from a document. The version is missed **if no key without a kind names it**. -/
def ofDocument (doc : Value) : Except SettingsError Settings := do
  if (doc.get? "version").isNone then throw .missingVersion
  let some header := Header.ofValue? doc | throw .malformed
  if header.version ≠ 1 then throw (.unsupportedVersion header.version)
  let some preset := Preset.ofName? header.preset | throw (.unknownPreset header.preset)
  let values := match header.overrides with
    | some o => preset.settings.toValue.overlay o
    | none => preset.settings.toValue
  let some settings := ofValue? .document values | throw .malformed
  settings.validate
  return settings

/-- Reads settings from the text of a document. -/
def readBy (codec : Codec) (text : String) : Except SettingsError Settings :=
  match codec.read? text with
  | some doc => ofDocument doc
  | none => .error .malformed

/-- Reads settings from the contents of a file, which are missing if the file is. -/
def loadBy (codec : Codec) (contents : Option String) : Except SettingsError Settings :=
  match contents with
  | some text => readBy codec text
  | none => .error .unreadable

/-! ### Settings in YAML -/

def write : Settings → String := writeBy .yaml

def read : String → Except SettingsError Settings := readBy .yaml

def load : Option String → Except SettingsError Settings := loadBy .yaml

end Settings

end HeaderFlow
