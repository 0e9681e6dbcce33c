import Mathlib.Data.List.Forall2
import Mathlib.Data.List.Perm.Basic
import HeaderFlow.Settings.Document

/-!
# Overriding the settings of a preset

A document of settings names a preset and lists values for some of the fields, in any order. What
comes of it is **the preset with exactly these fields replaced**, and inside the checks exactly the
flags that are listed.

An override is taken apart from the way it is written: `Override.apply` says what it does to
settings, `Override.Written` which values stand for it. In the same way `Shows` says that a mapping
has a value for every field of given settings. Overlaying one more entry keeps up with applying one
more override (`shows_apply`), and a mapping that shows settings is read as these settings
(`ofValue?_of_shows`).
-/

namespace HeaderFlow

open Document (Value Scalar)

/-! ### What values stand for -/

/-- The value is this scalar, of whatever kind. -/
def Document.Value.Is (v : Value) (s : Scalar) : Prop := v.untagged = .scalar s

/-- The value stands for a way of detecting loops: it is its name, or null of the kind with this
name. -/
inductive LoopDetection.Written (l : LoopDetection) : Value → Prop where
  | name : Written l (.string l.name)
  | kind {v : Value} : v.Is .null → Written l (.tagged l.name v)

namespace AnomalyChecks

/-- The checks that an audit can make. -/
inductive Flag where
  | shadow
  | reach
  | generalization
  deriving DecidableEq, Repr

/-- The name of a check. -/
def Flag.name : Flag → String
  | .shadow => "shadow"
  | .reach => "reach"
  | .generalization => "generalization"

/-- Turns a check on or off. -/
def turn (a : AnomalyChecks) (f : Flag × Bool) : AnomalyChecks :=
  match f.1 with
  | .shadow => { a with shadow := f.2 }
  | .reach => { a with reach := f.2 }
  | .generalization => { a with generalization := f.2 }

/-- The entry stands for turning a check on or off. -/
def FlagWritten (f : Flag × Bool) (e : Value × Value) : Prop :=
  e.1 = .string f.1.name ∧ e.2.Is (.bool f.2)

end AnomalyChecks

/-! ### Overrides -/

/-- What may take the place of a field of settings. -/
inductive Override where
  | loopDetection (mode : LoopDetection)
  | checkShadow (on : Bool)
  | checkBlackholes (on : Bool)
  /-- Some of the checks are turned on or off. -/
  | anomalies (flags : List (AnomalyChecks.Flag × Bool))
  | maxDepth (depth : UInt64)
  | maxVisits (visits : UInt64)
  | timeoutMs (time : UInt64)

namespace Override

/-- The name of the field. -/
def field : Override → String
  | .loopDetection _ => "loop_detection"
  | .checkShadow _ => "check_shadow"
  | .checkBlackholes _ => "check_blackholes"
  | .anomalies _ => "anomalies"
  | .maxDepth _ => "max_depth"
  | .maxVisits _ => "max_visits"
  | .timeoutMs _ => "timeout_ms"

/-- The settings with the field replaced. -/
def apply (s : Settings) : Override → Settings
  | .loopDetection l => { s with loopDetection := l }
  | .checkShadow b => { s with checkShadow := b }
  | .checkBlackholes b => { s with checkBlackholes := b }
  | .anomalies flags => { s with anomalies := flags.foldl AnomalyChecks.turn s.anomalies }
  | .maxDepth n => { s with maxDepth := n }
  | .maxVisits n => { s with maxVisits := n }
  | .timeoutMs n => { s with timeoutMs := n }

/-- The value stands for what takes the place of the field. Checks stand in a mapping without a
kind, since one with a kind takes the place of all of them. -/
inductive ValueWritten : Override → Value → Prop where
  | loopDetection {l : LoopDetection} {v : Value} : l.Written v → ValueWritten (.loopDetection l) v
  | checkShadow {b : Bool} {v : Value} : v.Is (.bool b) → ValueWritten (.checkShadow b) v
  | checkBlackholes {b : Bool} {v : Value} : v.Is (.bool b) → ValueWritten (.checkBlackholes b) v
  | anomalies {flags : List (AnomalyChecks.Flag × Bool)} {entries : List (Value × Value)} :
      List.Forall₂ AnomalyChecks.FlagWritten flags entries →
      ValueWritten (.anomalies flags) (.map entries)
  | maxDepth {n : UInt64} {v : Value} : v.Is (.int n.toNat) → ValueWritten (.maxDepth n) v
  | maxVisits {n : UInt64} {v : Value} : v.Is (.int n.toNat) → ValueWritten (.maxVisits n) v
  | timeoutMs {n : UInt64} {v : Value} : v.Is (.int n.toNat) → ValueWritten (.timeoutMs n) v

/-- The entry stands for the override. -/
def Written (o : Override) (e : Value × Value) : Prop := e.1 = .string o.field ∧ o.ValueWritten e.2

end Override

/-! ### Mappings that show settings -/

/-- The mapping has a value for each of the checks. -/
inductive AnomalyChecks.Shows (a : AnomalyChecks) : List (Value × Value) → Prop where
  | mk {s r g : Value} : s.Is (.bool a.shadow) → r.Is (.bool a.reach) →
      g.Is (.bool a.generalization) →
      Shows a [(.string "shadow", s), (.string "reach", r), (.string "generalization", g)]

/-- The mapping has a value for each field. -/
inductive Settings.Shows (s : Settings) : List (Value × Value) → Prop where
  | mk {l c b d v t : Value} {as : List (Value × Value)} :
      s.loopDetection.Written l → c.Is (.bool s.checkShadow) → b.Is (.bool s.checkBlackholes) →
      s.anomalies.Shows as → d.Is (.int s.maxDepth.toNat) → v.Is (.int s.maxVisits.toNat) →
      t.Is (.int s.timeoutMs.toNat) →
      Shows s [(.string "loop_detection", l), (.string "check_shadow", c),
        (.string "check_blackholes", b), (.string "anomalies", .map as), (.string "max_depth", d),
        (.string "max_visits", v), (.string "timeout_ms", t)]

/-- The document of settings has a value for each field. -/
theorem Settings.shows_toValue (s : Settings) : ∃ es, s.toValue = .map es ∧ s.Shows es :=
  ⟨_, rfl, .mk .name rfl rfl (.mk rfl rfl rfl) rfl rfl rfl⟩

/-! ### Overlaying -/

namespace Document.Value

variable {v w : Value} {x : Scalar} {es bs : List (Value × Value)}

@[simp] theorem same_string (a b : String) :
    (Value.string a).same (.string b) = decide (a = b) := by
  simp [Value.string, same]

/-- What is no mapping replaces what it meets. -/
theorem overlay_of_is (hv : v.Is x) : w.overlay v = v := by
  cases v with
  | map => cases hv
  | _ => rfl

/-- A way of detecting loops replaces the one that was there. -/
theorem overlay_of_written {l : LoopDetection} (hv : l.Written v) : w.overlay v = v := by
  cases hv <;> rfl

/-- A boolean is read, of whatever kind. -/
theorem bool?_of_is {b : Bool} (hv : v.Is (.bool b)) : v.bool? = some b := by
  rw [bool?, hv]

/-- A number is read, of whatever kind. -/
theorem word?_of_is {n : UInt64} (hv : v.Is (.int n.toNat)) : v.word? = some n := by
  have hint : v.untagged = .scalar (.int (.ofNat n.toNat)) := hv
  rw [word?, natBelow?, hint]
  dsimp only
  rw [if_pos n.toNat_lt, Option.map_some, UInt64.ofNat_toNat]

end Document.Value

open Document.Value

variable {s : Settings} {a : AnomalyChecks} {o : Override} {es bs : List (Value × Value)}
  {v : Value}

/-- **Overlaying entries keeps up with a run of changes** if overlaying a known key keeps up with
one change. -/
theorem overlayEntries_follows {σ ο : Type} {P : σ → List (Value × Value) → Prop}
    {W : ο → Value × Value → Prop} {change : σ → ο → σ} {x : σ} {os : List ο}
    (hchange : ∀ {x o e bs}, P x bs → W o e →
      ∃ old, lookup e.1 bs = some old ∧ P (change x o) (replace e.1 (old.overlay e.2) bs))
    (hos : List.Forall₂ W os es) (hx : P x bs) : P (os.foldl change x) (overlayEntries bs es) := by
  induction hos generalizing x bs with
  | nil => simpa [overlayEntries] using hx
  | cons hoe _ ih =>
    obtain ⟨old, hold, hnext⟩ := hchange hx hoe
    rw [overlayEntries, hold]
    exact ih hnext

/-- Overlaying one check keeps up with turning it on or off. -/
theorem AnomalyChecks.shows_turn {f : Flag × Bool} {e : Value × Value} (hbs : a.Shows bs)
    (he : FlagWritten f e) :
    ∃ old, lookup e.1 bs = some old ∧ (a.turn f).Shows (replace e.1 (old.overlay e.2) bs) := by
  obtain ⟨hs, hr, hg⟩ := hbs
  obtain ⟨k, v⟩ := e
  obtain ⟨rfl, hv⟩ := he
  obtain ⟨f, b⟩ := f
  cases f with
  | shadow =>
    exact ⟨_, by simp [lookup, Flag.name]; rfl,
      by simpa [replace, Flag.name, overlay_of_is hv] using .mk hv hr hg⟩
  | reach =>
    exact ⟨_, by simp [lookup, Flag.name]; rfl,
      by simpa [replace, Flag.name, overlay_of_is hv] using .mk hs hv hg⟩
  | generalization =>
    exact ⟨_, by simp [lookup, Flag.name]; rfl,
      by simpa [replace, Flag.name, overlay_of_is hv] using .mk hs hr hv⟩

/-- Overlaying one entry keeps up with one override. -/
theorem Settings.shows_apply {e : Value × Value} (hbs : s.Shows bs) (he : o.Written e) :
    ∃ old, lookup e.1 bs = some old ∧ (o.apply s).Shows (replace e.1 (old.overlay e.2) bs) := by
  obtain ⟨hl, hc, hb, ha, hd, hv, ht⟩ := hbs
  obtain ⟨k, v⟩ := e
  obtain ⟨rfl, ho⟩ := he
  cases ho with
  | loopDetection h =>
    exact ⟨_, by simp [lookup, Override.field]; rfl,
      by simpa [replace, Override.field, overlay_of_written h] using .mk h hc hb ha hd hv ht⟩
  | checkShadow h =>
    exact ⟨_, by simp [lookup, Override.field]; rfl,
      by simpa [replace, Override.field, overlay_of_is h] using .mk hl h hb ha hd hv ht⟩
  | checkBlackholes h =>
    exact ⟨_, by simp [lookup, Override.field]; rfl,
      by simpa [replace, Override.field, overlay_of_is h] using .mk hl hc h ha hd hv ht⟩
  | anomalies h =>
    exact ⟨_, by simp [lookup, Override.field]; rfl, by
      simpa [replace, Override.field, overlay] using
        .mk hl hc hb (overlayEntries_follows AnomalyChecks.shows_turn h ha) hd hv ht⟩
  | maxDepth h =>
    exact ⟨_, by simp [lookup, Override.field]; rfl,
      by simpa [replace, Override.field, overlay_of_is h] using .mk hl hc hb ha h hv ht⟩
  | maxVisits h =>
    exact ⟨_, by simp [lookup, Override.field]; rfl,
      by simpa [replace, Override.field, overlay_of_is h] using .mk hl hc hb ha hd h ht⟩
  | timeoutMs h =>
    exact ⟨_, by simp [lookup, Override.field]; rfl,
      by simpa [replace, Override.field, overlay_of_is h] using .mk hl hc hb ha hd hv h⟩

/-! ### Reading -/

theorem mapM_string? (fields : List (String × Value)) :
    (fields.map fun (k, v) ↦ (Value.string k, v)).mapM (fun (k, v) ↦ return (← k.string?, v)) =
      some fields := by
  induction fields with
  | nil => rfl
  | cons f fields ih =>
    rw [List.map_cons, List.mapM_cons, ih]
    rfl

/-- The names of a record are read, none of which occurs twice. -/
theorem namedFields?_record {fields : List (String × Value)}
    (hnodup : (fields.map Prod.fst).Nodup) :
    namedFields? (fields.map fun (k, v) ↦ (Value.string k, v)) = some fields := by
  rw [namedFields?, mapM_string?]
  exact if_pos hnodup

/-- The fields of a mapping, none of which occurs twice. -/
theorem fields?_record {form : Form} {names : List String} (fields : List (String × Value))
    (hv : v.untagged = .record fields) (hnodup : (fields.map Prod.fst).Nodup) :
    form.fields? names v = some fields := by
  rw [Form.fields?, hv]
  exact namedFields?_record hnodup

/-- A way of detecting loops is read back. -/
theorem LoopDetection.ofValue?_of_written {l : LoopDetection} (hv : l.Written v) :
    LoopDetection.ofValue? .document v = some l := by
  cases hv with
  | name => cases l <;> rfl
  | kind hnull =>
    rw [LoopDetection.ofValue?, hnull]
    cases l <;> rfl

/-- **A mapping that shows checks is read as these checks.** -/
theorem AnomalyChecks.ofValue?_of_shows (ha : a.Shows es) :
    AnomalyChecks.ofValue? .document (.map es) = some a := by
  obtain ⟨hs, hr, hg⟩ := ha
  rw [AnomalyChecks.ofValue?,
    fields?_record [("shadow", _), ("reach", _), ("generalization", _)] rfl (by simp)]
  simp [setField, bool?_of_is hs, bool?_of_is hr, bool?_of_is hg]

/-- **A mapping that shows settings is read as these settings.** -/
theorem Settings.ofValue?_of_shows (hs : s.Shows es) :
    Settings.ofValue? .document (.map es) = some s := by
  obtain ⟨hl, hc, hb, ha, hd, hv, ht⟩ := hs
  rw [Settings.ofValue?,
    fields?_record [("loop_detection", _), ("check_shadow", _), ("check_blackholes", _),
      ("anomalies", .map _), ("max_depth", _), ("max_visits", _), ("timeout_ms", _)] rfl (by simp)]
  simp [setField, LoopDetection.ofValue?_of_written hl, bool?_of_is hc, bool?_of_is hb,
    AnomalyChecks.ofValue?_of_shows ha, word?_of_is hd, word?_of_is hv, word?_of_is ht]

end HeaderFlow
