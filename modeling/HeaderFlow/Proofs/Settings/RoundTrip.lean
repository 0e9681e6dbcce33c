import HeaderFlow.Proofs.Settings.Overrides

/-!
# Reading and writing documents of settings

What a document of settings with overrides is read as, and that **settings are read back from the
text that is written of them**, in every language of documents that is faithful to what is written.

Both come to the same: `ofDocument_of_lists` says what any document is read as, and the document of
given settings is one that lists either nothing, if they are those of a preset, or all fields, if
they are not.
-/

namespace HeaderFlow

open Document (Value Scalar Codec)

/-! ### Documents with overrides -/

/-- The part of a document with overrides, which may be left out or null if there are none. -/
inductive Override.PartWritten : List Override → List (String × Value) → Prop where
  | missing : PartWritten [] []
  | null : PartWritten [] [("overrides", .null)]
  | map {os : List Override} {es : List (Value × Value)} :
      List.Forall₂ Override.Written os es → PartWritten os [("overrides", .map es)]

/-- The parts of a document: the version, the name of a preset, and overrides. -/
inductive Settings.PartsWritten (p : Preset) (os : List Override) :
    List (String × Value) → Prop where
  | mk {version preset : Value} {name : String} {rest : List (String × Value)} :
      version.Is (.int 1) → preset.Is (.string name) → Preset.ofName? name = some p →
      Override.PartWritten os rest →
      PartsWritten p os (("version", version) :: ("preset", preset) :: rest)

/-- The document names a preset and lists overrides, with its parts in any order. -/
structure Settings.Lists (p : Preset) (os : List Override) (doc : Value) : Prop where
  parts : ∃ parts fields, PartsWritten p os parts ∧ parts.Perm fields ∧
    doc.untagged = .record fields

/-- The settings, or the error that their depth is out of range. -/
def Settings.checked (s : Settings) : Except SettingsError Settings :=
  if 1 ≤ s.maxDepth ∧ s.maxDepth ≤ 100000 then .ok s else .error (.depthOutOfRange s.maxDepth)

/-! ### Reading -/

open Document.Value

variable {p : Preset} {os : List Override} {doc : Value} {s : Settings} {codec : Codec}
  {parts fields : List (String × Value)}

/-- The order of fields does not matter. -/
theorem lookup_of_perm {k : String} (h : parts.Perm fields) (hnodup : (parts.map Prod.fst).Nodup) :
    fields.lookup k = parts.lookup k := by
  induction h with
  | nil => rfl
  | cons f _ ih => rw [List.lookup_cons, List.lookup_cons, ih (List.nodup_cons.1 hnodup).2]
  | swap f g l =>
    have hne : g.1 ≠ f.1 := fun hname ↦ (List.nodup_cons.1 hnodup).1 (hname ▸ List.mem_cons_self)
    rw [List.lookup_cons, List.lookup_cons, List.lookup_cons, List.lookup_cons]
    grind
  | trans h _ ih₁ ih₂ => exact (ih₂ ((h.map Prod.fst).nodup_iff.1 hnodup)).trans (ih₁ hnodup)

/-- Settings whose depth is out of range are refused. -/
theorem Settings.validate_eq (s : Settings) : (do s.validate; return s) = s.checked := by
  have hrange : (s.maxDepth = 0 ∨ depthLimit < s.maxDepth) ↔
      ¬ (1 ≤ s.maxDepth ∧ s.maxDepth ≤ 100000) := by
    rw [depthLimit]
    grind
  rw [validate, checked]
  by_cases h : 1 ≤ s.maxDepth ∧ s.maxDepth ≤ 100000
  · rw [if_neg (hrange.not.2 (not_not_intro h)), if_pos h]
    rfl
  · rw [if_pos (hrange.2 h), if_neg h]
    rfl

/-- No part of a document occurs twice. -/
theorem Settings.nodup_of_partsWritten (h : PartsWritten p os parts) :
    (parts.map Prod.fst).Nodup := by
  cases h with
  | mk _ _ _ hrest => cases hrest <;> simp

/-- All parts of a document are known. -/
theorem Settings.parts_known (h : PartsWritten p os parts) :
    parts.all (fun f ↦ Header.fields.contains f.1) = true := by
  cases h with
  | mk _ _ _ hrest => cases hrest <;> rfl

/-- The header of a document with overrides. -/
theorem Settings.header_of_lists (h : Lists p os doc) :
    ∃ header, Header.ofValue? doc = some header ∧ header.version = 1 ∧
      Preset.ofName? header.preset = some p ∧
      (header.overrides = none ∧ os = [] ∨ ∃ es, header.overrides = some (.map es) ∧
        List.Forall₂ Override.Written os es) := by
  obtain ⟨parts, fields, hparts, hperm, hdoc⟩ := h.parts
  have hnodup := nodup_of_partsWritten hparts
  have hfields : Form.document.fields? Header.fields doc = some fields :=
    fields?_record fields hdoc ((hperm.map Prod.fst).nodup_iff.1 hnodup)
  have hknown : fields.all (fun f ↦ Header.fields.contains f.1) = true := by
    rw [← hperm.all_eq]
    exact parts_known hparts
  have hguard : (guard ((fields.all fun f ↦ Header.fields.contains f.1) = true) : Option Unit) =
      some () := by
    rw [hknown]
    rfl
  rw [Header.ofValue?, hfields, Option.bind_eq_bind, Option.bind_some, hguard]
  simp only [Option.bind_eq_bind, Option.bind_some, lookup_of_perm hperm hnodup]
  obtain ⟨hversion, hpreset, hname, hrest⟩ := hparts
  have hone : ∀ {v : Value}, v.Is (.int 1) → v.natBelow? UInt32.size = some 1 := fun {v} hv ↦ by
    rw [natBelow?, hv]
    rfl
  have hstring : ∀ {v : Value} {s}, v.Is (.string s) → v.string? = some s := fun {v s} hv ↦ by
    rw [string?, hv]
  cases hrest with
  | missing =>
    exact ⟨⟨1, _, none⟩, by simp [List.lookup_cons, hone hversion, hstring hpreset], rfl, hname,
      .inl ⟨rfl, rfl⟩⟩
  | null =>
    exact ⟨⟨1, _, none⟩, by simp [List.lookup_cons, hone hversion, hstring hpreset, Value.null],
      rfl, hname, .inl ⟨rfl, rfl⟩⟩
  | map hes =>
    exact ⟨⟨1, _, some _⟩, by simp [List.lookup_cons, hone hversion, hstring hpreset], rfl, hname,
      .inr ⟨_, rfl, hes⟩⟩

/-- A document says its version. -/
theorem Settings.get?_of_lists (h : Lists p os doc) : (doc.get? "version").isNone = false := by
  obtain ⟨parts, fields, hparts, hperm, hdoc⟩ := h.parts
  obtain ⟨v, hv⟩ : ∃ v, ("version", v) ∈ fields := by
    obtain ⟨hversion, _, _, _⟩ := hparts
    exact ⟨_, hperm.subset List.mem_cons_self⟩
  rw [get?, hdoc]
  simp [record, lookup]
  exact ⟨v, hv⟩

/-- **A document is read as its preset with the fields it lists replaced.** -/
theorem Settings.ofDocument_of_lists (h : Lists p os doc) :
    ofDocument doc = (os.foldl Override.apply p.settings).checked := by
  obtain ⟨⟨version, name, overrides⟩, hheader, rfl, hpreset, hoverrides⟩ := header_of_lists h
  obtain ⟨bs, hvalue, hshows⟩ := p.settings.shows_toValue
  have hstart := get?_of_lists h
  dsimp only at hpreset hoverrides
  rw [ofDocument, ← validate_eq]
  obtain ⟨rfl, rfl⟩ | ⟨es, rfl, hos⟩ := hoverrides
  · have hvalues := ofValue?_of_shows hshows
    simp [hstart, hheader, hpreset, hvalue, hvalues]
  · have hshows := overlayEntries_follows (P := Shows)
      (W := Override.Written) shows_apply hos hshows
    have hvalues := ofValue?_of_shows hshows
    simp [hstart, hheader, hpreset, hvalue, hvalues, overlay]

/-! ### Writing -/

/-- The overrides that replace all checks. -/
def AnomalyChecks.flags (a : AnomalyChecks) : List (Flag × Bool) :=
  [(.shadow, a.shadow), (.reach, a.reach), (.generalization, a.generalization)]

/-- The overrides that replace all fields. -/
def Settings.overrides (s : Settings) : List Override :=
  [.loopDetection s.loopDetection, .checkShadow s.checkShadow, .checkBlackholes s.checkBlackholes,
    .anomalies s.anomalies.flags, .maxDepth s.maxDepth, .maxVisits s.maxVisits,
    .timeoutMs s.timeoutMs]

/-- **Replacing all fields gives the settings**, whatever they were before. -/
theorem Settings.foldl_overrides (s base : Settings) :
    s.overrides.foldl Override.apply base = s := rfl

/-- The value of settings lists all of its overrides. -/
theorem Settings.overrides_written (s : Settings) :
    ∃ es, s.toValue = .map es ∧ List.Forall₂ Override.Written s.overrides es :=
  ⟨_, rfl, .cons ⟨rfl, .loopDetection .name⟩ <| .cons ⟨rfl, .checkShadow rfl⟩ <|
    .cons ⟨rfl, .checkBlackholes rfl⟩ <|
    .cons ⟨rfl, .anomalies <| .cons ⟨rfl, rfl⟩ <| .cons ⟨rfl, rfl⟩ <| .cons ⟨rfl, rfl⟩ .nil⟩ <|
    .cons ⟨rfl, .maxDepth rfl⟩ <| .cons ⟨rfl, .maxVisits rfl⟩ <| .cons ⟨rfl, .timeoutMs rfl⟩ .nil⟩

/-- A preset is found by its name. -/
theorem Preset.ofName?_name (p : Preset) : ofName? p.name = some p := by
  have hlower : p.name.map Char.toLower = p.name :=
    String.toList_inj.1 (by rw [String.toList_map]; cases p <;> decide)
  rw [ofName?, hlower]
  cases p <;> rfl

/-- The settings of a preset other than `custom` are found again. -/
theorem Settings.settings_preset (hs : s.preset ≠ .custom) : s.preset.settings = s := by
  rw [preset] at hs ⊢
  cases h : [Preset.fast, .balanced, .thorough].find? fun p ↦ p.settings = s with
  | none => exact absurd (by rw [h]; rfl) hs
  | some p => simpa using List.find?_some h

/-- The document of settings lists nothing or everything. -/
theorem Settings.lists_toDocument (s : Settings) :
    ∃ os, Lists s.preset os s.toDocument ∧ os.foldl Override.apply s.preset.settings = s := by
  have hversion : (Value.nat 1).Is (.int 1) := rfl
  have hname : (Value.string s.preset.name).Is (.string s.preset.name) := rfl
  have hparts : ∀ {os rest}, Override.PartWritten os rest →
      PartsWritten s.preset os (("version", .nat 1) :: ("preset", .string s.preset.name) :: rest) :=
    .mk hversion hname s.preset.ofName?_name
  by_cases hs : s.preset = .custom
  · -- the values of the preset do not matter, since all of them are replaced
    obtain ⟨es, hes, hwritten⟩ := s.overrides_written
    refine ⟨s.overrides, ⟨_, _, hparts (.map hwritten), .refl _, ?_⟩, s.foldl_overrides _⟩
    rw [toDocument, if_pos hs, hes]
    rfl
  · refine ⟨[], ⟨_, _, hparts .missing, .refl _, ?_⟩, settings_preset hs⟩
    rw [toDocument, if_neg hs]
    rfl

/-- **Settings are read back from their text**, unless their depth is out of range. -/
theorem Settings.read_write (s : Settings) (hcodec : codec.Faithful s.toDocument) :
    readBy codec (s.writeBy codec) = s.checked := by
  obtain ⟨os, hlists, hos⟩ := s.lists_toDocument
  have hread : codec.read? (s.writeBy codec) = some s.toDocument := hcodec
  rw [readBy, hread]
  exact (ofDocument_of_lists hlists).trans (by rw [hos])

/-- **Documents replace exactly the fields they list, and settings are read back from what is
written of them.** A text that is a document with overrides of a preset is read as the settings of
the preset with these fields replaced, and any settings are read back from their own text, if the
language is faithful to their document. In both cases the depth alone is judged, and the error names
it. -/
theorem Settings.documents_exact {text : String} (hdoc : Lists p os doc)
    (htext : codec.read? text = some doc) (s : Settings) (hcodec : codec.Faithful s.toDocument) :
    readBy codec text = (os.foldl Override.apply p.settings).checked ∧
      readBy codec (s.writeBy codec) = s.checked := by
  constructor
  · rw [readBy, htext]
    exact ofDocument_of_lists hdoc
  · exact s.read_write hcodec

/-- A document that limits the depth of a preset and turns off one of its checks. -/
def Settings.thoroughSample : Value :=
  .record [("preset", .string "Thorough"),
    ("overrides",
      .record [("max_depth", .nat 64), ("anomalies", .record [("shadow", .bool false)])]),
    ("version", .nat 1)]

/-- What the sample lists. -/
theorem Settings.lists_thoroughSample :
    Lists .thorough [.maxDepth 64, .anomalies [(.shadow, false)]] thoroughSample := by
  have hname : (Value.string "Thorough").Is (.string "Thorough") := rfl
  have hpreset : Preset.ofName? "Thorough" = some .thorough := by
    have hlower : "Thorough".map Char.toLower = "thorough" :=
      String.toList_inj.1 (by rw [String.toList_map]; decide)
    rw [Preset.ofName?, hlower]
    rfl
  have hparts : PartsWritten .thorough [.maxDepth 64, .anomalies [(.shadow, false)]]
      [("version", .nat 1), ("preset", .string "Thorough"),
        ("overrides",
          .record [("max_depth", .nat 64), ("anomalies", .record [("shadow", .bool false)])])] := by
    refine .mk rfl hname hpreset (.map ?_)
    exact .cons ⟨rfl, .maxDepth rfl⟩ (.cons ⟨rfl, .anomalies (.cons ⟨rfl, rfl⟩ .nil)⟩ .nil)
  exact ⟨_, _, hparts, .trans (.swap ..) (.cons _ (.swap ..)), rfl⟩

/-- In YAML the sample is read as the settings it describes, and settings without depth are not read
back. -/
theorem Settings.documents_exact_thorough :
    read "preset: Thorough\noverrides:\n  max_depth: 64\n  anomalies:\n    shadow: false\nversion: 1\n" =
        .ok { Preset.thorough.settings with maxDepth := 64, anomalies := ⟨false, true, true⟩ } ∧
      read { default with maxDepth := 0 }.write = .error (.depthOutOfRange 0) := by
  have htext : Codec.yaml.read?
      "preset: Thorough\noverrides:\n  max_depth: 64\n  anomalies:\n    shadow: false\nversion: 1\n" =
        some thoroughSample := by
    decide +kernel
  have hfaithful : Codec.yaml.Faithful { Settings.default with maxDepth := 0 }.toDocument := by
    rw [Codec.Faithful]
    decide +kernel
  exact documents_exact lists_thoroughSample htext { default with maxDepth := 0 } hfaithful

end HeaderFlow
