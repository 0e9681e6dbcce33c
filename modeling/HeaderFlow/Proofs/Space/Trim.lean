import HeaderFlow.Proofs.Space.SetAlgebra

/-!
# Trim spaces

Headers come out of a pipe *trim*: all patterns have one length and no conflict, and the holes of
every region lie inside its frame. **Clipping makes a space trim, and cutting and compacting keep it
so**, whatever the space was like before the first clip. Each law here also says how deep holes are
nested afterwards, since overwriting is only well behaved where they are shallow.
-/

namespace HeaderFlow.Space

open Region

variable {s u : Space} {p : Pattern} {n : Nat}

/-- All patterns have length `n` and no conflict, and holes lie inside their frames. -/
structure Trim (n : Nat) (s : Space) : Prop where
  solid : EveryOf (Pattern.Solid n) s.regions
  tight : ∀ r ∈ s.regions, r.Tight

theorem Trim.bytes (hs : s.Trim n) : EveryOf (·.bytes = n) s.regions :=
  hs.solid.imp fun _ hp ↦ hp.1

/-- Patterns of one length without conflicts are solid. -/
theorem solid_of_bytes_of_clean {r : Region} (hbytes : r.Every (·.bytes = n))
    (hclean : r.Every fun p ↦ p.hasConflict = false) : r.Every (Pattern.Solid n) := by
  induction r using Region.induction with
  | mk f hs ih =>
    obtain ⟨hf, hhs⟩ := every_mk.1 hbytes
    obtain ⟨hf', hhs'⟩ := every_mk.1 hclean
    exact every_mk.2 ⟨⟨hf, hf'⟩, everyOf_iff.2 fun d hd ↦
      ih d hd (everyOf_iff.1 hhs d hd) (everyOf_iff.1 hhs' d hd)⟩

/-- **What has been clipped is trim.** -/
theorem trim_of_clip (hu : s.clip p = .ok u) :
    u.Trim p.bytes ∧ heightList u.regions ≤ heightList s.regions := by
  obtain ⟨rs, hrs, rfl⟩ := clip_eq_ok.1 hu
  have hclipped := clipped_of_clipList hrs
  exact ⟨⟨hclipped.solid, hclipped.tight⟩, hclipped.height_le⟩

/-- A new hole lies inside the frame, and has no holes itself. -/
theorem of_punch {r c : Region} (hr : r.Every (Pattern.Solid n)) (ht : r.Tight)
    (hc : punch p r = .ok c) :
    c.Every (Pattern.Solid n) ∧ c.Tight ∧ c.height ≤ max 1 r.height := by
  obtain ⟨f, hs⟩ := r
  obtain ⟨hf, hhs⟩ := every_mk.1 hr
  obtain ⟨hbytes, rfl⟩ := punch_eq_ok.1 hc
  simp only [frame, holes] at *
  cases hm : f.meet? p with
  | none =>
    exact ⟨by simpa using hr, by simpa using ht, Nat.le_trans (by simp) (Nat.le_max_right 1 _)⟩
  | some d =>
    have hd : d.Solid n := hf.1 ▸ Pattern.solid_of_meet?_eq_some hm
    refine ⟨by simpa [plain] using ⟨hf, hhs, hd⟩, fun h hh ↦ ?_, ?_⟩
    · simp only [Option.map_some, Option.toList_some, holes, containsAny_append, containsAny_cons,
        contains_plain, not_containsAny_nil, or_false] at hh
      rcases hh with hh | hh
      · exact ht h hh
      · exact ((Pattern.matches_of_meet?_eq_some hbytes hm).1 hh).1
    · simp only [Option.map_some, Option.toList_some, height_mk, heightList_append,
        heightList_cons, height_plain, heightList_nil]
      omega

/-- Cutting a pattern from all regions keeps them trim. -/
theorem trim_of_mapM_punch {rs cs : List Region} (hrs : EveryOf (Pattern.Solid n) rs)
    (ht : ∀ r ∈ rs, r.Tight) (hcs : rs.mapM (punch p) = .ok cs) :
    EveryOf (Pattern.Solid n) cs ∧ (∀ c ∈ cs, c.Tight) ∧ heightList cs ≤ max 2 (heightList rs) := by
  induction rs generalizing cs with
  | nil =>
    obtain rfl := Except.ok.inj hcs
    exact ⟨everyOf_nil, by simp, by simp⟩
  | cons r rs ih =>
    obtain ⟨c, rest, hc, hrest, rfl⟩ := Checked.mapM_cons_eq_ok.1 hcs
    obtain ⟨hr, hrs⟩ := everyOf_cons.1 hrs
    obtain ⟨htr, htrs⟩ := List.forall_mem_cons.1 ht
    obtain ⟨hsolid, htight, hheight⟩ := of_punch hr htr hc
    obtain ⟨hsolid', htight', hheight'⟩ := ih hrs htrs hrest
    refine ⟨everyOf_cons.2 ⟨hsolid, hsolid'⟩, List.forall_mem_cons.2 ⟨htight, htight'⟩, ?_⟩
    simp only [heightList_cons]
    omega

/-- **Cutting keeps a space trim** and nests holes at most one deep where there were none. -/
theorem Trim.cut (hs : s.Trim n) (hu : s.cut p = .ok u) :
    u.Trim n ∧ heightList u.regions ≤ max 2 (heightList s.regions) := by
  obtain ⟨rs, hrs, rfl⟩ := cut_eq_ok.1 hu
  obtain ⟨hsolid, htight, hheight⟩ := trim_of_mapM_punch hs.solid hs.tight hrs
  exact ⟨⟨hsolid, htight⟩, hheight⟩

/-- **Compacting keeps a space trim**, with the same headers. -/
theorem Trim.compact {mask : Option Pattern} (hs : s.Trim n) (hu : s.compact mask = .ok u) :
    u.Trim n ∧ (∀ h, u.Contains h ↔ s.Contains h) ∧
      heightList u.regions ≤ heightList s.regions := by
  obtain ⟨u', hu', -, hkeeps, htight⟩ := compact_keeps mask hs.bytes
  rw [hu'] at hu
  obtain rfl := Except.ok.inj hu
  refine ⟨⟨everyOf_iff.2 fun r hr ↦ solid_of_bytes_of_clean ?_ ?_, htight hs.tight⟩, hkeeps.cover,
    hkeeps.height_le⟩
  · exact everyOf_iff.1 (hkeeps.bytes n hs.bytes) r hr
  · exact everyOf_iff.1 (hkeeps.clean (hs.solid.imp fun _ hp ↦ hp.2)) r hr

end HeaderFlow.Space
