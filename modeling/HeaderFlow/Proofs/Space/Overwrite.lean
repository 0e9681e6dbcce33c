import HeaderFlow.Proofs.Pattern.Overwrite
import HeaderFlow.Proofs.Space.Trim

/-!
# Overwriting a space loses no header

Overwriting is not exact: headers that differ only where something is written become one header, so
a hole may cover less of its frame afterwards than it did before, and is then given up. What can be
promised is one direction. **Where holes have no holes themselves, everything that a header of the
space can turn into lies in the new space** (`contains_of_overwrite`). With deeper nesting this
fails, since to give up a hole in a hole is to lose headers.
-/

namespace HeaderFlow

namespace Region

variable {f mask value : Pattern} {r c : Region} {rs cs : List Region} {lost : Nat}
  {x y : Nat → Bool}

/-- What overwriting a region comes to, if it succeeds. -/
theorem overwrite_mk_eq_ok {hs : List Region}
    (hc : (mk f hs).overwrite mask value = .ok (c, lost)) :
    f.bytes = mask.bytes ∧ f.bytes = value.bytes ∧ lost = (f.replaceMasked mask value).lost ∧
      ∃ ds, overwriteList hs mask value lost = .ok ds ∧
        c = .mk (f.replaceMasked mask value).pattern ds := by
  simp only [overwrite, Checked.bind_eq_ok] at hc
  obtain ⟨o, ho, ds, hds, hc⟩ := hc
  obtain ⟨hmask, hvalue, rfl⟩ := Pattern.of_overwrite_eq_ok ho
  obtain ⟨rfl, rfl⟩ := Prod.mk.inj (Except.ok.inj hc)
  exact ⟨hmask, hvalue, rfl, ds, hds, rfl⟩

/-- What overwriting a list comes to, if it succeeds: the first member is kept if it lost as much as
was asked for. -/
theorem overwriteList_cons_eq_ok (hcs : overwriteList (r :: rs) mask value lost = .ok cs) :
    ∃ c n rest, r.overwrite mask value = .ok (c, n) ∧ overwriteList rs mask value lost = .ok rest ∧
      cs = if n = lost then c :: rest else rest := by
  simp only [overwriteList, Checked.bind_eq_ok] at hcs
  obtain ⟨⟨c, n⟩, hc, rest, hrest, hcs⟩ := hcs
  exact ⟨c, n, rest, hc, hrest, (Except.ok.inj hcs).symm⟩

/-- A region that is kept lost as many wildcards as was asked for. -/
theorem exists_of_overwriteList (hcs : overwriteList rs mask value lost = .ok cs) (hc : c ∈ cs) :
    ∃ r ∈ rs, r.overwrite mask value = .ok (c, lost) := by
  induction rs generalizing cs with
  | nil =>
    simp only [overwriteList, Except.ok.injEq] at hcs
    exact absurd hc (hcs ▸ List.not_mem_nil)
  | cons r rs ih =>
    obtain ⟨c', n, rest, hc', hrest, rfl⟩ := overwriteList_cons_eq_ok hcs
    have hlater : c ∈ rest → ∃ r' ∈ r :: rs, r'.overwrite mask value = .ok (c, lost) := by
      intro hmem
      obtain ⟨r', hr', ho⟩ := ih hrest hmem
      exact ⟨r', List.mem_cons_of_mem _ hr', ho⟩
    split at hc
    · rename_i hn
      rcases List.mem_cons.1 hc with rfl | hmem
      · exact ⟨r, List.mem_cons_self, hn ▸ hc'⟩
      · exact hlater hmem
    · exact hlater hc

/-- Overwriting nests holes no deeper. -/
theorem height_overwrite (hc : r.overwrite mask value = .ok (c, lost)) : c.height ≤ r.height := by
  induction r using Region.induction generalizing c lost with
  | mk f hs ih =>
    obtain ⟨-, -, -, ds, hds, rfl⟩ := overwrite_mk_eq_ok hc
    rw [height_mk, height_mk, heightList_le_iff]
    intro d hd
    obtain ⟨r, hr, ho⟩ := exists_of_overwriteList hds hd
    exact Nat.lt_of_le_of_lt (ih r hr ho) (height_lt_heightList hr)

/-- **A header outside all holes turns into headers outside all holes.** -/
theorem contains_overwrite {n : Nat} (hconcrete : mask.Concrete) (hr : r.Every (Pattern.Solid n))
    (ht : r.Tight) (hheight : r.height ≤ 1) (hc : r.overwrite mask value = .ok (c, lost))
    (hx : r.Contains x) (hxy : Pattern.Turns mask value x y) : c.Contains y := by
  obtain ⟨f, hs⟩ := r
  obtain ⟨hf, hhs⟩ := every_mk.1 hr
  obtain ⟨hxf, hxs⟩ := contains_mk.1 hx
  obtain ⟨hmask, hvalue, rfl, ds, hds, rfl⟩ := overwrite_mk_eq_ok hc
  refine contains_mk.2
    ⟨Pattern.matches_replaceMasked hconcrete hmask hvalue hxf hxy, fun hin ↦ hxs ?_⟩
  -- a hole that has the new header is plain, was kept, and so had the old one
  obtain ⟨d, hd, hyd⟩ := containsAny_iff.1 hin
  obtain ⟨⟨g, ks⟩, hr, ho⟩ := exists_of_overwriteList hds hd
  have hlow : (Region.mk g ks).height < heightList hs := height_lt_heightList hr
  obtain rfl : ks = [] := by
    rw [height_mk] at hlow hheight
    exact heightList_eq_zero_iff.1 (by omega)
  obtain ⟨-, -, hlost, ks, -, hnew⟩ := overwrite_mk_eq_ok ho
  rw [hnew] at hyd
  have hg : g.Solid n := (every_mk.1 (everyOf_iff.1 hhs _ hr)).1
  have hsub : ∀ h, g.Matches h → f.Matches h := fun h hm ↦
    ht h (containsAny_iff.2 ⟨_, hr, contains_mk.2 ⟨hm, not_containsAny_nil⟩⟩)
  refine containsAny_iff.2 ⟨_, hr, contains_mk.2 ⟨?_, not_containsAny_nil⟩⟩
  exact Pattern.matches_of_replaceMasked hconcrete ⟨hg.1.trans hf.1.symm, hg.2⟩ hmask hvalue hsub
    hlost.symm hxf hxy (contains_mk.1 hyd).1

end Region

namespace Space

open Region

variable {s u : Space} {mask value : Pattern} {x y : Nat → Bool}

/-- The new regions are those that come from the old. -/
theorem of_mapM_overwrite {rs cs : List Region}
    (hcs : (rs.mapM fun r ↦ return (← r.overwrite mask value).1) = (.ok cs : Checked _)) :
    (∀ c ∈ cs, ∃ r ∈ rs, ∃ n, r.overwrite mask value = .ok (c, n)) ∧
      ∀ r ∈ rs, ∃ c ∈ cs, ∃ n, r.overwrite mask value = .ok (c, n) := by
  induction rs generalizing cs with
  | nil =>
    obtain rfl := Except.ok.inj hcs
    simp
  | cons r rs ih =>
    obtain ⟨c, rest, hc, hrest, rfl⟩ := Checked.mapM_cons_eq_ok.1 hcs
    obtain ⟨⟨c', n⟩, ho, hc⟩ := Checked.bind_eq_ok.1 hc
    obtain rfl := Except.ok.inj hc
    obtain ⟨hback, hforth⟩ := ih hrest
    refine ⟨List.forall_mem_cons.2 ⟨⟨r, List.mem_cons_self, n, ho⟩, fun d hd ↦ ?_⟩,
      List.forall_mem_cons.2 ⟨⟨c', List.mem_cons_self, n, ho⟩, fun r' hr' ↦ ?_⟩⟩
    · obtain ⟨r', hr', hd⟩ := hback d hd
      exact ⟨r', List.mem_cons_of_mem _ hr', hd⟩
    · obtain ⟨d, hd, hd'⟩ := hforth r' hr'
      exact ⟨d, List.mem_cons_of_mem _ hd, hd'⟩

/-- The regions of an overwritten space come from those before, one from each. -/
theorem of_overwrite_eq_ok (hu : s.overwrite mask value = .ok u) :
    (∀ c ∈ u.regions, ∃ r ∈ s.regions, ∃ n, r.overwrite mask value = .ok (c, n)) ∧
      ∀ r ∈ s.regions, ∃ c ∈ u.regions, ∃ n, r.overwrite mask value = .ok (c, n) := by
  simp only [overwrite, Checked.bind_eq_ok] at hu
  obtain ⟨cs, hcs, hu⟩ := hu
  obtain rfl := Except.ok.inj hu
  exact of_mapM_overwrite hcs

/-- Overwriting a space nests holes no deeper. -/
theorem heightList_overwrite (hu : s.overwrite mask value = .ok u) :
    heightList u.regions ≤ heightList s.regions := by
  refine heightList_le_iff.2 fun c hc ↦ ?_
  obtain ⟨r, hr, n, ho⟩ := (of_overwrite_eq_ok hu).1 c hc
  exact Nat.lt_of_le_of_lt (height_overwrite ho) (height_lt_heightList hr)

/-- **Everything that a header of a trim space with shallow holes can turn into lies in the
overwritten space.** -/
theorem contains_of_overwrite {n : Nat} (hconcrete : mask.Concrete) (hs : s.Trim n)
    (hheight : heightList s.regions ≤ 2) (hu : s.overwrite mask value = .ok u) (hx : s.Contains x)
    (hxy : Pattern.Turns mask value x y) : u.Contains y := by
  obtain ⟨r, hr, hxr⟩ := contains_iff.1 hx
  obtain ⟨c, hc, lost, ho⟩ := (of_overwrite_eq_ok hu).2 r hr
  have hlow := height_lt_heightList hr
  exact contains_iff.2 ⟨c, hc, contains_overwrite hconcrete (everyOf_iff.1 hs.solid r hr)
    (hs.tight r hr) (by omega) ho hxr hxy⟩

end Space

end HeaderFlow
