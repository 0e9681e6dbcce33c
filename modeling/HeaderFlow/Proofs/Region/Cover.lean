import HeaderFlow.Proofs.Checked
import HeaderFlow.Proofs.Pattern.Cover
import HeaderFlow.Region.Basic

/-!
# The headers in a region

The cover of a region is what its frame matches less the covers of its holes, to any depth. Regions
are trees whose nodes have a list of children, so each operation comes with a twin for lists, and
`Region.induction` turns the two inductions into one: **a hole may be used as soon as it is known to
be a member**.

The results about clipping ask only that it succeeds. A clip that succeeds has compared the widths
of all patterns that it left, so `Clipped` may promise one width for them even where the region was
put together from patterns of several.

## What is proved of each operation

* `clip_clipped`: clipping a region to a pattern leaves the headers that match it.
* `intersected_of_intersect`: the intersection of two regions is clipped from both.
* `containsAny_complement`: the complement has the headers that the region does not have. It
  consists of the parts that the frame leaves over and of the holes, **which come back as regions
  with their own holes in them**.

Together with each of these stands the fact that the operation succeeds if all patterns have one
length (`exists_clip_eq_ok`, `exists_intersect_eq_ok`), and a bound on how deep holes are nested
afterwards, on which the comparisons rely.

`Every P` and `EveryOf P` say something of all patterns of a region at every depth. They are defined
by recursion on trees and lists, and their small lemmas let proofs speak of members instead.
-/

namespace HeaderFlow.Region

variable {f v : Pattern} {r : Region} {rs : List Region} {h : Nat → Bool} {P Q : Pattern → Prop}

/-- To prove something of all regions, prove it of a region all of whose holes have it. -/
@[elab_as_elim]
theorem induction {motive : Region → Prop}
    (mk : ∀ f hs, (∀ d ∈ hs, motive d) → motive (.mk f hs)) (r : Region) : motive r :=
  @Region.rec motive (fun hs ↦ ∀ d ∈ hs, motive d) mk (fun _ hd ↦ absurd hd List.not_mem_nil)
    (fun _ _ hhead htail _ hd ↦ (List.mem_cons.1 hd).elim (fun he ↦ he ▸ hhead) (htail _)) r

/-! ### Lists of regions -/

@[simp] theorem contains_mk {hs : List Region} :
    (mk f hs).Contains h ↔ f.Matches h ∧ ¬ ContainsAny hs h := by
  rw [Contains]

/-- What a region contains, by its frame and its holes. -/
theorem contains_iff : r.Contains h ↔ r.frame.Matches h ∧ ¬ ContainsAny r.holes h := by
  cases r
  exact contains_mk

@[simp] theorem not_containsAny_nil : ¬ ContainsAny [] h := by
  rw [ContainsAny]
  exact id

@[simp] theorem containsAny_cons : ContainsAny (r :: rs) h ↔ r.Contains h ∨ ContainsAny rs h := by
  rw [ContainsAny]

/-- A list contains what some member contains. -/
theorem containsAny_iff : ContainsAny rs h ↔ ∃ r ∈ rs, r.Contains h := by
  induction rs with
  | nil => simp
  | cons r rs ih => simp [ih]

@[simp] theorem containsAny_append {qs : List Region} :
    ContainsAny (rs ++ qs) h ↔ ContainsAny rs h ∨ ContainsAny qs h := by
  simp only [containsAny_iff, List.mem_append, or_and_right, exists_or]

@[simp] theorem contains_plain : (plain f).Contains h ↔ f.Matches h := by
  simp [plain]

/-- Plain regions contain what their frames match. -/
theorem containsAny_map_plain {ps : List Pattern} :
    ContainsAny (ps.map plain) h ↔ ∃ p ∈ ps, p.Matches h := by
  simp [containsAny_iff]

/-- Regions whose frame has a conflict contain nothing. -/
theorem containsAny_filter :
    ContainsAny (rs.filter fun r ↦ !r.frame.hasConflict) h ↔ ContainsAny rs h := by
  rw [containsAny_iff, containsAny_iff]
  constructor
  · rintro ⟨r, hr, hc⟩
    exact ⟨r, List.mem_of_mem_filter hr, hc⟩
  · rintro ⟨r, hr, hc⟩
    refine ⟨r, List.mem_filter.2 ⟨hr, ?_⟩, hc⟩
    rw [Pattern.exists_matches_iff.1 ⟨h, (contains_iff.1 hc).1⟩]
    rfl

/-! ### Properties of all patterns -/

mutual

/-- Every pattern of the region, at every depth, has the property. -/
def Every (P : Pattern → Prop) : Region → Prop
  | mk f hs => P f ∧ EveryOf P hs

/-- Every pattern of every region of the list, at every depth, has the property. -/
def EveryOf (P : Pattern → Prop) : List Region → Prop
  | [] => True
  | r :: rs => r.Every P ∧ EveryOf P rs

end

@[simp] theorem every_mk {hs : List Region} : (mk f hs).Every P ↔ P f ∧ EveryOf P hs := by
  rw [Every]

@[simp] theorem everyOf_nil : EveryOf P [] := by
  rw [EveryOf]
  trivial

@[simp] theorem everyOf_cons : EveryOf P (r :: rs) ↔ r.Every P ∧ EveryOf P rs := by
  rw [EveryOf]

/-- What holds of every pattern of a list holds of every pattern of each member. -/
theorem everyOf_iff : EveryOf P rs ↔ ∀ r ∈ rs, r.Every P := by
  induction rs with
  | nil => simp
  | cons r rs ih => simp [ih]

@[simp] theorem everyOf_append {qs : List Region} :
    EveryOf P (rs ++ qs) ↔ EveryOf P rs ∧ EveryOf P qs := by
  simp only [everyOf_iff, List.mem_append, or_imp, forall_and]

theorem everyOf_map_plain {ps : List Pattern} :
    EveryOf P (ps.map plain) ↔ ∀ p ∈ ps, P p := by
  simp [everyOf_iff, plain]

/-- What follows from a property of all patterns holds of all patterns. -/
theorem Every.imp (hr : r.Every P) (hPQ : ∀ p, P p → Q p) : r.Every Q := by
  induction r using induction with
  | mk f hs ih =>
    obtain ⟨hf, hhs⟩ := every_mk.1 hr
    exact every_mk.2 ⟨hPQ f hf, everyOf_iff.2 fun d hd ↦ ih d hd (everyOf_iff.1 hhs d hd)⟩

/-- The same for lists. -/
theorem EveryOf.imp (hrs : EveryOf P rs) (hPQ : ∀ p, P p → Q p) : EveryOf Q rs :=
  everyOf_iff.2 fun r hr ↦ (everyOf_iff.1 hrs r hr).imp hPQ

/-- What holds of a list holds of a part of it. -/
theorem EveryOf.subset {qs : List Region} (hrs : EveryOf P rs) (hsub : ∀ q ∈ qs, q ∈ rs) :
    EveryOf P qs :=
  everyOf_iff.2 fun q hq ↦ everyOf_iff.1 hrs q (hsub q hq)

/-! ### Heights -/

@[simp] theorem height_mk {hs : List Region} : (mk f hs).height = heightList hs := by
  rw [height]

@[simp] theorem heightList_nil : heightList [] = 0 := by
  rw [heightList]

@[simp] theorem heightList_cons : heightList (r :: rs) = max (r.height + 1) (heightList rs) := by
  rw [heightList]

/-- A list is no higher than its members say. -/
theorem heightList_le_iff {n : Nat} : heightList rs ≤ n ↔ ∀ r ∈ rs, r.height < n := by
  induction rs with
  | nil => simp
  | cons r rs ih => rw [heightList_cons, List.forall_mem_cons, Nat.max_le, Nat.succ_le_iff, ih]

/-- A member is lower than the list. -/
theorem height_lt_heightList (hr : r ∈ rs) : r.height < heightList rs :=
  heightList_le_iff.1 (Nat.le_refl _) r hr

@[simp] theorem heightList_append {qs : List Region} :
    heightList (rs ++ qs) = max (heightList rs) (heightList qs) := by
  induction rs with
  | nil => simp
  | cons r rs ih => simp [ih, Nat.max_assoc]

/-- A part of a list is no higher. -/
theorem heightList_mono {qs : List Region} (hsub : ∀ q ∈ qs, q ∈ rs) :
    heightList qs ≤ heightList rs :=
  heightList_le_iff.2 fun q hq ↦ height_lt_heightList (hsub q hq)

theorem heightList_eq_zero_iff : heightList rs = 0 ↔ rs = [] := by
  cases rs <;> simp

/-- A region is plain if it has no height. -/
theorem isPlain_iff_height_eq_zero : r.isPlain = true ↔ r.height = 0 := by
  cases r with
  | mk f hs => rw [isPlain, holes, List.isEmpty_iff, height_mk, heightList_eq_zero_iff]

theorem height_plain : (plain f).height = 0 := by
  simp [plain]

theorem heightList_map_plain_le (ps : List Pattern) : heightList (ps.map plain) ≤ 1 := by
  refine heightList_le_iff.2 fun r hr ↦ ?_
  obtain ⟨p, -, rfl⟩ := List.mem_map.1 hr
  rw [height_plain]
  exact Nat.one_pos

/-- A region without holes is its frame. -/
theorem contains_of_isPlain (hr : r.isPlain = true) : r.Contains h ↔ r.frame.Matches h := by
  rw [contains_iff, List.isEmpty_iff.1 hr]
  simp

/-! ### Clipping -/

/-- All holes of the region, taken together, lie inside its frame. -/
def Tight (r : Region) : Prop := ∀ h, ContainsAny r.holes h → r.frame.Matches h

/-- What clipping a list of regions to a pattern achieves. -/
structure Clipped (v : Pattern) (rs out : List Region) : Prop where
  /-- The result has exactly the headers that match. -/
  cover : ∀ h, ContainsAny out h ↔ ContainsAny rs h ∧ v.Matches h
  /-- No pattern of the result has a conflict or another length. -/
  solid : EveryOf (Pattern.Solid v.bytes) out
  /-- Holes are not nested more deeply than before. -/
  height_le : heightList out ≤ heightList rs
  /-- Every hole lies inside its frame. -/
  tight : ∀ c ∈ out, c.Tight

/-- Clipped lists may be put together. -/
theorem Clipped.append {qs out out' : List Region} (hrs : Clipped v rs out)
    (hqs : Clipped v qs out') : Clipped v (rs ++ qs) (out ++ out') where
  cover h := by
    rw [containsAny_append, containsAny_append, hrs.cover, hqs.cover, or_and_right]
  solid := everyOf_append.2 ⟨hrs.solid, hqs.solid⟩
  height_le := by
    have hfirst := hrs.height_le
    have hsecond := hqs.height_le
    rw [heightList_append, heightList_append]
    omega
  tight := List.forall_mem_append.2 ⟨hrs.tight, hqs.tight⟩

/-- Clipping a list clips its first member and the others. -/
theorem clipList_cons_eq_ok {out : List Region} :
    clipList (r :: rs) v = .ok out ↔
      ∃ o rest, r.clip v = .ok o ∧ clipList rs v = .ok rest ∧ out = o.toList ++ rest := by
  simp only [clipList, Checked.bind_eq_ok, Checked.pure_eq_ok, Except.ok.injEq]
  constructor
  · rintro ⟨o, ho, rest, hrest, hout⟩
    exact ⟨o, rest, ho, hrest, hout.symm⟩
  · rintro ⟨o, rest, ho, hrest, hout⟩
    exact ⟨o, ho, rest, hrest, hout.symm⟩

/-- The frame with the holes clipped to it is what clipping has to leave. -/
theorem clipped_mk {g : Pattern} {hs ds : List Region} {r : Region} (hg : g.Solid v.bytes)
    (hds : Clipped g hs ds)
    (hcover : ∀ h, g.Matches h ∧ ¬ ContainsAny hs h ↔ r.Contains h ∧ v.Matches h)
    (hheight : heightList hs ≤ r.height) : Clipped v [r] [mk g ds] where
  cover h := by
    have hiff : (mk g ds).Contains h ↔ g.Matches h ∧ ¬ ContainsAny hs h := by
      rw [contains_mk, hds.cover]
      tauto
    simpa using hiff.trans (hcover h)
  solid := by
    have := hds.solid
    rw [hg.1] at this
    simpa using ⟨hg, this⟩
  height_le := by
    have := hds.height_le
    simp only [heightList_cons, height_mk, heightList_nil]
    omega
  tight c hc := by
    obtain rfl := List.mem_singleton.1 hc
    exact fun h hh ↦ ((hds.cover h).1 hh).2

/-- A region that has no header in common with the pattern leaves nothing. -/
theorem clipped_nil (hout : ∀ h, r.Contains h → ¬ v.Matches h) : Clipped v [r] [] where
  cover h := by simpa using hout h
  solid := everyOf_nil
  height_le := by simp
  tight := by simp

/-- Clipping a list is right if clipping each member is. -/
theorem clipList_clipped {out : List Region}
    (hrs : ∀ r ∈ rs, ∀ o, r.clip v = .ok o → Clipped v [r] o.toList)
    (hout : clipList rs v = .ok out) : Clipped v rs out := by
  induction rs generalizing out with
  | nil =>
    rw [clipList] at hout
    obtain rfl := Except.ok.inj hout
    exact ⟨by simp, everyOf_nil, Nat.le_refl _, by simp⟩
  | cons r rs ih =>
    obtain ⟨o, rest, ho, hrest, rfl⟩ := clipList_cons_eq_ok.1 hout
    exact (hrs r List.mem_cons_self o ho).append
      (ih (fun q hq ↦ hrs q (List.mem_cons_of_mem _ hq)) hrest)

/-- **Clipping a region leaves exactly its headers that match the pattern**, without conflicts and
with every hole inside its frame. -/
theorem clip_clipped {o : Option Region} (ho : r.clip v = .ok o) : Clipped v [r] o.toList := by
  induction r using induction generalizing v o with
  | mk f hs ih =>
    simp only [clip, Checked.bind_eq_ok] at ho
    obtain ⟨m, hm, ho⟩ := ho
    obtain ⟨hbytes, hmeet⟩ := Pattern.of_intersect_eq_ok hm
    cases m with
    | none =>
      obtain rfl := Except.ok.inj ho
      refine clipped_nil fun h hc ↦ ?_
      exact Pattern.not_matches_of_meet?_eq_none hbytes hmeet (contains_mk.1 hc).1
    | some g =>
      obtain ⟨ds, hds, ho⟩ := Checked.bind_eq_ok.1 ho
      obtain rfl := Except.ok.inj ho
      have hsub : Clipped g hs ds := clipList_clipped (fun d hd o ↦ ih d hd) hds
      refine clipped_mk (hbytes ▸ Pattern.solid_of_meet?_eq_some hmeet) hsub (fun h ↦ ?_)
        (by simp)
      rw [Pattern.matches_of_meet?_eq_some hbytes hmeet, contains_mk, and_right_comm]

/-- What `clip_clipped` says of a list. -/
theorem clipped_of_clipList {out : List Region} (hout : clipList rs v = .ok out) :
    Clipped v rs out :=
  clipList_clipped (fun _ _ _ ↦ clip_clipped) hout

/-- A list can be clipped if each member can. -/
theorem exists_clipList_eq_ok (hrs : ∀ r ∈ rs, ∃ o, r.clip v = .ok o) :
    ∃ out, clipList rs v = .ok out := by
  induction rs with
  | nil => exact ⟨[], by rw [clipList]⟩
  | cons r rs ih =>
    obtain ⟨o, ho⟩ := hrs r List.mem_cons_self
    obtain ⟨rest, hrest⟩ := ih fun q hq ↦ hrs q (List.mem_cons_of_mem _ hq)
    exact ⟨_, clipList_cons_eq_ok.2 ⟨o, rest, ho, hrest, rfl⟩⟩

/-- Clipping succeeds on a region all of whose patterns have the length of the pattern. -/
theorem exists_clip_eq_ok (hr : r.Every (·.bytes = v.bytes)) : ∃ o, r.clip v = .ok o := by
  induction r using induction generalizing v with
  | mk f hs ih =>
    obtain ⟨hf, hhs⟩ := every_mk.1 hr
    rw [clip, Pattern.intersect_eq hf]
    cases hm : Pattern.meet? f v with
    | none => exact ⟨none, rfl⟩
    | some g =>
      have hg : g.bytes = v.bytes := (Pattern.solid_of_meet?_eq_some hm).1.trans hf
      obtain ⟨ds, hds⟩ := exists_clipList_eq_ok fun d hd ↦
        ih d hd (hg ▸ everyOf_iff.1 hhs d hd)
      exact ⟨some (mk g ds), by simp [hds]⟩

/-- A list over one length can be clipped. -/
theorem exists_clipList_of_every (hrs : EveryOf (·.bytes = v.bytes) rs) :
    ∃ out, clipList rs v = .ok out :=
  exists_clipList_eq_ok fun r hr ↦ exists_clip_eq_ok (everyOf_iff.1 hrs r hr)

/-! ### Intersection and complement -/

/-- What intersecting two lists of regions achieves. -/
structure Intersected (rs qs out : List Region) : Prop where
  /-- The result has exactly the common headers. -/
  cover : ∀ h, ContainsAny out h ↔ ContainsAny rs h ∧ ContainsAny qs h
  /-- No pattern of the result has a conflict. -/
  clean : EveryOf (fun p ↦ p.hasConflict = false) out
  /-- If the patterns on the left have one length, so have those of the result. -/
  bytes : ∀ n, EveryOf (·.bytes = n) rs → EveryOf (·.bytes = n) out
  /-- Holes are not nested more deeply than before. -/
  height_le : heightList out ≤ max (heightList rs) (heightList qs)

/-- **The intersection of two regions has the headers of both.** -/
theorem intersected_of_intersect {q : Region} {o : Option Region} (ho : r.intersect q = .ok o) :
    Intersected [r] [q] o.toList := by
  obtain ⟨f, hs⟩ := r
  obtain ⟨g, ks⟩ := q
  obtain ⟨m, hm, ho⟩ := Checked.bind_eq_ok.1 ho
  obtain ⟨hbytes, hmeet⟩ := Pattern.of_intersect_eq_ok hm
  cases m with
  | none =>
    obtain rfl := Except.ok.inj ho
    refine ⟨fun h ↦ ?_, everyOf_nil, fun n _ ↦ everyOf_nil, by simp⟩
    have := Pattern.not_matches_of_meet?_eq_none (h := h) hbytes hmeet
    simp only [frame] at this
    simp only [Option.toList_none, not_containsAny_nil, containsAny_cons, contains_mk, or_false]
    tauto
  | some m =>
    obtain ⟨ds, hds, ho⟩ := Checked.bind_eq_ok.1 ho
    obtain rfl := Except.ok.inj ho
    have hclip := clipped_of_clipList hds
    have hsolid := Pattern.solid_of_meet?_eq_some hmeet
    have hall : (mk m ds).Every (Pattern.Solid m.bytes) := every_mk.2 ⟨⟨rfl, hsolid.2⟩, hclip.solid⟩
    refine ⟨fun h ↦ ?_, ?_, fun n hn ↦ ?_, ?_⟩
    · have hm := Pattern.matches_of_meet?_eq_some (h := h) hbytes hmeet
      have hc := hclip.cover h
      simp only [frame, holes, containsAny_append] at hm hc
      simp only [Option.toList_some, containsAny_cons, contains_mk, not_containsAny_nil, or_false,
        hc, hm]
      tauto
    · exact everyOf_cons.2 ⟨hall.imp fun p hp ↦ hp.2, everyOf_nil⟩
    · have hn' : f.bytes = n := (every_mk.1 (everyOf_cons.1 hn).1).1
      exact everyOf_cons.2 ⟨hall.imp fun p hp ↦ hp.1.trans (hsolid.1.trans hn'), everyOf_nil⟩
    · have := hclip.height_le
      simp only [holes, heightList_append] at this
      simp only [Option.toList_some, heightList_cons, height_mk, heightList_nil]
      omega

/-- Regions over one length can be intersected. -/
theorem exists_intersect_eq_ok {q : Region} {n : Nat} (hr : r.Every (·.bytes = n))
    (hq : q.Every (·.bytes = n)) : ∃ o, r.intersect q = .ok o := by
  obtain ⟨f, hs⟩ := r
  obtain ⟨g, ks⟩ := q
  obtain ⟨hf, hhs⟩ := every_mk.1 hr
  obtain ⟨hg, hks⟩ := every_mk.1 hq
  have hbytes : f.bytes = g.bytes := hf.trans hg.symm
  simp only [intersect, frame, holes, Pattern.intersect_eq hbytes]
  cases hm : Pattern.meet? f g with
  | none => exact ⟨none, rfl⟩
  | some m =>
    have hmn : m.bytes = n := (Pattern.solid_of_meet?_eq_some hm).1.trans hf
    obtain ⟨ds, hds⟩ := exists_clipList_of_every (v := m) (everyOf_append.2 ⟨hmn ▸ hhs, hmn ▸ hks⟩)
    exact ⟨some (mk m ds), by simp [hds]⟩

/-- **The complement of a region has the headers that the region does not have.** The holes of the
region become regions of it, whatever their own holes are. -/
theorem containsAny_complement : ContainsAny r.complement h ↔ ¬ r.Contains h := by
  rw [complement, containsAny_append, containsAny_map_plain, Pattern.exists_mem_complement,
    contains_iff]
  tauto

/-- The complement has the length of the region. -/
theorem bytes_complement {n : Nat} (hr : r.Every (·.bytes = n)) :
    EveryOf (·.bytes = n) r.complement := by
  obtain ⟨f, hs⟩ := r
  obtain ⟨hf, hhs⟩ := every_mk.1 hr
  rw [complement, everyOf_append, everyOf_map_plain]
  exact ⟨fun p hp ↦ (Pattern.bytes_of_mem_complement hp).trans hf, hhs⟩

/-- The complement is as deep as the region, or has height one. -/
theorem heightList_complement : heightList r.complement ≤ max 1 r.height := by
  obtain ⟨f, hs⟩ := r
  have := heightList_map_plain_le f.complement
  simp only [complement, frame, holes, heightList_append, height_mk]
  omega

end HeaderFlow.Region
