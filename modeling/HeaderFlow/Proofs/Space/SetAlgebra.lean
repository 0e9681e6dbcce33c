import HeaderFlow.Proofs.Region.Compact
import HeaderFlow.Space.Basic

/-!
# The operations on spaces are those of sets

The cover of a space is the union of the covers of its regions. Over headers of one length every
operation gives a result, and **the cover of the result is the set that the operation is named
after**: `exact_setAlgebra` says so for all of them. Nothing is asked of the regions besides the
length. Holes may be nested to any depth, may reach out of their frame, and any pattern may have a
conflict.

The complement is the one operation with an argument of its own. It works off the regions one by
one and stops as soon as nothing is left, so its invariant is about the part already done:
`complementFrom_spec` keeps the cover of the accumulator less the regions still to come.
-/

namespace HeaderFlow.Space

open Region

variable {s t u : Space} {p : Pattern} {h : Nat → Bool}

/-- All patterns of the space, at every depth, have the length of its headers. -/
def Uniform (s : Space) : Prop := EveryOf (·.bytes = s.bytes) s.regions

/-- The computation gives a space over headers of the given length with the given set of headers. -/
def Yields (x : Checked Space) (bytes : Nat) (set : (Nat → Bool) → Prop) : Prop :=
  ∃ u, x = .ok u ∧ u.bytes = bytes ∧ u.Uniform ∧ ∀ h, u.Contains h ↔ set h

/-- Only what has the length of the headers is accepted. -/
theorem checkBytes_eq_ok {bytes : Nat} : s.checkBytes bytes = .ok () ↔ bytes = s.bytes := by
  rw [checkBytes]
  split <;> simp_all

/-- A space contains what one of its regions contains. -/
theorem contains_iff : s.Contains h ↔ ∃ r ∈ s.regions, r.Contains h := containsAny_iff

/-- A space without regions contains nothing. -/
theorem not_contains_of_isEmpty (hs : s.isEmpty = true) : ¬ s.Contains h := by
  rw [Contains, List.isEmpty_iff.1 hs]
  exact not_containsAny_nil

/-! ### Single patterns

Clipping and cutting are followed in both directions: what can be said if they succeed, whatever
they are given, and that they succeed over one length. Flows are clipped and cut with what a network
knows of them, so both are used. -/

@[simp] theorem contains_ofPattern : (ofPattern p).Contains h ↔ p.Matches h := by
  rw [ofPattern]
  cases hc : p.hasConflict with
  | false => simp [Contains]
  | true => simpa [Contains] using Pattern.not_matches_of_hasConflict hc

theorem uniform_ofPattern (p : Pattern) : (ofPattern p).Uniform := by
  rw [ofPattern, Uniform]
  split <;> simp [plain]

theorem heightList_ofPattern (p : Pattern) : heightList (ofPattern p).regions ≤ 1 := by
  rw [ofPattern]
  split <;> simp [height_plain]

/-- The space of all headers contains every header. -/
theorem contains_all (bytes : Nat) (h : Nat → Bool) : (all bytes).Contains h := by
  rw [all, contains_ofPattern]
  exact Pattern.matches_allWild bytes h

/-- **Adding a pattern is union with its cover.** -/
theorem addPattern_yields (hs : s.Uniform) (hp : p.bytes = s.bytes) :
    Yields (s.addPattern p) s.bytes fun h ↦ s.Contains h ∨ p.Matches h := by
  rw [addPattern, checkBytes_eq_ok.2 hp]
  refine ⟨_, rfl, ?_⟩
  cases hc : p.hasConflict with
  | false =>
    refine ⟨rfl, everyOf_append.2 ⟨hs, ?_⟩, fun h ↦ ?_⟩
    · simpa [plain] using hp
    · simp [Contains]
  | true =>
    refine ⟨rfl, hs, fun h ↦ ?_⟩
    simp [Pattern.not_matches_of_hasConflict hc]

/-- Clipping a space clips its regions. -/
theorem clip_eq_ok :
    s.clip p = .ok u ↔ ∃ rs, clipList s.regions p = .ok rs ∧ u = ⟨s.bytes, rs⟩ := by
  simp only [clip, Checked.bind_eq_ok, Checked.pure_eq_ok, Except.ok.injEq, eq_comm (a := u)]

/-- **Clipping succeeds only with the headers that match.** -/
theorem contains_of_clip (hu : s.clip p = .ok u) : u.Contains h ↔ s.Contains h ∧ p.Matches h := by
  obtain ⟨rs, hrs, rfl⟩ := clip_eq_ok.1 hu
  exact (clipped_of_clipList hrs).cover h

/-- **Clipping to a pattern is intersection with its cover.** -/
theorem clip_yields (hs : s.Uniform) (hp : p.bytes = s.bytes) :
    Yields (s.clip p) s.bytes fun h ↦ s.Contains h ∧ p.Matches h := by
  have hbytes : EveryOf (·.bytes = p.bytes) s.regions := hp.symm ▸ hs
  obtain ⟨rs, hrs⟩ := exists_clipList_of_every hbytes
  have hu := clip_eq_ok.2 ⟨rs, hrs, rfl⟩
  refine ⟨_, hu, rfl, ?_, fun h ↦ contains_of_clip hu⟩
  exact (clipped_of_clipList hrs).solid.imp fun q hq ↦ hq.1.trans hp

/-- Cutting a pattern from a region records it as a hole, unless it has nothing in common with the
frame. -/
theorem punch_eq_ok {r c : Region} : punch p r = .ok c ↔ r.frame.bytes = p.bytes ∧
    c = .mk r.frame (r.holes ++ ((r.frame.meet? p).map plain).toList) := by
  constructor
  · intro hc
    obtain ⟨o, ho, hc⟩ := Checked.bind_eq_ok.1 hc
    obtain ⟨hbytes, rfl⟩ := Pattern.of_intersect_eq_ok ho
    refine ⟨hbytes, ?_⟩
    obtain ⟨f, hs⟩ := r
    cases hm : Pattern.meet? f p with
    | none =>
      simp only [frame, hm] at hc
      simp [frame, holes, hm, ← Except.ok.inj hc]
    | some d =>
      simp only [frame, hm] at hc
      simp [frame, holes, hm, ← Except.ok.inj hc]
  · rintro ⟨hbytes, rfl⟩
    obtain ⟨f, hs⟩ := r
    rw [punch, Pattern.intersect_eq hbytes]
    cases hm : Pattern.meet? f p <;> simp [frame, holes, hm]

/-- What is left of a region. -/
theorem contains_of_punch {r c : Region} (hc : punch p r = .ok c) :
    c.Contains h ↔ r.Contains h ∧ ¬ p.Matches h := by
  obtain ⟨hbytes, rfl⟩ := punch_eq_ok.1 hc
  rw [contains_mk, Region.contains_iff, containsAny_append]
  cases hm : r.frame.meet? p with
  | none =>
    have := Pattern.not_matches_of_meet?_eq_none (h := h) hbytes hm
    simp only [Option.map_none, Option.toList_none, not_containsAny_nil, or_false]
    tauto
  | some d =>
    have := Pattern.matches_of_meet?_eq_some (h := h) hbytes hm
    simp only [Option.map_some, Option.toList_some, containsAny_cons, contains_plain,
      not_containsAny_nil, or_false]
    tauto

/-- What is left of a list. -/
theorem containsAny_of_mapM_punch {rs cs : List Region} (hcs : rs.mapM (punch p) = .ok cs) :
    ContainsAny cs h ↔ ContainsAny rs h ∧ ¬ p.Matches h := by
  induction rs generalizing cs with
  | nil =>
    obtain rfl := Except.ok.inj hcs
    simp
  | cons r rs ih =>
    obtain ⟨c, rest, hc, hrest, rfl⟩ := Checked.mapM_cons_eq_ok.1 hcs
    rw [containsAny_cons, containsAny_cons, contains_of_punch hc, ih hrest, or_and_right]

/-- Cutting a pattern from a space cuts it from all regions. -/
theorem cut_eq_ok :
    s.cut p = .ok u ↔ ∃ rs, s.regions.mapM (punch p) = .ok rs ∧ u = ⟨s.bytes, rs⟩ := by
  simp only [cut, Checked.bind_eq_ok, Checked.pure_eq_ok, Except.ok.injEq, eq_comm (a := u)]

/-- **Cutting succeeds only with the headers that do not match.** -/
theorem contains_of_cut (hu : s.cut p = .ok u) : u.Contains h ↔ s.Contains h ∧ ¬ p.Matches h := by
  obtain ⟨rs, hrs, rfl⟩ := cut_eq_ok.1 hu
  exact containsAny_of_mapM_punch hrs

/-- The new hole has the length of the others. -/
theorem bytes_of_punch {r c : Region} {n : Nat} (hr : r.Every (·.bytes = n))
    (hc : punch p r = .ok c) : c.Every (·.bytes = n) := by
  obtain ⟨f, hs⟩ := r
  obtain ⟨hf, hhs⟩ := every_mk.1 hr
  obtain ⟨-, rfl⟩ := punch_eq_ok.1 hc
  refine every_mk.2 ⟨hf, everyOf_append.2 ⟨hhs, ?_⟩⟩
  cases hm : f.meet? p with
  | none => simp [frame, hm]
  | some d => simpa [frame, hm, plain] using (Pattern.solid_of_meet?_eq_some hm).1.trans hf

/-- A pattern of the right length can be cut from all regions. -/
theorem exists_mapM_punch {rs : List Region} {n : Nat} (hp : p.bytes = n)
    (hrs : EveryOf (·.bytes = n) rs) :
    ∃ cs, rs.mapM (punch p) = .ok cs ∧ EveryOf (·.bytes = n) cs := by
  induction rs with
  | nil => exact ⟨[], rfl, everyOf_nil⟩
  | cons r rs ih =>
    obtain ⟨hr, hrest⟩ := everyOf_cons.1 hrs
    obtain ⟨cs, hcs, hbytes⟩ := ih hrest
    have hc := punch_eq_ok.2 ⟨(every_frame hr).trans hp.symm, rfl⟩
    exact ⟨_, Checked.mapM_cons_eq_ok.2 ⟨_, cs, hc, hcs, rfl⟩,
      everyOf_cons.2 ⟨bytes_of_punch hr hc, hbytes⟩⟩

/-- **Cutting a pattern is difference with its cover.** -/
theorem cut_yields (hs : s.Uniform) (hp : p.bytes = s.bytes) :
    Yields (s.cut p) s.bytes fun h ↦ s.Contains h ∧ ¬ p.Matches h := by
  obtain ⟨rs, hrs, hbytes⟩ := exists_mapM_punch hp hs
  have hu := cut_eq_ok.2 ⟨rs, hrs, rfl⟩
  exact ⟨_, hu, rfl, hbytes, fun h ↦ contains_of_cut hu⟩

/-! ### Two spaces

An intersection goes through all pairs of regions, first for one region and a list and then for two
lists. -/

/-- **Union.** -/
theorem union_yields (hs : s.Uniform) (ht : t.Uniform) (hbytes : t.bytes = s.bytes) :
    Yields (s.union t) s.bytes fun h ↦ s.Contains h ∨ t.Contains h := by
  rw [union, checkBytes_eq_ok.2 hbytes]
  have ht' : EveryOf (·.bytes = s.bytes) t.regions := hbytes ▸ ht
  exact ⟨_, rfl, rfl, everyOf_append.2 ⟨hs, ht'⟩, fun h ↦ containsAny_append⟩

/-- One region is intersected with all of a list. -/
theorem intersected_of_intersectEach {r : Region} {qs out : List Region}
    (hout : intersectEach r qs = .ok out) : Intersected [r] qs out := by
  induction qs generalizing out with
  | nil =>
    obtain rfl := Except.ok.inj hout
    exact ⟨by simp, everyOf_nil, fun _ _ ↦ everyOf_nil, by simp⟩
  | cons q qs ih =>
    simp only [intersectEach, Checked.bind_eq_ok, Checked.pure_eq_ok, Except.ok.injEq] at hout
    obtain ⟨o, ho, rest, hrest, rfl⟩ := hout
    have hhead := intersected_of_intersect ho
    have htail := ih hrest
    refine ⟨fun h ↦ ?_, everyOf_append.2 ⟨hhead.clean, htail.clean⟩,
      fun n hn ↦ everyOf_append.2 ⟨hhead.bytes n hn, htail.bytes n hn⟩, ?_⟩
    · rw [containsAny_append, hhead.cover, htail.cover, containsAny_cons (r := q), containsAny_cons]
      simp only [not_containsAny_nil, containsAny_cons, or_false]
      tauto
    · have h₁ := hhead.height_le
      have h₂ := htail.height_le
      simp only [heightList_append, heightList_cons, heightList_nil] at *
      omega

/-- All of a list are intersected with all of another one. -/
theorem intersected_of_intersectAll {rs qs out : List Region}
    (hout : intersectAll rs qs = .ok out) : Intersected rs qs out := by
  induction rs generalizing out with
  | nil =>
    obtain rfl := Except.ok.inj hout
    exact ⟨by simp, everyOf_nil, fun _ _ ↦ everyOf_nil, by simp⟩
  | cons r rs ih =>
    simp only [intersectAll, Checked.bind_eq_ok, Checked.pure_eq_ok, Except.ok.injEq] at hout
    obtain ⟨these, hthese, rest, hrest, rfl⟩ := hout
    have hhead := intersected_of_intersectEach hthese
    have htail := ih hrest
    refine ⟨fun h ↦ ?_, everyOf_append.2 ⟨hhead.clean, htail.clean⟩, fun n hn ↦ ?_, ?_⟩
    · rw [containsAny_append, hhead.cover, htail.cover, containsAny_cons, containsAny_cons,
        or_iff_left not_containsAny_nil, or_and_right]
    · obtain ⟨hr, hrs⟩ := everyOf_cons.1 hn
      exact everyOf_append.2
        ⟨hhead.bytes n (everyOf_cons.2 ⟨hr, everyOf_nil⟩), htail.bytes n hrs⟩
    · have h₁ := hhead.height_le
      have h₂ := htail.height_le
      simp only [heightList_append, heightList_cons, heightList_nil] at *
      omega

/-- Lists over one length can be intersected. -/
theorem exists_intersectAll {rs qs : List Region} {n : Nat} (hrs : EveryOf (·.bytes = n) rs)
    (hqs : EveryOf (·.bytes = n) qs) : ∃ out, intersectAll rs qs = .ok out := by
  have heach : ∀ r : Region, r.Every (·.bytes = n) → ∃ out, intersectEach r qs = .ok out := by
    intro r hr
    induction qs with
    | nil => exact ⟨[], rfl⟩
    | cons q qs ih =>
      obtain ⟨hq, hrest⟩ := everyOf_cons.1 hqs
      obtain ⟨o, ho⟩ := exists_intersect_eq_ok hr hq
      obtain ⟨out, hout⟩ := ih hrest
      exact ⟨o.toList ++ out, by simp [intersectEach, ho, hout]⟩
  induction rs with
  | nil => exact ⟨[], rfl⟩
  | cons r rs ih =>
    obtain ⟨hr, hrest⟩ := everyOf_cons.1 hrs
    obtain ⟨these, hthese⟩ := heach r hr
    obtain ⟨out, hout⟩ := ih hrest
    exact ⟨these ++ out, by simp [intersectAll, hthese, hout]⟩

/-- The intersection keeps the length and intersects the regions. -/
theorem of_intersect_eq_ok (hu : s.intersect t = .ok u) :
    u.bytes = s.bytes ∧ Intersected s.regions t.regions u.regions := by
  simp only [intersect, Checked.bind_eq_ok, Checked.pure_eq_ok, Except.ok.injEq] at hu
  obtain ⟨-, -, rs, hrs, rfl⟩ := hu
  exact ⟨rfl, intersected_of_intersectAll hrs⟩

/-- Spaces over one length can be intersected. -/
theorem exists_intersect (hs : s.Uniform) (ht : t.Uniform) (hbytes : t.bytes = s.bytes) :
    ∃ u, s.intersect t = .ok u := by
  have ht' : EveryOf (·.bytes = s.bytes) t.regions := hbytes ▸ ht
  obtain ⟨rs, hrs⟩ := exists_intersectAll hs ht'
  exact ⟨⟨s.bytes, rs⟩, by simp [intersect, checkBytes_eq_ok.2 hbytes, hrs]⟩

/-- **Intersection.** -/
theorem intersect_yields (hs : s.Uniform) (ht : t.Uniform) (hbytes : t.bytes = s.bytes) :
    Yields (s.intersect t) s.bytes fun h ↦ s.Contains h ∧ t.Contains h := by
  obtain ⟨u, hu⟩ := exists_intersect hs ht hbytes
  obtain ⟨hlen, hregions⟩ := of_intersect_eq_ok hu
  refine ⟨u, hu, hlen, ?_, hregions.cover⟩
  rw [Uniform, hlen]
  exact hregions.bytes _ hs

/-! ### Normal forms and the complement

The complement of a space intersects the complements of its regions and compacts after each step.
What compacting does is not needed beyond that it keeps headers (`Keeps`), so the invariant is about
sets alone. A difference is the intersection with a complement. -/

/-- **Compacting a space keeps its headers**, and holes inside their frames. -/
theorem compact_keeps (mask : Option Pattern) {n : Nat} (hs : EveryOf (·.bytes = n) s.regions) :
    ∃ u, s.compact mask = .ok u ∧ u.bytes = s.bytes ∧ Keeps s.regions u.regions ∧
      ((∀ r ∈ s.regions, r.Tight) → ∀ r ∈ u.regions, r.Tight) := by
  obtain ⟨rs, hrs, hkeeps, htight⟩ := compactEach_keeps (fun _ ↦ compact_settles mask) hs
  exact ⟨⟨s.bytes, rs⟩, by simp [compact, hrs], rfl, hkeeps, htight⟩

theorem Keeps.uniform (hbytes : u.bytes = s.bytes) (hkeeps : Keeps s.regions u.regions)
    (hs : s.Uniform) : u.Uniform := by
  rw [Uniform, hbytes]
  exact hkeeps.bytes _ hs

/-- Leaving out regions without headers leaves out no header. -/
theorem contains_ofRegions {bytes : Nat} {rs : List Region} :
    (ofRegions bytes rs).Contains h ↔ ContainsAny rs h :=
  containsAny_filter

theorem uniform_ofRegions {bytes : Nat} {rs : List Region} (hrs : EveryOf (·.bytes = bytes) rs) :
    (ofRegions bytes rs).Uniform :=
  (keeps_filter rs).bytes bytes hrs

/-- What has been achieved when a complement is worked off: the headers of the accumulator that lie
in none of the regions. -/
structure Excludes (acc : Space) (rs : List Region) (u : Space) : Prop where
  bytes : u.bytes = acc.bytes
  uniform : u.Uniform
  cover : ∀ h, u.Contains h ↔ acc.Contains h ∧ ¬ ContainsAny rs h
  height_le : heightList u.regions ≤
    max (heightList acc.regions) (max 1 (heightList rs - 1))

/-- One region more is excluded. -/
theorem Excludes.cons {acc next : Space} {r : Region} {rs : List Region}
    (hhead : Excludes acc [r] next) (htail : Excludes next rs u) : Excludes acc (r :: rs) u where
  bytes := htail.bytes.trans hhead.bytes
  uniform := htail.uniform
  cover h := by
    rw [htail.cover, hhead.cover, containsAny_cons, containsAny_cons,
      or_iff_left not_containsAny_nil, and_assoc, not_or]
  height_le := by
    have h₁ := hhead.height_le
    have h₂ := htail.height_le
    simp only [heightList_cons, heightList_nil] at *
    omega

/-- When nothing is left, the rest need not be looked at. -/
theorem Excludes.cons_of_isEmpty {acc next : Space} {r : Region} {rs : List Region}
    (hhead : Excludes acc [r] next) (hempty : next.isEmpty = true) :
    Excludes acc (r :: rs) next where
  bytes := hhead.bytes
  uniform := hhead.uniform
  cover h := by
    have hnot := not_contains_of_isEmpty (h := h) hempty
    have := hhead.cover h
    simp only [containsAny_cons, not_containsAny_nil, or_false] at *
    tauto
  height_le := by
    rw [List.isEmpty_iff.1 hempty]
    simp

/-- A region whose complement is empty leaves nothing. -/
theorem excludes_empty {acc : Space} {r : Region} {rs : List Region} {bytes : Nat}
    (hempty : (ofRegions bytes r.complement).isEmpty = true) :
    Excludes acc (r :: rs) (empty acc.bytes) where
  bytes := rfl
  uniform := everyOf_nil
  cover h := by
    have hnot := not_contains_of_isEmpty (h := h) hempty
    rw [contains_ofRegions, containsAny_complement, not_not] at hnot
    simp [empty, Contains, hnot]
  height_le := by simp [empty]

/-- The complement of a region is not nested deeper. -/
theorem heightList_ofRegions_complement (bytes : Nat) (r : Region) :
    heightList (ofRegions bytes r.complement).regions ≤ max 1 r.height :=
  Nat.le_trans (keeps_filter r.complement).height_le heightList_complement

/-- One region is excluded by intersecting with its complement. -/
theorem excludes_one {acc : Space} {r : Region} (hacc : acc.Uniform)
    (hr : r.Every (·.bytes = acc.bytes)) :
    ∃ i, acc.intersect (ofRegions acc.bytes r.complement) = .ok i ∧
      ∃ next, i.compact none = .ok next ∧ Excludes acc [r] next := by
  obtain ⟨i, hi⟩ := exists_intersect hacc (uniform_ofRegions (bytes_complement hr)) rfl
  obtain ⟨hlen, hregions⟩ := of_intersect_eq_ok hi
  have hiu : i.Uniform := by
    rw [Uniform, hlen]
    exact hregions.bytes _ hacc
  obtain ⟨next, hnext, hlen', hkeeps, -⟩ := compact_keeps none hiu
  refine ⟨i, hi, next, hnext, hlen'.trans hlen, Keeps.uniform hlen' hkeeps hiu, fun h ↦ ?_, ?_⟩
  · rw [Contains, hkeeps.cover, hregions.cover]
    refine and_congr_right fun _ ↦ ?_
    rw [← Contains, contains_ofRegions, containsAny_complement, containsAny_cons,
      or_iff_left not_containsAny_nil]
  · have h₁ := hkeeps.height_le
    have h₂ := hregions.height_le
    have h₃ := heightList_ofRegions_complement acc.bytes r
    simp only [heightList_cons, heightList_nil]
    omega

/-- **The invariant of the complement**: what is left is the accumulator less the regions still to
come. -/
theorem complementFrom_spec {acc : Space} {rs : List Region} (hacc : acc.Uniform)
    (hrs : EveryOf (·.bytes = acc.bytes) rs) :
    ∃ u, complementFrom acc rs = .ok u ∧ Excludes acc rs u := by
  induction rs generalizing acc with
  | nil => exact ⟨acc, rfl, rfl, hacc, by simp, by omega⟩
  | cons r rs ih =>
    obtain ⟨hr, hrest⟩ := everyOf_cons.1 hrs
    obtain ⟨i, hi, next, hnext, hexcludes⟩ := excludes_one hacc hr
    simp only [complementFrom, hi, Checked.ok_bind, hnext]
    split
    · rename_i hempty
      exact ⟨_, rfl, excludes_empty hempty⟩
    split
    · rename_i hempty
      exact ⟨next, rfl, hexcludes.cons_of_isEmpty hempty⟩
    · obtain ⟨u, hu, htail⟩ := ih hexcludes.uniform (hexcludes.bytes.symm ▸ hrest)
      exact ⟨u, hu, hexcludes.cons htail⟩

/-- The first region is not intersected with anything, which comes to the same as intersecting with
all headers. -/
theorem excludes_first {s : Space} {r : Region} (hr : r.Every (·.bytes = s.bytes)) :
    ∃ first, (ofRegions s.bytes r.complement).compact none = .ok first ∧
      Excludes (all s.bytes) [r] first := by
  have huniform := uniform_ofRegions (bytes_complement hr)
  obtain ⟨first, hfirst, hlen, hkeeps, -⟩ := compact_keeps none huniform
  refine ⟨first, hfirst, hlen, Keeps.uniform hlen hkeeps huniform, fun h ↦ ?_, ?_⟩
  · rw [Contains, hkeeps.cover, ← Contains, contains_ofRegions, containsAny_complement,
      containsAny_cons, or_iff_left not_containsAny_nil, and_iff_right (contains_all _ h)]
  · have h₁ := hkeeps.height_le
    have h₂ := heightList_ofRegions_complement s.bytes r
    simp only [heightList_cons, heightList_nil]
    omega

/-- **The complement has the headers that the space does not have.** -/
theorem complement_spec (hs : s.Uniform) :
    ∃ u, s.complement = .ok u ∧ Excludes (all s.bytes) s.regions u := by
  obtain ⟨bytes, rs⟩ := s
  cases rs with
  | nil => exact ⟨_, rfl, rfl, uniform_ofPattern _, by simp, by omega⟩
  | cons r rs =>
    obtain ⟨hr, hrest⟩ := everyOf_cons.1 hs
    obtain ⟨first, hfirst, hexcludes⟩ := excludes_first hr
    simp only [complement, hfirst, Checked.ok_bind]
    split
    · rename_i hempty
      exact ⟨_, rfl, excludes_empty hempty⟩
    split
    · rename_i hempty
      exact ⟨first, rfl, hexcludes.cons_of_isEmpty hempty⟩
    · obtain ⟨u, hu, htail⟩ := complementFrom_spec hexcludes.uniform
        (hexcludes.bytes.symm ▸ hrest)
      exact ⟨u, hu, hexcludes.cons htail⟩

/-- **Complement.** -/
theorem complement_yields (hs : s.Uniform) :
    Yields s.complement s.bytes fun h ↦ ¬ s.Contains h := by
  obtain ⟨u, hu, hexcludes⟩ := complement_spec hs
  refine ⟨u, hu, hexcludes.bytes, hexcludes.uniform, fun h ↦ ?_⟩
  rw [hexcludes.cover, and_iff_right (contains_all _ h), ← Contains]

/-- **The difference has the headers of the one space outside the other**, and no pattern in it has
a conflict. -/
theorem minus_spec (hs : s.Uniform) (ht : t.Uniform) (hbytes : t.bytes = s.bytes) :
    ∃ u, s.minus t = .ok u ∧ u.bytes = s.bytes ∧ u.Uniform ∧
      (∀ h, u.Contains h ↔ s.Contains h ∧ ¬ t.Contains h) ∧
      EveryOf (fun p ↦ p.hasConflict = false) u.regions := by
  obtain ⟨c, hc, hclen, hcu, hccover⟩ := complement_yields ht
  obtain ⟨i, hi⟩ := exists_intersect hs hcu (hclen.trans hbytes)
  obtain ⟨hilen, hregions⟩ := of_intersect_eq_ok hi
  have hiu : i.Uniform := by
    rw [Uniform, hilen]
    exact hregions.bytes _ hs
  obtain ⟨u, hu, hulen, hkeeps, -⟩ := compact_keeps none hiu
  refine ⟨u, by simp [minus, hc, hi, hu], hulen.trans hilen, Keeps.uniform hulen hkeeps hiu,
    fun h ↦ ?_, hkeeps.clean hregions.clean⟩
  rw [Contains, hkeeps.cover, hregions.cover, ← Contains, ← Contains, hccover]

/-- **Difference.** -/
theorem minus_yields (hs : s.Uniform) (ht : t.Uniform) (hbytes : t.bytes = s.bytes) :
    Yields (s.minus t) s.bytes fun h ↦ s.Contains h ∧ ¬ t.Contains h := by
  obtain ⟨u, hu, hlen, huniform, hcover, -⟩ := minus_spec hs ht hbytes
  exact ⟨u, hu, hlen, huniform, hcover⟩

/-! ### Expanding holes

A region is its frame without its holes, so a pass replaces each region with holes by the difference
of the two, worked out. The complement of a hole has the holes of the hole as regions, which is how
they come up two levels. As long as there are holes a pass makes the nesting shallower, and that
bounds the number of passes. -/

/-- A space over the given headers is left without some regions, none of which is nested as deeply
as they were. -/
theorem cutHoles_spec {acc : Space} {hs : List Region} (hacc : acc.Uniform)
    (hhs : EveryOf (·.bytes = acc.bytes) hs)
    (hclean : EveryOf (fun p ↦ p.hasConflict = false) acc.regions) :
    ∃ u, cutHoles acc.bytes acc hs = .ok u ∧ Excludes acc hs u ∧
      EveryOf (fun p ↦ p.hasConflict = false) u.regions := by
  induction hs generalizing acc with
  | nil => exact ⟨acc, rfl, ⟨rfl, hacc, by simp, by omega⟩, hclean⟩
  | cons d hs ih =>
    obtain ⟨hd, hrest⟩ := everyOf_cons.1 hhs
    have hsingle : EveryOf (·.bytes = acc.bytes) [d] := everyOf_cons.2 ⟨hd, everyOf_nil⟩
    obtain ⟨c, hc, hcomplement⟩ := complement_spec (uniform_ofRegions hsingle)
    obtain ⟨i, hi⟩ := exists_intersect hacc hcomplement.uniform hcomplement.bytes
    obtain ⟨hlen, hregions⟩ := of_intersect_eq_ok hi
    have hexcludes : Excludes acc [d] i := by
      refine ⟨hlen, ?_, fun h ↦ ?_, ?_⟩
      · rw [Uniform, hlen]
        exact hregions.bytes _ hacc
      · rw [Contains, hregions.cover, ← Contains, ← Contains, hcomplement.cover,
          and_iff_right (contains_all _ h), ← Contains, contains_ofRegions]
      · have h₁ := hregions.height_le
        have h₂ := hcomplement.height_le
        have h₃ : heightList (ofRegions acc.bytes [d]).regions ≤ heightList [d] :=
          (keeps_filter [d]).height_le
        have h₄ : heightList (all acc.bytes).regions ≤ 1 := heightList_ofPattern _
        simp only [heightList_cons, heightList_nil, ofRegions] at *
        omega
    simp only [cutHoles, hc, hi, Checked.ok_bind]
    split
    · rename_i hempty
      exact ⟨i, rfl, hexcludes.cons_of_isEmpty hempty, hregions.clean⟩
    · obtain ⟨u, hu, htail, huclean⟩ := ih hexcludes.uniform (hlen.symm ▸ hrest) hregions.clean
      exact ⟨u, hlen ▸ hu, hexcludes.cons htail, huclean⟩

/-- Expanding the holes of one region keeps its headers, and what was inside a hole's hole comes up
two levels. -/
theorem unrollRegion_keeps {r : Region} {n : Nat} (hr : r.Every (·.bytes = n)) :
    ∃ out, unrollRegion n r = .ok out ∧ Keeps [r] out ∧ heightList out ≤ max 1 (r.height - 1) := by
  rw [unrollRegion]
  split
  · rename_i hplain
    refine ⟨[r], rfl, .refl [r], ?_⟩
    rw [heightList_cons, isPlain_iff_height_eq_zero.1 hplain]
    simp
  · obtain ⟨f, hs⟩ := r
    obtain ⟨rfl, hhs⟩ := every_mk.1 hr
    have hframe : EveryOf (fun p ↦ p.hasConflict = false) (ofPattern f).regions := by
      rw [ofPattern]
      split <;> simp_all [plain]
    obtain ⟨u, hu, hexcludes, hclean⟩ := cutHoles_spec (uniform_ofPattern f) hhs hframe
    have hheight : heightList u.regions ≤ max 1 (heightList hs - 1) := by
      have h₁ := hexcludes.height_le
      have h₂ := heightList_ofPattern f
      omega
    refine ⟨u.regions, ?_, ⟨fun h ↦ ?_, fun m hm ↦ ?_, fun _ ↦ hclean, ?_⟩, by rwa [height_mk]⟩
    · exact congrArg (Except.map regions) hu
    · have := hexcludes.cover h
      rw [contains_ofPattern, Contains] at this
      simpa using this
    · have hfm : f.bytes = m := (every_mk.1 (everyOf_cons.1 hm).1).1
      have := hexcludes.uniform
      rw [Uniform, hexcludes.bytes] at this
      exact hfm ▸ this
    · simp only [heightList_cons, heightList_nil, height_mk]
      omega

/-- **One pass keeps the headers and takes two levels of holes away**, where there are so many. -/
theorem unrollOnce_keeps {rs : List Region} {n : Nat} (hrs : EveryOf (·.bytes = n) rs) :
    ∃ out, unrollOnce n rs = .ok out ∧ Keeps rs out ∧
      heightList out ≤ max 1 (heightList rs - 2) := by
  induction rs with
  | nil => exact ⟨[], rfl, .refl [], by simp⟩
  | cons r rs ih =>
    obtain ⟨hr, hrest⟩ := everyOf_cons.1 hrs
    obtain ⟨these, hthese, hkeeps, hheight⟩ := unrollRegion_keeps hr
    obtain ⟨those, hthose, hkeeps', hheight'⟩ := ih hrest
    refine ⟨these ++ those, by simp [unrollOnce, hthese, hthose], hkeeps.append hkeeps', ?_⟩
    simp only [heightList_append, heightList_cons]
    omega

/-- **Expanding holes keeps the headers**, and as many passes as holes are nested leave none. -/
theorem unrollTimes_keeps (passes : Nat) {rs : List Region} {n : Nat}
    (hrs : EveryOf (·.bytes = n) rs) :
    ∃ out, unrollTimes n passes rs = .ok out ∧ Keeps rs out ∧
      (heightList rs ≤ passes + 1 → ∀ r ∈ out, r.isPlain = true) := by
  have hdone : ∀ qs : List Region, heightList qs ≤ 1 → ∀ r ∈ qs, r.isPlain = true :=
    fun qs hle r hr ↦ isPlain_iff_height_eq_zero.2 (by
      have := heightList_le_iff.1 hle r hr
      omega)
  induction passes generalizing rs with
  | zero => exact ⟨rs, rfl, .refl rs, hdone rs⟩
  | succ passes ih =>
    rw [unrollTimes]
    split
    · rename_i hall
      exact ⟨rs, rfl, .refl rs, fun _ ↦ List.all_eq_true.1 hall⟩
    · obtain ⟨next, hnext, hkeeps, hheight⟩ := unrollOnce_keeps hrs
      obtain ⟨out, hout, hkeeps', hplain⟩ := ih (hkeeps.bytes n hrs)
      rw [hnext]
      exact ⟨out, hout, hkeeps.trans hkeeps', fun hle ↦ hplain (by omega)⟩

/-- **Expanding the holes of a space keeps its headers and leaves no holes.** -/
theorem unroll_keeps (hs : s.Uniform) :
    ∃ u, s.unroll = .ok u ∧ u.bytes = s.bytes ∧ Keeps s.regions u.regions ∧
      ∀ r ∈ u.regions, r.isPlain = true := by
  obtain ⟨rs, hrs, hkeeps, hplain⟩ := unrollTimes_keeps (heightList s.regions) hs
  exact ⟨⟨s.bytes, rs⟩, by simp [unroll, hrs], rfl, hkeeps, hplain (Nat.le_succ _)⟩

/-- **Expanding holes changes no cover.** -/
theorem unroll_yields (hs : s.Uniform) : Yields s.unroll s.bytes s.Contains := by
  obtain ⟨u, hu, hlen, hkeeps, -⟩ := unroll_keeps hs
  exact ⟨u, hu, hlen, Keeps.uniform hlen hkeeps hs, hkeeps.cover⟩

/-! ### Merging plain regions

The plain regions are condensed as patterns, and other regions whose frame lies inside one of them
are dropped. The latter can only be regions that are covered already. -/

/-- Whether a pattern lies inside one of a list is answered, and a yes is right. -/
theorem insideAny_spec {n : Nat} {ps : List Pattern} (hp : p.bytes = n)
    (hps : ∀ q ∈ ps, q.bytes = n) :
    ∃ b, insideAny p ps = .ok b ∧ (b = true → ∀ h, p.Matches h → Pattern.MatchesAny ps h) := by
  induction ps with
  | nil => exact ⟨false, rfl, by simp⟩
  | cons q ps ih =>
    obtain ⟨hq, hrest⟩ := List.forall_mem_cons.1 hps
    obtain ⟨b, hb, hinside⟩ := ih hrest
    have hbytes : p.bytes = q.bytes := hp.trans hq.symm
    simp only [insideAny, Pattern.isSubset_eq hbytes, Checked.ok_bind, Pattern.matchesAny_cons]
    split
    · rename_i hwithin
      exact ⟨true, rfl, fun _ h hm ↦ .inl (Pattern.matches_of_within hbytes hwithin hm)⟩
    · exact ⟨b, hb, fun hbt h hm ↦ .inr (hinside hbt h hm)⟩

/-- What is dropped lies in the patterns. -/
theorem dropInside_spec {n : Nat} {ps : List Pattern} {rs : List Region}
    (hps : ∀ q ∈ ps, q.bytes = n) (hrs : EveryOf (·.bytes = n) rs) :
    ∃ out, dropInside ps rs = .ok out ∧ (∀ r ∈ out, r ∈ rs) ∧
      ∀ h, Pattern.MatchesAny ps h ∨ ContainsAny out h ↔
        Pattern.MatchesAny ps h ∨ ContainsAny rs h := by
  induction rs with
  | nil => exact ⟨[], rfl, by simp, fun h ↦ Iff.rfl⟩
  | cons r rs ih =>
    obtain ⟨hr, hrest⟩ := everyOf_cons.1 hrs
    obtain ⟨out, hout, hsub, hcover⟩ := ih hrest
    obtain ⟨b, hb, hinside⟩ := insideAny_spec (every_frame hr) hps
    refine ⟨if b then out else r :: out, by simp [dropInside, hb, hout], ?_, fun h ↦ ?_⟩
    · intro c hc
      split at hc
      · exact List.mem_cons_of_mem _ (hsub c hc)
      · exact (List.mem_cons.1 hc).elim (fun he ↦ he ▸ List.mem_cons_self)
          fun hmem ↦ List.mem_cons_of_mem _ (hsub c hmem)
    · split
      · rename_i hbt
        have hcontains : r.Contains h → Pattern.MatchesAny ps h := fun hc ↦
          hinside hbt h (Region.contains_iff.1 hc).1
        rw [hcover, containsAny_cons]
        tauto
      · rw [containsAny_cons, containsAny_cons, or_left_comm, hcover, or_left_comm]

/-- **Merging the plain regions keeps the headers.** -/
theorem simplify_yields (hs : s.Uniform) : Yields s.simplify s.bytes s.Contains := by
  obtain ⟨ps, hps, hsolid, hcover⟩ := condense_plains none hs
  have hothers : EveryOf (·.bytes = s.bytes) (s.regions.filter fun r ↦ !r.isPlain) :=
    hs.subset fun _ ↦ List.mem_of_mem_filter
  obtain ⟨out, hout, hsub, hdrop⟩ := dropInside_spec (fun q hq ↦ (hsolid q hq).1) hothers
  refine ⟨⟨s.bytes, ps.map plain ++ out⟩, ?_, rfl, ?_, fun h ↦ ?_⟩
  · simp [simplify, List.partition_eq_filter_filter, hps, Function.comp_def, hout]
  · exact everyOf_append.2
      ⟨everyOf_map_plain.2 fun q hq ↦ (hsolid q hq).1, hothers.subset hsub⟩
  · rw [Contains, Contains, ← containsAny_partition hcover, containsAny_append,
      containsAny_append, containsAny_map_plain]
    exact hdrop h

/-! ### All of them -/

/-- **The operations on spaces are exact set operations.** For two spaces over headers of one length
and a pattern of that length, however holes are nested and whether or not they lie inside their
frame or have conflicts, every operation gives a space over the same headers, and its headers are
those of the intersection, the difference, the union, the complement, or of the space itself. -/
theorem exact_setAlgebra {a b : Space} {v : Pattern} (ha : a.Uniform) (hb : b.Uniform)
    (hab : b.bytes = a.bytes) (hv : v.bytes = a.bytes) :
    Yields (a.intersect b) a.bytes (fun h ↦ a.Contains h ∧ b.Contains h) ∧
    Yields (a.clip v) a.bytes (fun h ↦ a.Contains h ∧ v.Matches h) ∧
    Yields (a.cut v) a.bytes (fun h ↦ a.Contains h ∧ ¬ v.Matches h) ∧
    Yields (a.union b) a.bytes (fun h ↦ a.Contains h ∨ b.Contains h) ∧
    Yields (a.addPattern v) a.bytes (fun h ↦ a.Contains h ∨ v.Matches h) ∧
    Yields a.complement a.bytes (fun h ↦ ¬ a.Contains h) ∧
    Yields (a.minus b) a.bytes (fun h ↦ a.Contains h ∧ ¬ b.Contains h) ∧
    Yields a.unroll a.bytes a.Contains ∧
    Yields a.simplify a.bytes a.Contains :=
  ⟨intersect_yields ha hb hab, clip_yields ha hv, cut_yields ha hv, union_yields ha hb hab,
    addPattern_yields ha hv, complement_yields ha, minus_yields ha hb hab, unroll_yields ha,
    simplify_yields ha⟩

/-- A hole that reaches out of its frame and has a hole with a conflict, and a frame with one. -/
theorem exact_setAlgebra_nested :
    let a : Space := ⟨1, [.mk (.fill 1 .one) [.mk (.allWild 1) [.plain (.fill 1 .conflict)]]]⟩
    let b : Space := ⟨1, [.mk (.fill 1 .conflict) [.plain (.allWild 1)]]⟩
    a.Uniform ∧ b.Uniform ∧
      Yields (a.minus b) 1 (fun h ↦ a.Contains h ∧ ¬ b.Contains h) := by
  intro a b
  have ha : a.Uniform := by simp [a, Uniform, plain, Pattern.fill]
  have hb : b.Uniform := by simp [b, Uniform, plain, Pattern.fill]
  exact ⟨ha, hb, (exact_setAlgebra ha hb rfl (Pattern.bytes_allWild 1)).2.2.2.2.2.2.1⟩

end HeaderFlow.Space
