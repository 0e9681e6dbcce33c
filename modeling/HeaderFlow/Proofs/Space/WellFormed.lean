import HeaderFlow.Proofs.Region.WellFormed
import HeaderFlow.Proofs.Space.Enlarge
import HeaderFlow.Proofs.Space.Overwrite

/-!
# Every operation keeps spaces well-formed

A space is well-formed if its regions are: all patterns, at every depth, have the length of its
headers and no conflict, and every hole starts inside its frame. **No operation leaves the
well-formed spaces** (`wellFormed_operations`), although the patterns it is given may have
conflicts.

Where regions are made by clipping nothing has to be known of what they were, and the other
operations take regions apart and put them together again. Only overwriting changes a frame and its
holes separately: **it acts on every trit in the same way, so that what is inside stays inside**.
-/

namespace HeaderFlow

namespace Pattern

variable {p q mask value : Pattern} {n : Nat}

/-- Trits that have a bit are overwritten by trits that have one. -/
theorem solid_replaceMasked (hp : p.Solid n) (hmask : mask.Solid n) (hvalue : value.Solid n) :
    (p.replaceMasked mask value).pattern.Solid n := by
  refine ⟨hp.1, hasConflict_eq_false_iff.2 fun i ↦ ?_⟩
  by_cases hi : i < p.width
  · rw [allows_replaceMasked (hp.1.trans hmask.1.symm) (hp.1.trans hvalue.1.symm) hi,
      allows_replaceMasked (hp.1.trans hmask.1.symm) (hp.1.trans hvalue.1.symm) hi]
    have hpi := hasConflict_eq_false_iff.1 hp.2 i
    have hvi := hasConflict_eq_false_iff.1 hvalue.2 i
    rcases hasConflict_eq_false_iff.1 hmask.2 i with hmi | hmi
    · simp only [hmi, Bool.and_true, Bool.or_eq_true]
      exact hpi.imp .inl .inl
    · simp only [hmi, Bool.and_true, Bool.or_eq_true]
      exact hvi.imp .inr .inr
  · exact .inl
      (allows_of_ge (p := (p.replaceMasked mask value).pattern) (Nat.le_of_not_lt hi) false)

/-- **Overwriting two patterns, one inside the other, keeps it inside.** -/
theorem inside_replaceMasked (hpq : p.Inside q) (hp : p.Solid q.bytes)
    (hmask : q.bytes = mask.bytes) (hvalue : q.bytes = value.bytes) :
    (p.replaceMasked mask value).pattern.Inside (q.replaceMasked mask value).pattern := by
  refine fun h hm ↦ matches_of_allows_imp (fun i b hb ↦ ?_) hm
  have hwidth : p.width = q.width := by rw [width, width, hp.1]
  by_cases hi : i < q.width
  · rw [allows_replaceMasked (hp.1.trans hmask) (hp.1.trans hvalue) (hwidth ▸ hi)] at hb
    rw [allows_replaceMasked hmask hvalue hi]
    have hsub := allows_of_forall_matches hp.2 hpq (i := i) (b := b)
    simp only [Bool.or_eq_true, Bool.and_eq_true] at hb ⊢
    exact hb.imp_left (And.imp_left hsub)
  · exact allows_of_ge (p := (q.replaceMasked mask value).pattern) (Nat.le_of_not_lt hi) b

end Pattern

namespace Region

variable {f mask value : Pattern} {r c : Region} {rs : List Region} {n lost : Nat}

/-! ### Overwriting and widening

A trit without a value cannot come about if neither what is kept nor what is written has one. Inside
stays inside, since each trit is computed from the one at its place. -/

/-- A list can be overwritten if each member can. -/
theorem exists_overwriteList_eq_ok (lost : Nat)
    (hrs : ∀ r ∈ rs, ∃ o, r.overwrite mask value = .ok o) :
    ∃ cs, overwriteList rs mask value lost = .ok cs := by
  induction rs with
  | nil => exact ⟨[], by rw [overwriteList]⟩
  | cons r rs ih =>
    obtain ⟨⟨c, m⟩, hc⟩ := hrs r List.mem_cons_self
    obtain ⟨cs, hcs⟩ := ih fun q hq ↦ hrs q (List.mem_cons_of_mem _ hq)
    exact ⟨if m = lost then c :: cs else cs, by simp [overwriteList, hc, hcs]⟩

/-- Overwriting succeeds on a region all of whose patterns have the length of mask and value. -/
theorem exists_overwrite_eq_ok (hmask : mask.bytes = n) (hvalue : value.bytes = n)
    (hr : r.Every (·.bytes = n)) : ∃ o, r.overwrite mask value = .ok o := by
  induction r using Region.induction with
  | mk f hs ih =>
    obtain ⟨hf, hhs⟩ := every_mk.1 hr
    have ho : f.overwrite mask value = .ok (f.replaceMasked mask value) := by
      simp [Pattern.overwrite, Pattern.checkWidth, hf, hmask, hvalue]
    obtain ⟨ds, hds⟩ := exists_overwriteList_eq_ok (f.replaceMasked mask value).lost
      fun d hd ↦ ih d hd (everyOf_iff.1 hhs d hd)
    exact ⟨(mk (f.replaceMasked mask value).pattern ds, (f.replaceMasked mask value).lost),
      by simp [overwrite, ho, hds]⟩

/-- The frame is overwritten as a pattern. -/
theorem frame_of_overwrite (hc : r.overwrite mask value = .ok (c, lost)) :
    c.frame = (r.frame.replaceMasked mask value).pattern := by
  obtain ⟨f, hs⟩ := r
  obtain ⟨-, -, -, ds, -, rfl⟩ := overwrite_mk_eq_ok hc
  rfl

/-- **Overwriting keeps regions well-formed** if neither mask nor value has a conflict. -/
theorem wellFormed_of_overwrite (hmask : mask.Solid n) (hvalue : value.Solid n)
    (hr : r.WellFormed n) (hc : r.overwrite mask value = .ok (c, lost)) : c.WellFormed n := by
  induction r using Region.induction generalizing c lost with
  | mk f hs ih =>
    obtain ⟨hf, hhs⟩ := wellFormed_mk.1 hr
    obtain ⟨-, -, -, ds, hds, rfl⟩ := overwrite_mk_eq_ok hc
    refine wellFormed_mk.2 ⟨Pattern.solid_replaceMasked hf hmask hvalue,
      wellFormedIn_iff.2 fun e he ↦ ?_⟩
    obtain ⟨d, hd, ho⟩ := exists_of_overwriteList hds he
    obtain ⟨hwell, hinside⟩ := wellFormedIn_iff.1 hhs d hd
    refine ⟨ih d hd hwell ho, ?_⟩
    rw [frame_of_overwrite ho]
    exact Pattern.inside_replaceMasked hinside (hf.1.symm ▸ hwell.solid_frame)
      (hf.1.trans hmask.1.symm) (hf.1.trans hvalue.1.symm)

/-- **Widening keeps regions well-formed.** -/
theorem wellFormed_enlarge {bytes : Nat} (hr : r.WellFormed n) :
    (r.enlarge bytes).WellFormed (max n bytes) := by
  induction r using Region.induction with
  | mk f hs ih =>
    obtain ⟨hf, hhs⟩ := wellFormed_mk.1 hr
    rw [enlarge_mk, wellFormed_mk, enlargeList_eq_map, wellFormedIn_iff]
    refine ⟨⟨by rw [Pattern.bytes_enlarge, hf.1], by rw [Pattern.hasConflict_enlarge, hf.2]⟩,
      fun e he ↦ ?_⟩
    obtain ⟨d, hd, rfl⟩ := List.mem_map.1 he
    obtain ⟨hwell, hinside⟩ := wellFormedIn_iff.1 hhs d hd
    refine ⟨ih d hd hwell, fun h hm ↦ ?_⟩
    obtain ⟨g, ks⟩ := d
    rw [enlarge_mk] at hm
    exact Pattern.matches_enlarge.2 (hinside h (Pattern.matches_enlarge.1 hm))

end Region

namespace Space

open Region

variable {s t u : Space} {p mask value : Pattern} {n : Nat}

/-- Every region is well-formed over headers of the length of the space. -/
def WellFormed (s : Space) : Prop := ∀ r ∈ s.regions, r.WellFormed s.bytes

theorem WellFormed.uniform (hs : s.WellFormed) : s.Uniform :=
  everyOf_iff.2 fun r hr ↦ (hs r hr).bytes

/-! ### Single patterns

A pattern with a conflict is not added, and clipping with one leaves nothing. -/

theorem wellFormed_ofPattern (p : Pattern) : (ofPattern p).WellFormed := by
  intro r hr
  simp only [ofPattern] at hr ⊢
  split at hr
  · exact absurd hr List.not_mem_nil
  · rename_i hc
    rw [List.mem_singleton.1 hr, wellFormed_plain]
    exact ⟨rfl, Bool.not_eq_true _ ▸ hc⟩

/-- Adding a pattern keeps a space well-formed, since one with a conflict is not added. -/
theorem wellFormed_of_addPattern (hs : s.WellFormed) (hu : s.addPattern p = .ok u) :
    u.WellFormed := by
  obtain ⟨⟨⟩, hbytes, rfl⟩ := Checked.map_eq_ok.1 hu
  split
  · exact hs
  · rename_i hc
    refine List.forall_mem_append.2 ⟨hs, fun r hr ↦ ?_⟩
    rw [List.mem_singleton.1 hr, wellFormed_plain]
    exact ⟨checkBytes_eq_ok.1 hbytes, Bool.not_eq_true _ ▸ hc⟩

/-- What is clipped is well-formed. -/
theorem wellFormed_of_clip (hp : p.bytes = s.bytes) (hu : s.clip p = .ok u) : u.WellFormed := by
  obtain ⟨rs, hrs, rfl⟩ := clip_eq_ok.1 hu
  intro r hr
  exact hp ▸ (wellFormedIn_iff.1 (wellFormedIn_of_clipList hrs) r hr).1

/-- A hole that is recorded lies inside the frame. -/
theorem wellFormed_of_punch {r c : Region} (hr : r.WellFormed n) (hc : punch p r = .ok c) :
    c.WellFormed n := by
  obtain ⟨hbytes, rfl⟩ := punch_eq_ok.1 hc
  refine wellFormed_mk.2 ⟨hr.solid_frame, wellFormedIn_append.2 ⟨hr.holes, ?_⟩⟩
  cases hm : r.frame.meet? p with
  | none => exact wellFormedIn_nil
  | some d =>
    have hd : d.Solid n := hr.solid_frame.1 ▸ Pattern.solid_of_meet?_eq_some hm
    exact wellFormedIn_cons.2 ⟨⟨wellFormed_plain.2 hd,
      fun h hdm ↦ ((Pattern.matches_of_meet?_eq_some hbytes hm).1 hdm).1⟩, wellFormedIn_nil⟩

/-- Cutting keeps a space well-formed. -/
theorem wellFormed_of_cut (hs : s.WellFormed) (hu : s.cut p = .ok u) : u.WellFormed := by
  obtain ⟨rs, hrs, rfl⟩ := cut_eq_ok.1 hu
  intro c hc
  obtain ⟨r, hr, hpunch⟩ := ((Checked.of_mapM_eq_ok hrs).2 c).1 hc
  exact wellFormed_of_punch (hs r hr) hpunch

/-! ### Two spaces -/

/-- A union is well-formed. -/
theorem wellFormed_of_union (hs : s.WellFormed) (ht : t.WellFormed) (hu : s.union t = .ok u) :
    u.WellFormed := by
  obtain ⟨⟨⟩, hbytes, rfl⟩ := Checked.map_eq_ok.1 hu
  exact List.forall_mem_append.2 ⟨hs, fun r hr ↦ checkBytes_eq_ok.1 hbytes ▸ ht r hr⟩

/-- A region intersected with a list is well-formed. -/
theorem wellFormed_of_intersectEach {r c : Region} {qs out : List Region}
    (hout : intersectEach r qs = .ok out) (hc : c ∈ out) : c.WellFormed r.frame.bytes := by
  induction qs generalizing out with
  | nil =>
    obtain rfl := Except.ok.inj hout
    exact absurd hc List.not_mem_nil
  | cons q qs ih =>
    obtain ⟨o, ho, hout⟩ := Checked.bind_eq_ok.1 hout
    obtain ⟨rest, hrest, hout⟩ := Checked.bind_eq_ok.1 hout
    obtain rfl := Except.ok.inj hout
    rcases List.mem_append.1 hc with hc | hc
    · obtain rfl := Option.mem_toList.1 hc
      exact wellFormed_of_intersect ho
    · exact ih hrest hc

/-- Intersected lists are well-formed. -/
theorem wellFormed_of_intersectAll {rs qs out : List Region} {c : Region}
    (hrs : EveryOf (·.bytes = n) rs) (hout : intersectAll rs qs = .ok out) (hc : c ∈ out) :
    c.WellFormed n := by
  induction rs generalizing out with
  | nil =>
    obtain rfl := Except.ok.inj hout
    exact absurd hc List.not_mem_nil
  | cons r rs ih =>
    obtain ⟨these, hthese, hout⟩ := Checked.bind_eq_ok.1 hout
    obtain ⟨rest, hrest, hout⟩ := Checked.bind_eq_ok.1 hout
    obtain rfl := Except.ok.inj hout
    obtain ⟨hr, hrs⟩ := everyOf_cons.1 hrs
    rcases List.mem_append.1 hc with hc | hc
    · exact every_frame hr ▸ wellFormed_of_intersectEach hthese hc
    · exact ih hrs hrest hc

/-- **An intersection is well-formed as soon as there is one.** -/
theorem wellFormed_of_intersect (hs : s.Uniform) (hu : s.intersect t = .ok u) : u.WellFormed := by
  obtain ⟨⟨⟩, -, hu⟩ := Checked.bind_eq_ok.1 hu
  obtain ⟨rs, hrs, hu⟩ := Checked.bind_eq_ok.1 hu
  obtain rfl := Except.ok.inj hu
  exact fun c hc ↦ wellFormed_of_intersectAll hs hrs hc

/-! ### Normal forms and the complement

Compacting makes frames smaller and clips the holes to them, so nothing new has to be shown here.
The parts of a complement have no conflict because a pattern with one does not go through the
pass. -/

theorem bytes_of_compact {o : Option Pattern} (hu : s.compact o = .ok u) : u.bytes = s.bytes := by
  obtain ⟨rs, -, hu⟩ := Checked.bind_eq_ok.1 hu
  obtain rfl := Except.ok.inj hu
  rfl

/-- Compacting keeps a space well-formed. -/
theorem wellFormed_of_compact {o : Option Pattern} (hs : s.WellFormed) (hu : s.compact o = .ok u) :
    u.WellFormed := by
  obtain ⟨rs, hrs, hu⟩ := Checked.bind_eq_ok.1 hu
  obtain rfl := Except.ok.inj hu
  have hin : WellFormedIn s.bytes (.allWild s.bytes) s.regions :=
    wellFormedIn_iff.2 fun r hr ↦ ⟨hs r hr, fun h _ ↦ Pattern.matches_allWild _ h⟩
  have hout := wellFormedIn_compactEach (fun r ↦ preserving_compactAt o r.height r) hin hrs
  exact fun r hr ↦ (wellFormedIn_iff.1 hout r hr).1

theorem wellFormed_ofRegions {rs : List Region} (hrs : ∀ r ∈ rs, r.WellFormed n) :
    (ofRegions n rs).WellFormed :=
  fun r hr ↦ hrs r (List.mem_of_mem_filter hr)

theorem wellFormed_ofRegions_complement {r : Region} (hr : r.WellFormed n) :
    (ofRegions n r.complement).WellFormed :=
  wellFormed_ofRegions fun _ ↦ wellFormed_of_mem_complement hr

theorem wellFormed_empty (bytes : Nat) : (empty bytes).WellFormed :=
  fun _ hr ↦ absurd hr List.not_mem_nil

/-- **Working off a complement keeps what is left well-formed.** -/
theorem wellFormed_of_complementFrom {acc : Space} {rs : List Region} (hacc : acc.WellFormed)
    (hrs : ∀ r ∈ rs, r.WellFormed acc.bytes) (hu : complementFrom acc rs = .ok u) :
    u.WellFormed := by
  induction rs generalizing acc with
  | nil =>
    obtain rfl := Except.ok.inj hu
    exact hacc
  | cons r rs ih =>
    rw [complementFrom] at hu
    split at hu
    · obtain rfl := Except.ok.inj hu
      exact wellFormed_empty _
    · obtain ⟨i, hi, hu⟩ := Checked.bind_eq_ok.1 hu
      obtain ⟨next, hnext, hu⟩ := Checked.bind_eq_ok.1 hu
      have hwell := wellFormed_of_compact (wellFormed_of_intersect hacc.uniform hi) hnext
      split at hu
      · obtain rfl := Except.ok.inj hu
        exact hwell
      · have hbytes : next.bytes = acc.bytes :=
          (bytes_of_compact hnext).trans (of_intersect_eq_ok hi).1
        exact ih hwell (fun q hq ↦ hbytes ▸ hrs q (List.mem_cons_of_mem _ hq)) hu

/-- A complement is well-formed. -/
theorem wellFormed_of_complement (hs : s.WellFormed) (hu : s.complement = .ok u) :
    u.WellFormed := by
  obtain ⟨bytes, rs⟩ := s
  cases rs with
  | nil =>
    obtain rfl := Except.ok.inj hu
    exact wellFormed_ofPattern _
  | cons r rs =>
    obtain ⟨hr, hrs⟩ := List.forall_mem_cons.1 hs
    rw [complement] at hu
    dsimp only at hu
    split at hu
    · obtain rfl := Except.ok.inj hu
      exact wellFormed_empty _
    · obtain ⟨first, hfirst, hu⟩ := Checked.bind_eq_ok.1 hu
      have hwell := wellFormed_of_compact (wellFormed_ofRegions_complement hr) hfirst
      split at hu
      · obtain rfl := Except.ok.inj hu
        exact hwell
      · have hbytes : first.bytes = bytes := bytes_of_compact hfirst
        exact wellFormed_of_complementFrom hwell (fun q hq ↦ hbytes ▸ hrs q hq) hu

/-- A difference is well-formed. -/
theorem wellFormed_of_minus (hs : s.WellFormed) (hu : s.minus t = .ok u) : u.WellFormed := by
  obtain ⟨c, -, hu⟩ := Checked.bind_eq_ok.1 hu
  obtain ⟨i, hi, hu⟩ := Checked.bind_eq_ok.1 hu
  exact wellFormed_of_compact (wellFormed_of_intersect hs.uniform hi) hu

/-! ### Expanding holes -/

/-- What is left without the holes is well-formed. -/
theorem wellFormed_of_cutHoles {acc : Space} {hs : List Region} (hacc : acc.WellFormed)
    (hu : cutHoles n acc hs = .ok u) : u.bytes = acc.bytes ∧ u.WellFormed := by
  induction hs generalizing acc with
  | nil =>
    obtain rfl := Except.ok.inj hu
    exact ⟨rfl, hacc⟩
  | cons d hs ih =>
    obtain ⟨c, -, hu⟩ := Checked.bind_eq_ok.1 hu
    obtain ⟨i, hi, hu⟩ := Checked.bind_eq_ok.1 hu
    have hbytes : i.bytes = acc.bytes := (of_intersect_eq_ok hi).1
    have hwell := wellFormed_of_intersect hacc.uniform hi
    split at hu
    · obtain rfl := Except.ok.inj hu
      exact ⟨hbytes, hwell⟩
    · exact (ih hwell hu).imp_left fun h ↦ h.trans hbytes

/-- One pass of expanding keeps regions well-formed. -/
theorem wellFormed_of_unrollOnce {rs out : List Region} (hrs : ∀ r ∈ rs, r.WellFormed n)
    (hout : unrollOnce n rs = .ok out) : ∀ c ∈ out, c.WellFormed n := by
  induction rs generalizing out with
  | nil =>
    obtain rfl := Except.ok.inj hout
    simp
  | cons r rs ih =>
    obtain ⟨these, hthese, hout⟩ := Checked.bind_eq_ok.1 hout
    obtain ⟨those, hthose, hout⟩ := Checked.bind_eq_ok.1 hout
    obtain rfl := Except.ok.inj hout
    obtain ⟨hr, hrs⟩ := List.forall_mem_cons.1 hrs
    refine List.forall_mem_append.2 ⟨?_, ih hrs hthose⟩
    rw [unrollRegion] at hthese
    split at hthese
    · obtain rfl := Except.ok.inj hthese
      exact List.forall_mem_singleton.2 hr
    · obtain ⟨u, hu, rfl⟩ := Checked.map_eq_ok.1 hthese
      obtain ⟨hbytes, hwell⟩ := wellFormed_of_cutHoles (wellFormed_ofPattern _) hu
      have hn : u.bytes = n := by
        rw [hbytes, ofPattern]
        exact hr.solid_frame.1
      exact hn ▸ hwell

/-- Any number of passes keeps regions well-formed. -/
theorem wellFormed_of_unrollTimes {passes : Nat} {rs out : List Region}
    (hrs : ∀ r ∈ rs, r.WellFormed n) (hout : unrollTimes n passes rs = .ok out) :
    ∀ c ∈ out, c.WellFormed n := by
  induction passes generalizing rs with
  | zero =>
    obtain rfl := Except.ok.inj hout
    exact hrs
  | succ passes ih =>
    rw [unrollTimes] at hout
    split at hout
    · obtain rfl := Except.ok.inj hout
      exact hrs
    · obtain ⟨next, hnext, hout⟩ := Checked.bind_eq_ok.1 hout
      exact ih (wellFormed_of_unrollOnce hrs hnext) hout

/-- Expanding holes keeps a space well-formed. -/
theorem wellFormed_of_unroll (hs : s.WellFormed) (hu : s.unroll = .ok u) : u.WellFormed := by
  obtain ⟨rs, hrs, hu⟩ := Checked.bind_eq_ok.1 hu
  obtain rfl := Except.ok.inj hu
  exact wellFormed_of_unrollTimes hs hrs

/-! ### Merging, widening and overwriting -/

/-- Merging plain regions keeps a space well-formed. -/
theorem wellFormed_of_simplify (hs : s.WellFormed) (hu : s.simplify = .ok u) : u.WellFormed := by
  obtain ⟨ps, hps, hsolid, -⟩ := condense_plains none hs.uniform
  have hothers : ∀ r ∈ s.regions.filter fun r ↦ !r.isPlain, r.WellFormed s.bytes :=
    fun r hr ↦ hs r (List.mem_of_mem_filter hr)
  obtain ⟨out, hout, hsub, -⟩ := dropInside_spec (fun q hq ↦ (hsolid q hq).1)
    (everyOf_iff.2 fun r hr ↦ (hothers r hr).bytes)
  have hsimplify : s.simplify = .ok ⟨s.bytes, ps.map plain ++ out⟩ := by
    simp [simplify, List.partition_eq_filter_filter, hps, Function.comp_def, hout]
  obtain rfl := Except.ok.inj (hsimplify.symm.trans hu)
  refine List.forall_mem_append.2 ⟨fun r hr ↦ ?_, fun r hr ↦ hothers r (hsub r hr)⟩
  obtain ⟨q, hq, rfl⟩ := List.mem_map.1 hr
  exact wellFormed_plain.2 (hsolid q hq)

/-- Widening keeps a space well-formed. -/
theorem wellFormed_enlarge (hs : s.WellFormed) (bytes : Nat) : (s.enlarge bytes).WellFormed := by
  rw [enlarge]
  split
  · exact hs
  · rename_i hlt
    intro c hc
    rw [enlargeList_eq_map] at hc
    obtain ⟨r, hr, rfl⟩ := List.mem_map.1 hc
    have hwell : (r.enlarge bytes).WellFormed (max s.bytes bytes) :=
      Region.wellFormed_enlarge (hs r hr)
    rwa [Nat.max_eq_right (Nat.le_of_not_le hlt)] at hwell

/-- Overwriting breaks no precondition where the lengths agree. -/
theorem exists_overwrite (hs : s.Uniform) (hmask : mask.bytes = s.bytes)
    (hvalue : value.bytes = s.bytes) : ∃ u, s.overwrite mask value = .ok u ∧ u.bytes = s.bytes := by
  have heach : ∀ r ∈ s.regions, Checked.Gives (return (← r.overwrite mask value).1) fun _ ↦
      True := by
    intro r hr
    obtain ⟨o, ho⟩ := exists_overwrite_eq_ok hmask hvalue (everyOf_iff.1 hs r hr)
    exact ⟨o.1, by simp [ho], trivial⟩
  obtain ⟨cs, hcs, -⟩ := Checked.gives_mapM heach
  exact ⟨⟨s.bytes, cs⟩, by rw [overwrite, hcs]; rfl, rfl⟩

/-- Overwriting keeps a space well-formed if neither mask nor value has a conflict. -/
theorem wellFormed_of_overwrite (hmask : mask.Solid s.bytes) (hvalue : value.Solid s.bytes)
    (hs : s.WellFormed) (hbytes : u.bytes = s.bytes) (hu : s.overwrite mask value = .ok u) :
    u.WellFormed := by
  intro c hc
  obtain ⟨r, hr, lost, ho⟩ := (of_overwrite_eq_ok hu).1 c hc
  exact hbytes ▸ Region.wellFormed_of_overwrite hmask hvalue (hs r hr) ho

/-! ### All of them -/

/-- The computation gives a well-formed space over headers of the given length. -/
def GivesWellFormed (x : Checked Space) (bytes : Nat) : Prop :=
  ∃ u, x = .ok u ∧ u.bytes = bytes ∧ u.WellFormed

/-- There is a space, and it can only be a well-formed one. -/
theorem Yields.givesWellFormed {x : Checked Space} {bytes : Nat} {set : (Nat → Bool) → Prop}
    (hx : Yields x bytes set) (hwell : ∀ u, x = .ok u → u.WellFormed) :
    GivesWellFormed x bytes := by
  obtain ⟨u, hu, hbytes, -⟩ := hx
  exact ⟨u, hu, hbytes, hwell u hu⟩

/-- **No operation leaves the well-formed spaces.** Of two well-formed spaces over headers of one
length, every operation gives a well-formed space over the same headers, or over longer ones where
it widens. This holds for every pattern of that length as an operand, with conflicts or without, and
for compacting under any mask. Only when trits are overwritten must the mask and the value have no
conflict. -/
theorem wellFormed_operations {a b : Space} {v mask value : Pattern} (o : Option Pattern)
    (bytes : Nat) (p : Pattern) (ha : a.WellFormed) (hb : b.WellFormed) (hab : b.bytes = a.bytes)
    (hv : v.bytes = a.bytes) (hmask : mask.Solid a.bytes) (hvalue : value.Solid a.bytes) :
    ((empty bytes).bytes = bytes ∧ (empty bytes).WellFormed) ∧
    ((all bytes).bytes = bytes ∧ (all bytes).WellFormed) ∧
    ((ofPattern p).bytes = p.bytes ∧ (ofPattern p).WellFormed) ∧
    GivesWellFormed (a.addPattern v) a.bytes ∧
    GivesWellFormed (a.union b) a.bytes ∧
    GivesWellFormed (a.intersect b) a.bytes ∧
    GivesWellFormed (a.clip v) a.bytes ∧
    GivesWellFormed (a.cut v) a.bytes ∧
    GivesWellFormed a.complement a.bytes ∧
    GivesWellFormed (a.minus b) a.bytes ∧
    GivesWellFormed (a.compact o) a.bytes ∧
    GivesWellFormed a.unroll a.bytes ∧
    GivesWellFormed a.simplify a.bytes ∧
    ((a.enlarge bytes).bytes = max a.bytes bytes ∧ (a.enlarge bytes).WellFormed) ∧
    GivesWellFormed (a.overwrite mask value) a.bytes := by
  have hau := ha.uniform
  have hbu := hb.uniform
  refine ⟨⟨rfl, wellFormed_empty bytes⟩, ⟨rfl, wellFormed_ofPattern _⟩,
    ⟨rfl, wellFormed_ofPattern p⟩, (addPattern_yields hau hv).givesWellFormed fun _ ↦
      wellFormed_of_addPattern ha,
    (union_yields hau hbu hab).givesWellFormed fun _ ↦ wellFormed_of_union ha hb,
    (intersect_yields hau hbu hab).givesWellFormed fun _ ↦ wellFormed_of_intersect hau,
    (clip_yields hau hv).givesWellFormed fun _ ↦ wellFormed_of_clip hv,
    (cut_yields hau hv).givesWellFormed fun _ ↦ wellFormed_of_cut ha,
    (complement_yields hau).givesWellFormed fun _ ↦ wellFormed_of_complement ha,
    (minus_yields hau hbu hab).givesWellFormed fun _ ↦ wellFormed_of_minus ha, ?_,
    (unroll_yields hau).givesWellFormed fun _ ↦ wellFormed_of_unroll ha,
    (simplify_yields hau).givesWellFormed fun _ ↦ wellFormed_of_simplify ha,
    ⟨?_, wellFormed_enlarge ha bytes⟩, ?_⟩
  · obtain ⟨u, hu, hbytes, -⟩ := compact_keeps o hau
    exact ⟨u, hu, hbytes, wellFormed_of_compact ha hu⟩
  · rw [enlarge]
    split
    · exact (Nat.max_eq_left ‹_›).symm
    · exact (Nat.max_eq_right (Nat.le_of_not_le ‹_›)).symm
  · obtain ⟨u, hu, hbytes⟩ := exists_overwrite hau hmask.1 hvalue.1
    exact ⟨u, hu, hbytes, wellFormed_of_overwrite hmask hvalue ha hbytes hu⟩

/-- Two bytes are overwritten where a hole has a hole, and the pattern to clip to has conflicts. -/
theorem wellFormed_operations_nested :
    let a : Space := ⟨2, [.mk (.allWild 2) [.mk (.fill 2 .one) [.plain (.fill 2 .one)]]]⟩
    let b : Space := ⟨2, [.plain (.fill 2 .zero)]⟩
    a.WellFormed ∧ b.WellFormed ∧ (Pattern.fill 2 .wild).Solid 2 ∧ (Pattern.fill 2 .one).Solid 2 ∧
      GivesWellFormed (a.minus b) 2 ∧ GivesWellFormed (a.cut (.fill 2 .conflict)) 2 ∧
      GivesWellFormed (a.overwrite (.fill 2 .wild) (.fill 2 .one)) 2 := by
  intro a b
  have hone : (Pattern.fill 2 .one).Solid 2 := ⟨rfl, by decide +kernel⟩
  have hwild : (Pattern.fill 2 .wild).Solid 2 := ⟨rfl, by decide +kernel⟩
  have hzero : (Pattern.fill 2 .zero).Solid 2 := ⟨rfl, by decide +kernel⟩
  have ha : a.WellFormed := by
    simp only [WellFormed, a, List.forall_mem_singleton, wellFormed_mk, wellFormedIn_cons,
      wellFormedIn_nil, and_true, wellFormed_plain]
    exact ⟨⟨rfl, Pattern.hasConflict_allWild 2⟩,
      ⟨⟨hone, hone, .refl _⟩, fun h _ ↦ Pattern.matches_allWild 2 h⟩⟩
  have hb : b.WellFormed := by
    simpa [WellFormed, b] using hzero
  have hall := wellFormed_operations none 3 (.fill 1 .one) ha hb rfl
    (v := .fill 2 .conflict) (by rfl) hwild hone
  exact ⟨ha, hb, hwild, hone, hall.2.2.2.2.2.2.2.2.2.1, hall.2.2.2.2.2.2.2.1,
    hall.2.2.2.2.2.2.2.2.2.2.2.2.2.2⟩

end Space

end HeaderFlow
