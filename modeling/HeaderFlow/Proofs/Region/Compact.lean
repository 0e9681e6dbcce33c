import HeaderFlow.Proofs.Pattern.Reduction
import HeaderFlow.Proofs.Region.Cover
import HeaderFlow.Region.Compact

/-!
# Compacting keeps the headers

Every step of compacting replaces a list of regions by another one with the same headers. The steps
are different, but what they promise is the same: `Keeps` says it once, and since it is reflexive,
transitive and compatible with `++`, **each round is the composition of its steps**, whatever their
number. So the bound on the rounds plays no part here.

Compacting may fail only where two widths differ. The results therefore ask for one width, and
answer that there is a result.

## The three steps of a round

* *Condensing* works on the frames of plain holes and is taken over from patterns
  (`condensePlain_keeps`).
* *Each hole* is compacted by itself, which is the induction on depth (`compactEach_keeps`).
* *Biting*: a plain hole that leaves one bit of the frame free is traded for a smaller frame. The
  other holes are clipped to it, and those that are left lie inside. **A hole that covers the frame
  leaves nothing** of the region, and the answer is that there is none (`bite_settles`).

For a single region it is not enough to have the same headers. The next step has to know that its
holes lie inside its frame, or else trading a hole for a frame would change what the others take
away; `Settles` promises both.
-/

namespace HeaderFlow.Region

variable {f : Pattern} {r : Region} {rs qs : List Region} {h : Nat → Bool} {n : Nat}
  {mask : Option Pattern}

/-- The second list may stand for the first. -/
structure Keeps (rs qs : List Region) : Prop where
  /-- They have the same headers. -/
  cover : ∀ h, ContainsAny qs h ↔ ContainsAny rs h
  /-- A common length of the patterns stays. -/
  bytes : ∀ n, EveryOf (·.bytes = n) rs → EveryOf (·.bytes = n) qs
  /-- No conflicts arise. -/
  clean : EveryOf (fun p ↦ p.hasConflict = false) rs → EveryOf (fun p ↦ p.hasConflict = false) qs
  /-- Holes are not nested more deeply than before. -/
  height_le : heightList qs ≤ heightList rs

/-- A list stands for itself. -/
theorem Keeps.refl (rs : List Region) : Keeps rs rs :=
  ⟨fun _ ↦ Iff.rfl, fun _ hn ↦ hn, fun hc ↦ hc, Nat.le_refl _⟩

/-- Steps follow each other. -/
theorem Keeps.trans {ts : List Region} (hrs : Keeps rs qs) (hqs : Keeps qs ts) : Keeps rs ts where
  cover h := (hqs.cover h).trans (hrs.cover h)
  bytes n hn := hqs.bytes n (hrs.bytes n hn)
  clean hc := hqs.clean (hrs.clean hc)
  height_le := Nat.le_trans hqs.height_le hrs.height_le

/-- Parts of a list may be replaced one by one. -/
theorem Keeps.append {rs' qs' : List Region} (hrs : Keeps rs qs) (hrs' : Keeps rs' qs') :
    Keeps (rs ++ rs') (qs ++ qs') where
  cover h := by rw [containsAny_append, containsAny_append, hrs.cover, hrs'.cover]
  bytes n hn :=
    everyOf_append.2 ⟨hrs.bytes n (everyOf_append.1 hn).1, hrs'.bytes n (everyOf_append.1 hn).2⟩
  clean hc :=
    everyOf_append.2 ⟨hrs.clean (everyOf_append.1 hc).1, hrs'.clean (everyOf_append.1 hc).2⟩
  height_le := by
    have hfirst := hrs.height_le
    have hsecond := hrs'.height_le
    rw [heightList_append, heightList_append]
    omega

/-- The holes of a region may be replaced by others that stand for them. -/
theorem Keeps.region (f : Pattern) (hrs : Keeps rs qs) : Keeps [.mk f rs] [.mk f qs] where
  cover h := by simp [hrs.cover h]
  bytes n hn := by
    have hn' := every_mk.1 (everyOf_cons.1 hn).1
    simpa using ⟨hn'.1, hrs.bytes n hn'.2⟩
  clean hc := by
    have hc' := every_mk.1 (everyOf_cons.1 hc).1
    simpa using ⟨hc'.1, hrs.clean hc'.2⟩
  height_le := by
    have := hrs.height_le
    simp only [heightList_cons, height_mk, heightList_nil]
    omega

/-! ### Plain regions -/

/-- Regions whose frame has a conflict may be dropped. -/
theorem keeps_filter (rs : List Region) : Keeps rs (rs.filter fun r ↦ !r.frame.hasConflict) where
  cover _ := containsAny_filter
  bytes _ hn := hn.subset fun _ ↦ List.mem_of_mem_filter
  clean hc := hc.subset fun _ ↦ List.mem_of_mem_filter
  height_le := heightList_mono fun _ ↦ List.mem_of_mem_filter

theorem every_frame {P : Pattern → Prop} (hr : r.Every P) : P r.frame := by
  obtain ⟨f, hs⟩ := r
  exact (every_mk.1 hr).1

/-- Plain regions may be replaced by patterns with the same headers. -/
theorem containsAny_partition {ps : List Pattern}
    (hcover : ∀ h, Pattern.MatchesAny ps h ↔
      Pattern.MatchesAny ((rs.filter isPlain).map frame) h) :
    ContainsAny (ps.map plain ++ rs.filter fun r ↦ !r.isPlain) h ↔ ContainsAny rs h := by
  have hplain : (∃ p ∈ ps, p.Matches h) ↔ ContainsAny (rs.filter isPlain) h := by
    refine (hcover h).trans ?_
    rw [Pattern.MatchesAny, containsAny_iff]
    simp only [List.mem_map, exists_exists_and_eq_and, List.mem_filter]
    exact exists_congr fun r ↦ and_congr_right fun hr ↦ (contains_of_isPlain hr.2).symm
  rw [containsAny_append, containsAny_map_plain, hplain]
  simp only [containsAny_iff, List.mem_filter]
  constructor
  · rintro (⟨r, ⟨hr, -⟩, hc⟩ | ⟨r, ⟨hr, -⟩, hc⟩) <;> exact ⟨r, hr, hc⟩
  · rintro ⟨r, hr, hc⟩
    cases hp : r.isPlain
    · exact .inr ⟨r, ⟨hr, by simp [hp]⟩, hc⟩
    · exact .inl ⟨r, ⟨hr, hp⟩, hc⟩

/-- Plain regions can be condensed, which keeps what they cover. -/
theorem condense_plains (mask : Option Pattern) (hrs : EveryOf (·.bytes = n) rs) :
    ∃ ps, Pattern.condense mask ((rs.filter isPlain).map frame) = .ok ps ∧
      (∀ p ∈ ps, p.Solid n) ∧
      ∀ h, Pattern.MatchesAny ps h ↔ Pattern.MatchesAny ((rs.filter isPlain).map frame) h := by
  refine Pattern.condense_spec mask fun p hp ↦ ?_
  obtain ⟨r, hr, rfl⟩ := List.mem_map.1 hp
  exact every_frame (everyOf_iff.1 hrs r (List.mem_of_mem_filter hr))

/-- **Condensing the plain regions keeps the headers.** -/
theorem condensePlain_keeps (mask : Option Pattern) (hrs : EveryOf (·.bytes = n) rs) :
    ∃ qs, condensePlain mask rs = .ok qs ∧ Keeps rs qs := by
  rw [condensePlain]
  split
  · exact ⟨_, rfl, keeps_filter rs⟩
  · rename_i hlen
    obtain ⟨ps, hps, hsolid, hcover⟩ := condense_plains mask hrs
    refine ⟨ps.map plain ++ rs.filter fun r ↦ !r.isPlain, ?_, ?_⟩
    · simp [List.partition_eq_filter_filter, hps, Except.map, Function.comp_def]
    · have hne : rs ≠ [] := by
        rintro rfl
        exact hlen (by decide)
      have hothers : ∀ r ∈ rs.filter fun r ↦ !r.isPlain, r ∈ rs := fun _ ↦ List.mem_of_mem_filter
      refine ⟨fun h ↦ containsAny_partition hcover, fun m hm ↦ ?_, fun hc ↦ ?_, ?_⟩
      · obtain ⟨r, hr⟩ := List.exists_mem_of_ne_nil rs hne
        have hnm : n = m := (every_frame (everyOf_iff.1 hrs r hr)).symm.trans
          (every_frame (everyOf_iff.1 hm r hr))
        exact everyOf_append.2
          ⟨everyOf_map_plain.2 fun p hp ↦ (hsolid p hp).1.trans hnm, hm.subset hothers⟩
      · exact everyOf_append.2
          ⟨everyOf_map_plain.2 fun p hp ↦ (hsolid p hp).2, hc.subset hothers⟩
      · have hplain := heightList_map_plain_le ps
        have hrest := heightList_mono hothers
        have hpos : heightList rs ≠ 0 := fun h ↦ hne (heightList_eq_zero_iff.1 h)
        rw [heightList_append]
        omega

/-! ### Members one by one -/

/-- What a step on one region achieves. Besides keeping its headers it keeps holes inside their
frame, which is more: the same set has descriptions with holes that reach out of the frame. -/
structure Settles (r : Region) (o : Option Region) : Prop extends Keeps [r] o.toList where
  /-- Holes that lie inside the frame stay there. -/
  tight : r.Tight → ∀ c ∈ o, c.Tight

/-- **Compacting each region of a list keeps the headers** if compacting one does. -/
theorem compactEach_keeps {compact : Region → Checked (Option Region)}
    (hcompact : ∀ r : Region, r.Every (·.bytes = n) → ∃ o, compact r = .ok o ∧ Settles r o)
    (hrs : EveryOf (·.bytes = n) rs) :
    ∃ qs, compactEach compact rs = .ok qs ∧ Keeps rs qs ∧
      ((∀ r ∈ rs, r.Tight) → ∀ q ∈ qs, q.Tight) := by
  induction rs with
  | nil => exact ⟨[], rfl, .refl [], fun ht ↦ ht⟩
  | cons r rs ih =>
    obtain ⟨hr, hrest⟩ := everyOf_cons.1 hrs
    obtain ⟨o, ho, hsettles⟩ := hcompact r hr
    obtain ⟨qs, hqs, hkeeps, htight⟩ := ih hrest
    refine ⟨o.toList ++ qs, by simp [compactEach, ho, hqs], hsettles.toKeeps.append hkeeps,
      fun ht ↦ ?_⟩
    obtain ⟨hrt, hrest⟩ := List.forall_mem_cons.1 ht
    exact List.forall_mem_append.2
      ⟨fun q hq ↦ hsettles.tight hrt q (Option.mem_toList.1 hq), htight hrest⟩

/-! ### Tight holes -/

/-- Removing a member by putting the last one in its place. -/
theorem mem_swapRemove {j : Nat} {d : Region} (hd : rs[j]? = some d) (c : Region) :
    c ∈ rs ↔ c = d ∨ c ∈ swapRemove rs j := by
  obtain rfl | ⟨init, l, rfl⟩ := List.eq_nil_or_concat rs
  · exact absurd hd (by simp)
  rw [List.concat_eq_append] at *
  have hremove : swapRemove (init ++ [l]) j = ((init ++ [l]).set j l).dropLast := by
    simp [swapRemove]
  rw [hremove]
  obtain ⟨hj, hjd⟩ := List.getElem?_eq_some_iff.1 hd
  rw [List.length_append, List.length_singleton] at hj
  by_cases hlast : j < init.length
  · have hdj : init[j] = d := by rwa [List.getElem_append_left hlast] at hjd
    have hmem : c ∈ init ↔ c ∈ init.take j ∨ c = d ∨ c ∈ init.drop (j + 1) := by
      rw [← List.mem_cons, ← List.mem_append, ← hdj, List.getElem_cons_drop,
        List.take_append_drop]
    rw [List.set_append_left _ _ hlast, List.dropLast_concat, List.set_eq_take_append_cons_drop,
      if_pos hlast, List.mem_append, List.mem_singleton, hmem, List.mem_append, List.mem_cons]
    tauto
  · obtain rfl : j = init.length := by omega
    have hdl : l = d := by simpa using hjd
    rw [List.set_append_right _ _ (Nat.le_refl _), Nat.sub_self, List.set_cons_zero,
      List.dropLast_concat, List.mem_append, List.mem_singleton, hdl]
    exact or_comm

/-- **The hole found is plain and leaves at most one bit of the frame free.** -/
theorem firstTight_spec (hf : f.bytes = n) (hrs : EveryOf (·.bytes = n) rs) :
    ∃ o, firstTight f rs = .ok o ∧ ∀ j m, o = some (j, m) →
      ∃ d, rs[j]? = some d ∧ d.isPlain = true ∧ m = f.narrow d.frame ∧ m.excess ≤ 1 := by
  induction rs with
  | nil => exact ⟨none, rfl, by simp⟩
  | cons d rs ih =>
    obtain ⟨hd, hrest⟩ := everyOf_cons.1 hrs
    obtain ⟨o, ho, hfound⟩ := ih hrest
    have hlater : ∀ j m, o.map (fun e ↦ (e.1 + 1, e.2)) = some (j, m) →
        ∃ d', (d :: rs)[j]? = some d' ∧ d'.isPlain = true ∧ m = f.narrow d'.frame ∧
          m.excess ≤ 1 := by
      intro j m hjm
      obtain ⟨⟨j', m'⟩, ho', heq⟩ := Option.map_eq_some_iff.1 hjm
      obtain ⟨rfl, rfl⟩ := Prod.mk.inj heq
      simpa using hfound j' m' ho'
    have hbytes : f.bytes = d.frame.bytes := hf.trans (every_frame hd).symm
    simp only [firstTight, Pattern.subtractBit_eq hbytes, ho, Checked.ok_bind]
    split
    · rename_i hplain
      split
      · rename_i hle
        refine ⟨_, rfl, fun j m hjm ↦ ?_⟩
        obtain ⟨rfl, rfl⟩ := Prod.mk.inj (Option.some.inj hjm)
        exact ⟨d, rfl, hplain, rfl, hle⟩
      · exact ⟨_, rfl, hlater⟩
    · exact ⟨_, rfl, hlater⟩

/-- A region settles for itself. -/
theorem Settles.refl (r : Region) : Settles r (some r) where
  toKeeps := .refl [r]
  tight ht _ hc := Option.mem_some.1 hc ▸ ht

/-- Steps on one region follow each other. -/
theorem Settles.trans {r' : Region} {o : Option Region} (h₁ : Settles r (some r'))
    (h₂ : Settles r' o) : Settles r o where
  toKeeps := h₁.toKeeps.trans h₂.toKeeps
  tight ht := h₂.tight (h₁.tight ht r' rfl)

/-- Holes may be replaced by others that stand for them. -/
theorem Keeps.settles (f : Pattern) (hrs : Keeps rs qs) :
    Settles (.mk f rs) (some (.mk f qs)) where
  toKeeps := hrs.region f
  tight ht c hc h hh := by
    obtain rfl := Option.mem_some.1 hc
    exact ht h ((hrs.cover h).1 hh)

/-- A hole that covers the frame leaves nothing. -/
theorem settles_none {d : Region} (hf : f.bytes = n) (hd : d ∈ rs) (hdn : d.Every (·.bytes = n))
    (hplain : d.isPlain = true) (hzero : (f.narrow d.frame).excess = 0) :
    Settles (mk f rs) none where
  cover h := by
    have hbytes : f.bytes = d.frame.bytes := hf.trans (every_frame hdn).symm
    have hcovered : f.Matches h → ContainsAny rs h := fun hm ↦ containsAny_iff.2
      ⟨d, hd, (contains_of_isPlain hplain).2 <| Pattern.matches_of_allows_imp
        (fun i b ↦ Pattern.allows_of_excess_eq_zero hbytes hzero) hm⟩
    simpa using hcovered
  bytes _ _ := everyOf_nil
  clean _ := everyOf_nil
  height_le := by simp
  tight _ c hc := absurd hc (by simp)

/-- **A hole that leaves one bit of the frame free is traded for a smaller frame.** -/
theorem settles_narrow {j : Nat} {d : Region} {ds : List Region} (hf : f.bytes = n)
    (hrs : EveryOf (·.bytes = n) rs) (hd : rs[j]? = some d) (hplain : d.isPlain = true)
    (hone : (f.narrow d.frame).excess = 1)
    (hds : Clipped (f.narrow d.frame).pattern (swapRemove rs j) ds) :
    Settles (mk f rs) (some (mk (f.narrow d.frame).pattern ds)) where
  cover h := by
    have hdn := everyOf_iff.1 hrs d (List.mem_of_getElem? hd)
    have hbytes : f.bytes = d.frame.bytes := hf.trans (every_frame hdn).symm
    have hsplit : ContainsAny rs h ↔ d.frame.Matches h ∨ ContainsAny (swapRemove rs j) h := by
      rw [containsAny_iff, containsAny_iff, ← contains_of_isPlain hplain]
      simp only [mem_swapRemove hd, or_and_right, exists_or, exists_eq_left]
    simp only [Option.toList_some, containsAny_cons, contains_mk, not_containsAny_nil, or_false,
      hds.cover, hsplit, Pattern.matches_narrow hbytes hone]
    tauto
  bytes m hm := by
    have hm' := every_mk.1 (everyOf_cons.1 hm).1
    have hpattern : (f.narrow d.frame).pattern.bytes = m :=
      (Pattern.bytes_narrow ..).trans hm'.1
    refine everyOf_cons.2 ⟨every_mk.2 ⟨hpattern, ?_⟩, everyOf_nil⟩
    exact hds.solid.imp fun p hp ↦ hp.1.trans hpattern
  clean hc := by
    have hdn := everyOf_iff.1 hrs d (List.mem_of_getElem? hd)
    have hbytes : f.bytes = d.frame.bytes := hf.trans (every_frame hdn).symm
    have hc' := every_mk.1 (everyOf_cons.1 hc).1
    refine everyOf_cons.2 ⟨every_mk.2 ⟨Pattern.hasConflict_narrow hbytes hc'.1, ?_⟩, everyOf_nil⟩
    exact hds.solid.imp fun p hp ↦ hp.2
  height_le := by
    have hclip := hds.height_le
    have hsub : heightList (swapRemove rs j) ≤ heightList rs :=
      heightList_mono fun c hc ↦ (mem_swapRemove hd c).2 (.inr hc)
    simp only [Option.toList_some, heightList_cons, height_mk, heightList_nil]
    omega
  tight _ c hc h hh := by
    obtain rfl := Option.mem_some.1 hc
    exact ((hds.cover h).1 hh).2

/-- **Letting holes bite into the frame keeps the headers**, however often it is done. -/
theorem bite_settles {steps : Nat} (hf : f.bytes = n) (hrs : EveryOf (·.bytes = n) rs) :
    ∃ o, bite steps f rs = .ok o ∧ Settles (mk f rs) o := by
  induction steps generalizing f rs with
  | zero => exact ⟨_, rfl, .refl _⟩
  | succ steps ih =>
    obtain ⟨o, ho, hfound⟩ := firstTight_spec hf hrs
    rw [bite, ho]
    obtain _ | ⟨j, m⟩ := o
    · exact ⟨_, rfl, .refl _⟩
    obtain ⟨d, hd, hplain, rfl, hle⟩ := hfound j m rfl
    have hmem : d ∈ rs := List.mem_of_getElem? hd
    simp only [Checked.ok_bind]
    split
    · rename_i hzero
      exact ⟨none, rfl, settles_none hf hmem (everyOf_iff.1 hrs d hmem) hplain hzero⟩
    · rename_i hne
      have hone : (f.narrow d.frame).excess = 1 := by omega
      have hpattern : (f.narrow d.frame).pattern.bytes = n := (Pattern.bytes_narrow ..).trans hf
      have hsub : EveryOf (·.bytes = n) (swapRemove rs j) :=
        hrs.subset fun c hc ↦ (mem_swapRemove hd c).2 (.inr hc)
      obtain ⟨ds, hds⟩ := exists_clipList_of_every (hpattern.symm ▸ hsub)
      have hclip := clipped_of_clipList hds
      obtain ⟨o, ho, hsettles⟩ := ih hpattern (hclip.solid.imp fun p hp ↦ hp.1.trans hpattern)
      refine ⟨o, ?_, (settles_narrow hf hrs hd hplain hone hclip).trans hsettles⟩
      rw [hds]
      exact ho

/-! ### Rounds -/

/-- **One round keeps the headers** if compacting the holes does. -/
theorem round_settles {compact : Region → Checked (Option Region)}
    (hcompact : ∀ r : Region, r.Every (·.bytes = n) → ∃ o, compact r = .ok o ∧ Settles r o)
    (hr : r.Every (·.bytes = n)) :
    ∃ o, round mask compact r = .ok o ∧ Settles r o := by
  obtain ⟨f, hs⟩ := r
  obtain ⟨hf, hhs⟩ := every_mk.1 hr
  obtain ⟨ds, hds, hcondense⟩ := condensePlain_keeps mask hhs
  obtain ⟨es, hes, heach, -⟩ := compactEach_keeps hcompact (hcondense.bytes n hhs)
  obtain ⟨o, ho, hbite⟩ := bite_settles hf (heach.bytes n (hcondense.bytes n hhs))
  exact ⟨o, by simpa [round, holes, frame, hds, hes] using ho,
    ((hcondense.trans heach).settles f).trans hbite⟩

/-- **All rounds together keep the headers** if each of them does. -/
theorem settle_settles {step : Region → Checked (Option Region)} {rounds : Nat}
    (hstep : ∀ r : Region, r.Every (·.bytes = n) → ∃ o, step r = .ok o ∧ Settles r o)
    (hr : r.Every (·.bytes = n)) : ∃ o, settle step rounds r = .ok o ∧ Settles r o := by
  induction rounds generalizing r with
  | zero => exact ⟨_, rfl, .refl r⟩
  | succ rounds ih =>
    obtain ⟨o, ho, hsettles⟩ := hstep r hr
    rw [settle, ho]
    cases o with
    | none => exact ⟨none, rfl, hsettles⟩
    | some r' =>
      simp only [Checked.ok_bind]
      split
      · exact ⟨some r', rfl, hsettles⟩
      · have hr' : r'.Every (·.bytes = n) :=
          (everyOf_cons.1 (hsettles.bytes n (everyOf_cons.2 ⟨hr, everyOf_nil⟩))).1
        obtain ⟨o, ho, hrest⟩ := ih hr'
        exact ⟨o, ho, hsettles.trans hrest⟩

/-- Compacting to any depth keeps the headers. -/
theorem compactAt_settles {height : Nat} (hr : r.Every (·.bytes = n)) :
    ∃ o, compactAt mask height r = .ok o ∧ Settles r o := by
  induction height generalizing r with
  | zero => exact ⟨_, rfl, .refl r⟩
  | succ height ih => exact settle_settles (fun r hr ↦ round_settles (fun d hd ↦ ih hd) hr) hr

/-- **The normal form of a region has the same headers.** -/
theorem compact_settles (mask : Option Pattern) (hr : r.Every (·.bytes = n)) :
    ∃ o, compact mask r = .ok o ∧ Settles r o :=
  compactAt_settles hr

end HeaderFlow.Region
