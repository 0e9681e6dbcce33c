import HeaderFlow.Proofs.Region.Compact

/-!
# Well-formed regions

A region is *well-formed* if its patterns have one length and no conflict, at every depth, and
**each hole starts from a pattern inside the frame that it is cut from**. This is more than to say
that the holes lie in their frame as sets of headers: a hole may lie there because its own holes
take away what reaches out.

Clipping makes regions well-formed, whatever they were before, and so does all that ends with a
clip: intersections, and the trading of a tight hole for a smaller frame. Compacting only makes
frames smaller and clips the holes to them again, so **what is said of one of its steps is said of
all of them** (`Preserving`).

Only successful computations are spoken of. A clip compares each pattern that it keeps with the
pattern that it clips to, so those that it keeps have one length, and a pattern that has nothing in
common is not kept. This is why `wellFormed_of_clip` and `wellFormed_of_intersect` assume nothing of
what goes in.
-/

namespace HeaderFlow

/-- Every header that matches the pattern matches the other one. -/
def Pattern.Inside (p q : Pattern) : Prop := ∀ h, p.Matches h → q.Matches h

theorem Pattern.Inside.refl (p : Pattern) : p.Inside p := fun _ hm ↦ hm

theorem Pattern.Inside.trans {p q r : Pattern} (hpq : p.Inside q) (hqr : q.Inside r) : p.Inside r :=
  fun h hm ↦ hqr h (hpq h hm)

namespace Region

variable {f g v : Pattern} {r q c : Region} {rs qs hs : List Region} {n : Nat}

mutual

/-- Every pattern of the region, at every depth, has the length and no conflict, and the frame of
every hole lies inside the frame around it. -/
def WellFormed (n : Nat) : Region → Prop
  | mk f hs => f.Solid n ∧ WellFormedIn n f hs

/-- Every region of the list is well-formed, with a frame inside the pattern. -/
def WellFormedIn (n : Nat) (f : Pattern) : List Region → Prop
  | [] => True
  | r :: rs => (r.WellFormed n ∧ r.frame.Inside f) ∧ WellFormedIn n f rs

end

@[simp] theorem wellFormed_mk : (mk f hs).WellFormed n ↔ f.Solid n ∧ WellFormedIn n f hs := by
  rw [WellFormed]

@[simp] theorem wellFormedIn_nil : WellFormedIn n f [] := by
  rw [WellFormedIn]
  trivial

@[simp] theorem wellFormedIn_cons :
    WellFormedIn n f (r :: rs) ↔ (r.WellFormed n ∧ r.frame.Inside f) ∧ WellFormedIn n f rs := by
  rw [WellFormedIn]

/-- A list is well-formed in a frame if each member is. -/
theorem wellFormedIn_iff :
    WellFormedIn n f rs ↔ ∀ r ∈ rs, r.WellFormed n ∧ r.frame.Inside f := by
  induction rs with
  | nil => simp
  | cons r rs ih => simp [ih]

/-- Two lists in one frame may be put together. -/
theorem wellFormedIn_append :
    WellFormedIn n f (rs ++ qs) ↔ WellFormedIn n f rs ∧ WellFormedIn n f qs := by
  simp only [wellFormedIn_iff, List.forall_mem_append]

/-- A part of a list is well-formed in the frame. -/
theorem WellFormedIn.subset (hrs : WellFormedIn n f rs) (hsub : ∀ q ∈ qs, q ∈ rs) :
    WellFormedIn n f qs :=
  wellFormedIn_iff.2 fun q hq ↦ wellFormedIn_iff.1 hrs q (hsub q hq)

@[simp] theorem wellFormed_plain : (plain f).WellFormed n ↔ f.Solid n := by
  simp [plain]

/-- The frame has the length and no conflict. -/
theorem WellFormed.solid_frame (hr : r.WellFormed n) : r.frame.Solid n := by
  obtain ⟨f, hs⟩ := r
  exact (wellFormed_mk.1 hr).1

/-- The holes are well-formed in the frame. -/
theorem WellFormed.holes (hr : r.WellFormed n) : WellFormedIn n r.frame r.holes := by
  obtain ⟨f, hs⟩ := r
  exact (wellFormed_mk.1 hr).2

/-- The patterns of a well-formed region are solid at every depth. -/
theorem WellFormed.every (hr : r.WellFormed n) : r.Every (Pattern.Solid n) := by
  induction r using Region.induction with
  | mk f hs ih =>
    obtain ⟨hf, hhs⟩ := wellFormed_mk.1 hr
    exact every_mk.2 ⟨hf, everyOf_iff.2 fun d hd ↦ ih d hd (wellFormedIn_iff.1 hhs d hd).1⟩

/-- All patterns have one length. -/
theorem WellFormed.bytes (hr : r.WellFormed n) : r.Every (·.bytes = n) :=
  hr.every.imp fun _ hp ↦ hp.1

theorem WellFormedIn.bytes (hrs : WellFormedIn n f rs) : EveryOf (·.bytes = n) rs :=
  everyOf_iff.2 fun r hr ↦ (wellFormedIn_iff.1 hrs r hr).1.bytes

/-! ### Clipping -/

/-- A clipped list is well-formed in the pattern if each clipped member is. -/
theorem wellFormedIn_clipList
    (hrs : ∀ r ∈ rs, ∀ q, r.clip v = .ok (some q) → q.WellFormed v.bytes ∧ q.frame.Inside v)
    (hqs : clipList rs v = .ok qs) : WellFormedIn v.bytes v qs := by
  induction rs generalizing qs with
  | nil =>
    rw [clipList] at hqs
    obtain rfl := Except.ok.inj hqs
    exact wellFormedIn_nil
  | cons r rs ih =>
    obtain ⟨o, rest, ho, hrest, rfl⟩ := clipList_cons_eq_ok.1 hqs
    refine wellFormedIn_append.2 ⟨wellFormedIn_iff.2 fun q hq ↦ ?_,
      ih (fun c hc ↦ hrs c (List.mem_cons_of_mem _ hc)) hrest⟩
    obtain rfl := Option.mem_toList.1 hq
    exact hrs r List.mem_cons_self q ho

/-- **What has been clipped is well-formed**, whatever it was before. -/
theorem wellFormed_of_clip (hq : r.clip v = .ok (some q)) :
    q.WellFormed v.bytes ∧ q.frame.Inside v := by
  induction r using Region.induction generalizing v q with
  | mk f hs ih =>
    simp only [clip, Checked.bind_eq_ok] at hq
    obtain ⟨m, hm, hq⟩ := hq
    obtain ⟨hbytes, hmeet⟩ := Pattern.of_intersect_eq_ok hm
    cases m with
    | none => cases hq
    | some g =>
      obtain ⟨ds, hds, hq⟩ := Checked.bind_eq_ok.1 hq
      obtain rfl := Option.some.inj (Except.ok.inj hq)
      have hg : g.Solid v.bytes := hbytes ▸ Pattern.solid_of_meet?_eq_some hmeet
      have hds' : WellFormedIn g.bytes g ds := wellFormedIn_clipList (fun d hd q ↦ ih d hd) hds
      exact ⟨wellFormed_mk.2 ⟨hg, hg.1 ▸ hds'⟩,
        fun h hm ↦ ((Pattern.matches_of_meet?_eq_some hbytes hmeet).1 hm).2⟩

/-- What `wellFormed_of_clip` says of a list. -/
theorem wellFormedIn_of_clipList (hqs : clipList rs v = .ok qs) : WellFormedIn v.bytes v qs :=
  wellFormedIn_clipList (fun _ _ _ ↦ wellFormed_of_clip) hqs

/-- **Every intersection is well-formed.** -/
theorem wellFormed_of_intersect (hc : r.intersect q = .ok (some c)) :
    c.WellFormed r.frame.bytes := by
  obtain ⟨m, hm, hc⟩ := Checked.bind_eq_ok.1 hc
  obtain ⟨hbytes, hmeet⟩ := Pattern.of_intersect_eq_ok hm
  cases m with
  | none => cases hc
  | some g =>
    obtain ⟨ds, hds, hc⟩ := Checked.bind_eq_ok.1 hc
    obtain rfl := Option.some.inj (Except.ok.inj hc)
    have hg := Pattern.solid_of_meet?_eq_some hmeet
    exact wellFormed_mk.2 ⟨hg, hg.1 ▸ wellFormedIn_of_clipList hds⟩

/-- The regions of a complement are well-formed, the holes among them included. -/
theorem wellFormed_of_mem_complement (hr : r.WellFormed n) (hc : c ∈ r.complement) :
    c.WellFormed n := by
  rcases List.mem_append.1 hc with hc | hc
  · obtain ⟨p, hp, rfl⟩ := List.mem_map.1 hc
    exact wellFormed_plain.2 ⟨(Pattern.bytes_of_mem_complement hp).trans hr.solid_frame.1,
      Pattern.hasConflict_of_mem_complement hp⟩
  · exact (wellFormedIn_iff.1 hr.holes c hc).1

/-! ### Compacting -/

/-- A step on a region keeps it well-formed and makes its frame no larger. -/
def Preserving (n : Nat) (step : Region → Checked (Option Region)) : Prop :=
  ∀ r q, r.WellFormed n → step r = .ok (some q) → q.WellFormed n ∧ q.frame.Inside r.frame

/-- Condensed patterns lie in the union of those that were condensed, hence inside any frame around
them. -/
theorem wellFormedIn_condensePlain {mask : Option Pattern} (hrs : WellFormedIn n f rs)
    (hqs : condensePlain mask rs = .ok qs) : WellFormedIn n f qs := by
  rw [condensePlain] at hqs
  split at hqs
  · obtain rfl := Except.ok.inj hqs
    exact hrs.subset fun _ ↦ List.mem_of_mem_filter
  · obtain ⟨ps, hps, hsolid, hcover⟩ := condense_plains mask hrs.bytes
    rw [List.partition_eq_filter_filter] at hqs
    obtain ⟨out, hout, rfl⟩ := Checked.map_eq_ok.1 hqs
    obtain rfl := Except.ok.inj (hps.symm.trans hout)
    refine wellFormedIn_append.2 ⟨wellFormedIn_iff.2 fun q hq ↦ ?_,
      hrs.subset fun _ ↦ List.mem_of_mem_filter⟩
    obtain ⟨p, hp, rfl⟩ := List.mem_map.1 hq
    refine ⟨wellFormed_plain.2 (hsolid p hp), fun h hm ↦ ?_⟩
    obtain ⟨p', hp', hm'⟩ := (hcover h).1 ⟨p, hp, hm⟩
    obtain ⟨r, hr, rfl⟩ := List.mem_map.1 hp'
    exact (wellFormedIn_iff.1 hrs r (List.mem_of_mem_filter hr)).2 h hm'

/-- Compacting each hole keeps a list well-formed. -/
theorem wellFormedIn_compactEach {compact : Region → Checked (Option Region)}
    (hcompact : Preserving n compact) (hrs : WellFormedIn n f rs)
    (hqs : compactEach compact rs = .ok qs) : WellFormedIn n f qs := by
  induction rs generalizing qs with
  | nil =>
    obtain rfl := Except.ok.inj hqs
    exact hrs
  | cons r rs ih =>
    obtain ⟨o, ho, hqs⟩ := Checked.bind_eq_ok.1 hqs
    obtain ⟨rest, hrest, hqs⟩ := Checked.bind_eq_ok.1 hqs
    obtain rfl := Except.ok.inj hqs
    obtain ⟨⟨hr, hrf⟩, hrs⟩ := wellFormedIn_cons.1 hrs
    refine wellFormedIn_append.2 ⟨wellFormedIn_iff.2 fun q hq ↦ ?_, ih hrs hrest⟩
    obtain rfl := Option.mem_toList.1 hq
    obtain ⟨hq, hqr⟩ := hcompact r q hr ho
    exact ⟨hq, hqr.trans hrf⟩

/-- **A frame that gives way to a hole stays well-formed**, since the other holes are clipped
again. -/
theorem wellFormed_of_bite {steps : Nat} (hf : f.Solid n) (hrs : WellFormedIn n f rs)
    (hq : bite steps f rs = .ok (some q)) : q.WellFormed n ∧ q.frame.Inside f := by
  induction steps generalizing f rs with
  | zero =>
    obtain rfl := Option.some.inj (Except.ok.inj hq)
    exact ⟨wellFormed_mk.2 ⟨hf, hrs⟩, .refl f⟩
  | succ steps ih =>
    obtain ⟨o, ho, hfound⟩ := firstTight_spec hf.1 hrs.bytes
    rw [bite, ho] at hq
    obtain _ | ⟨j, m⟩ := o
    · obtain rfl := Option.some.inj (Except.ok.inj hq)
      exact ⟨wellFormed_mk.2 ⟨hf, hrs⟩, .refl f⟩
    obtain ⟨d, hd, -, rfl, hle⟩ := hfound j m rfl
    simp only [Checked.ok_bind] at hq
    split at hq
    · cases hq
    · rename_i hne
      obtain ⟨ds, hds, hq⟩ := Checked.bind_eq_ok.1 hq
      have hbytes : f.bytes = d.frame.bytes :=
        hf.1.trans (every_frame (everyOf_iff.1 hrs.bytes d (List.mem_of_getElem? hd))).symm
      have hg : (f.narrow d.frame).pattern.Solid n :=
        ⟨(Pattern.bytes_narrow ..).trans hf.1, Pattern.hasConflict_narrow hbytes hf.2⟩
      obtain ⟨hwell, hinside⟩ := ih hg (hg.1 ▸ wellFormedIn_of_clipList hds) hq
      refine ⟨hwell, hinside.trans fun h hm ↦ ?_⟩
      exact ((Pattern.matches_narrow hbytes (by omega)).1 hm).1

/-- A round keeps regions well-formed. -/
theorem preserving_round {mask : Option Pattern} {compact : Region → Checked (Option Region)}
    (hcompact : Preserving n compact) : Preserving n (round mask compact) := by
  intro r q hr hq
  obtain ⟨ds, hds, hq⟩ := Checked.bind_eq_ok.1 hq
  obtain ⟨es, hes, hq⟩ := Checked.bind_eq_ok.1 hq
  exact wellFormed_of_bite hr.solid_frame
    (wellFormedIn_compactEach hcompact (wellFormedIn_condensePlain hr.holes hds) hes) hq

/-- All rounds together keep regions well-formed. -/
theorem preserving_settle {step : Region → Checked (Option Region)} (hstep : Preserving n step)
    (rounds : Nat) : Preserving n (settle step rounds) := by
  induction rounds with
  | zero =>
    intro r q hr hq
    obtain rfl := Option.some.inj (Except.ok.inj hq)
    exact ⟨hr, .refl _⟩
  | succ rounds ih =>
    intro r q hr hq
    rw [settle] at hq
    obtain ⟨o, ho, hq⟩ := Checked.bind_eq_ok.1 hq
    cases o with
    | none => cases hq
    | some r' =>
      obtain ⟨hr', hinside⟩ := hstep r r' hr ho
      dsimp only at hq
      split at hq
      · obtain rfl := Option.some.inj (Except.ok.inj hq)
        exact ⟨hr', hinside⟩
      · obtain ⟨hq', hinside'⟩ := ih r' q hr' hq
        exact ⟨hq', hinside'.trans hinside⟩

/-- **Compacting keeps regions well-formed**, under any mask. -/
theorem preserving_compactAt (mask : Option Pattern) (height : Nat) :
    Preserving n (compactAt mask height) := by
  induction height with
  | zero =>
    intro r q hr hq
    obtain rfl := Option.some.inj (Except.ok.inj hq)
    exact ⟨hr, .refl _⟩
  | succ height ih => exact fun r ↦ preserving_settle (preserving_round ih) _ r

end Region

end HeaderFlow
