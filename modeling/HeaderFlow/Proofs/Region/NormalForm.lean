import Mathlib.Data.List.Pairwise
import Mathlib.Data.List.Zip
import HeaderFlow.Proofs.Region.Compact
import HeaderFlow.Proofs.Region.Rounds

/-!
# Normal forms of regions

What compacting leaves is a normal form, at every depth: plain holes have no conflict, no two of
them combine under the mask, they stand before the other holes, and none of them is tight. **Nothing
of this has to be followed through the steps**: a round that changes nothing cannot have lost a
hole, so none of its three steps did anything (`holes_of_round`), and a step that does nothing says
that there was nothing for it to do.

This is why the recursion may be ignored. A region that one round leaves alone has holes that
compacting leaves alone, so that it is a fixed point however deep compacting may look
(`compactAt_of_compactAt_eq_self`).
-/

namespace HeaderFlow

namespace Pattern

variable {a b v : Pattern} {mask : Option Pattern} {queue accepted out : List Pattern} {s : Sifted}

/-! ### Combining does not depend on the order -/

/-- The words of two patterns, the other way round. -/
theorem pairs_swap (a b : Pattern) : pairs b a = (pairs a b).map Prod.swap :=
  (List.zip_swap a.words b.words).symm

theorem differInOpposites_comm (a b : Pattern) : differInOpposites b a = differInOpposites a b := by
  rw [differInOpposites, differInOpposites, pairs_swap a b]
  induction pairs a b with
  | nil => rfl
  | cons p l ih =>
    obtain ⟨v, w⟩ := p
    rw [List.map_cons, List.all_cons, List.all_cons, ih]
    simp only [Prod.swap_prod_mk, UInt64.xor_comm w v]

theorem countOpposites_comm (a b : Pattern) : countOpposites b a = countOpposites a b := by
  rw [countOpposites, countOpposites, pairs_swap a b]
  induction pairs a b with
  | nil => rfl
  | cons p l ih =>
    obtain ⟨v, w⟩ := p
    rw [List.map_cons, tally_cons, tally_cons, ih]
    simp only [Prod.swap_prod_mk, UInt64.xor_comm w v]

/-- A join does not depend on the order. -/
theorem join_comm (hbytes : a.bytes = b.bytes) : join b a = join a b := by
  rw [join, join, zipWords, zipWords, hbytes]
  refine congrArg _ (List.zipWith_comm_of_comm fun v w ↦ ?_)
  rw [UInt64.and_comm, UInt64.xor_comm]

theorem join?_comm (hbytes : a.bytes = b.bytes) : join? b a = join? a b := by
  rw [join?, join?, differInOpposites_comm a b, join_comm hbytes, countOpposites_comm a b,
    Bool.or_comm]

/-- What the mask forbids does not depend on the order. -/
theorem oppositesMasked_comm (a b k : Pattern) : oppositesMasked b a k = oppositesMasked a b k := by
  rw [oppositesMasked, oppositesMasked, pairs_swap a b]
  generalize k.words = ms
  induction pairs a b generalizing ms with
  | nil => rfl
  | cons p l ih =>
    cases ms with
    | nil => rfl
    | cons m ms =>
      obtain ⟨v, w⟩ := p
      rw [List.map_cons, List.zip_cons_cons, List.zip_cons_cons, List.any_cons, List.any_cons, ih]
      simp only [Prod.swap_prod_mk, UInt64.xor_comm w v]

/-- If neither operand makes the other superfluous and no merge takes their place, then neither does
the other way round. -/
theorem combine_eq_both_comm (hbytes : a.bytes = b.bytes) (hboth : combine a b mask = .both) :
    combine b a mask = .both := by
  rw [combine] at hboth ⊢
  cases ha : a.hasConflict <;> cases hb : b.hasConflict <;> simp only [ha, hb] at hboth ⊢
  all_goals try cases hboth
  rw [join?_comm hbytes, funext (oppositesMasked_comm a b)]
  split at hboth
  · cases hboth
  split at hboth
  · cases hboth
  rename_i hba hab
  rwa [if_neg hab, if_neg hba]

/-- The two patterns stay side by side, in whichever order they are compared. -/
def Apart (mask : Option Pattern) (a b : Pattern) : Prop :=
  pairing a b mask = .ok .both ∧ pairing b a mask = .ok .both

/-- Two patterns that both stay stay side by side in either order. -/
theorem apart_of_pairing (h : pairing a b mask = .ok .both) : Apart mask a b := by
  refine ⟨h, ?_⟩
  obtain ⟨⟨⟩, hwidth, hboth⟩ := Checked.map_eq_ok.1 h
  have hbytes : a.bytes = b.bytes := by
    rw [checkWidth] at hwidth
    split at hwidth
    · assumption
    · cases hwidth
  rw [pairing_eq hbytes.symm]
  exact congrArg _ (combine_eq_both_comm hbytes hboth)

/-! ### What is accepted stays apart -/

/-- A pattern that survives its comparisons stays side by side with all that are left. -/
theorem apart_of_sift (hs : sift v mask accepted = .ok s) :
    s.accepted.Sublist accepted ∧ (s.survives = true → ∀ a ∈ s.accepted, Apart mask a v) := by
  induction accepted generalizing s with
  | nil =>
    obtain rfl := Except.ok.inj hs
    exact ⟨.slnil, by simp⟩
  | cons a rest ih =>
    obtain ⟨paired, hpaired, hs⟩ := Checked.bind_eq_ok.1 hs
    cases paired with
    | neither =>
      obtain rfl := Except.ok.inj hs
      exact ⟨List.sublist_cons_self a rest, by simp⟩
    | first =>
      obtain rfl := Except.ok.inj hs
      exact ⟨List.Sublist.refl _, by simp⟩
    | second => exact (ih hs).imp_left fun hsub ↦ hsub.cons a
    | both =>
      obtain ⟨t, ht, hs⟩ := Checked.bind_eq_ok.1 hs
      obtain rfl := Except.ok.inj hs
      obtain ⟨hsub, hapart⟩ := ih ht
      exact ⟨hsub.cons_cons a, fun hsurvives ↦
        List.forall_mem_cons.2 ⟨apart_of_pairing hpaired, hapart hsurvives⟩⟩
    | merged m =>
      obtain rfl := Except.ok.inj hs
      exact ⟨List.sublist_cons_self a rest, by simp⟩

/-- What has been accepted stays side by side. -/
theorem pairwise_condenseQueue {steps : Nat} (ha : accepted.Pairwise (Apart mask))
    (hout : condenseQueue mask steps queue accepted = .ok out) : out.Pairwise (Apart mask) := by
  induction steps generalizing queue accepted with
  | zero =>
    obtain rfl := Except.ok.inj hout
    exact ha
  | succ steps ih =>
    cases queue with
    | nil =>
      obtain rfl := Except.ok.inj hout
      exact ha
    | cons v queue =>
      obtain ⟨s, hs, hout⟩ := Checked.bind_eq_ok.1 hout
      obtain ⟨hsub, hapart⟩ := apart_of_sift hs
      refine ih ?_ hout
      split
      · rename_i hsurvives
        refine List.pairwise_append.2
          ⟨ha.sublist hsub, List.pairwise_singleton _ _, fun a ha b hb ↦ ?_⟩
        obtain rfl := List.mem_singleton.1 hb
        exact hapart hsurvives a ha
      · exact ha.sublist hsub

/-- **No two of the condensed patterns combine.** -/
theorem pairwise_condense {input : List Pattern} (hout : condense mask input = .ok out) :
    out.Pairwise (Apart mask) :=
  pairwise_condenseQueue .nil hout

end Pattern

namespace Region

variable {mask : Option Pattern} {f : Pattern} {r q d e : Region} {rs hs : List Region}
  {n height : Nat}

/-! ### Normal forms -/

/-- The plain holes are in normal form: they are condensed, they come first, and none is tight. -/
structure NormalHoles (mask : Option Pattern) (f : Pattern) (hs : List Region) : Prop where
  /-- Every plain hole contains something. -/
  clean : ∀ d ∈ hs, d.isPlain = true → d.frame.hasConflict = false
  /-- No two plain holes combine. -/
  apart : hs.Pairwise fun d e ↦
    d.isPlain = true → e.isPlain = true → Pattern.Apart mask d.frame e.frame
  /-- No plain hole comes after one with holes. -/
  first : hs.Pairwise fun d e ↦ e.isPlain = true → d.isPlain = true
  /-- Every plain hole leaves two bits of the frame or more. -/
  loose : ∀ d ∈ hs, d.isPlain = true → ∃ m, f.subtractBit d.frame = .ok m ∧ 2 ≤ m.excess

mutual

/-- The plain holes are in normal form, in the region and in every hole of it at any depth. -/
def Normal (mask : Option Pattern) : Region → Prop
  | mk f hs => NormalHoles mask f hs ∧ AllNormal mask hs

/-- Every region of the list is in normal form. -/
def AllNormal (mask : Option Pattern) : List Region → Prop
  | [] => True
  | r :: rs => r.Normal mask ∧ AllNormal mask rs

end

/-- A region is in normal form if its plain holes are and all its holes are. -/
theorem normal_mk : (mk f hs).Normal mask ↔ NormalHoles mask f hs ∧ ∀ d ∈ hs, d.Normal mask := by
  have hall : AllNormal mask hs ↔ ∀ d ∈ hs, d.Normal mask := by
    induction hs with
    | nil => simp [AllNormal]
    | cons d hs ih => rw [AllNormal, ih, List.forall_mem_cons]
  rw [Normal, hall]

/-- A plain region is in normal form. -/
theorem normal_of_isPlain (hr : r.isPlain = true) : r.Normal mask := by
  obtain ⟨f, hs⟩ := r
  obtain rfl : hs = [] := List.isEmpty_iff.1 hr
  exact normal_mk.2 ⟨⟨by simp, .nil, .nil, by simp⟩, by simp⟩

/-! ### Steps that do nothing -/

/-- Where condensing changes nothing, the plain holes are condensed and come first. -/
theorem of_condensePlain_eq_self (hbytes : EveryOf (·.bytes = n) rs)
    (hrs : condensePlain mask rs = .ok rs) :
    (∀ d ∈ rs, d.isPlain = true → d.frame.hasConflict = false) ∧
    (rs.Pairwise fun d e ↦ d.isPlain = true → e.isPlain = true →
      Pattern.Apart mask d.frame e.frame) ∧
    rs.Pairwise fun d e ↦ e.isPlain = true → d.isPlain = true := by
  rw [condensePlain] at hrs
  split at hrs
  · rename_i hlen
    have hfilter := List.filter_eq_self.1 (Except.ok.inj hrs)
    have hshort : ∀ R : Region → Region → Prop, rs.Pairwise R := by
      intro R
      obtain _ | ⟨d, _ | ⟨e, rs⟩⟩ := rs
      · exact .nil
      · exact List.pairwise_singleton R d
      · simp only [List.length_cons] at hlen
        omega
    exact ⟨fun d hd _ ↦ by simpa using hfilter d hd, hshort _, hshort _⟩
  · obtain ⟨ps, hps, hsolid, -⟩ := condense_plains mask hbytes
    rw [List.partition_eq_filter_filter] at hrs
    obtain ⟨out, hout, hrs⟩ := Checked.map_eq_ok.1 hrs
    obtain rfl := Except.ok.inj (hps.symm.trans hout)
    have hothers : ∀ d ∈ rs.filter (not ∘ isPlain), d.isPlain ≠ true :=
      fun d hd ↦ by simpa using (List.mem_filter.1 hd).2
    have hplains : ∀ d ∈ ps.map plain, d.isPlain = true := isPlain_map_plain ps
    refine ⟨fun d hd hplain ↦ ?_, ?_, ?_⟩
    · rw [← hrs] at hd
      rcases List.mem_append.1 hd with hd | hd
      · obtain ⟨p, hp, rfl⟩ := List.mem_map.1 hd
        exact (hsolid p hp).2
      · exact absurd hplain (hothers d hd)
    · rw [← hrs, List.pairwise_append, List.pairwise_map]
      refine ⟨(Pattern.pairwise_condense hout).imp fun h _ _ ↦ h, ?_, fun d _ e he _ hplain ↦ ?_⟩
      · exact List.pairwise_of_forall_mem_list fun d hd e _ hplain ↦ absurd hplain (hothers d hd)
      · exact absurd hplain (hothers e he)
    · rw [← hrs, List.pairwise_append]
      refine ⟨List.pairwise_of_forall_mem_list fun d hd e _ _ ↦ hplains d hd,
        List.pairwise_of_forall_mem_list fun d _ e he hplain ↦ absurd hplain (hothers e he),
        fun d hd e _ _ ↦ hplains d hd⟩

/-- Where no hole is tight, every plain one leaves two bits or more. -/
theorem loose_of_firstTight (hrs : firstTight f rs = .ok none) :
    ∀ d ∈ rs, d.isPlain = true → ∃ m, f.subtractBit d.frame = .ok m ∧ 2 ≤ m.excess := by
  induction rs with
  | nil => simp
  | cons d rs ih =>
    rw [firstTight] at hrs
    split at hrs
    · obtain ⟨m, hm, hrs⟩ := Checked.bind_eq_ok.1 hrs
      split at hrs
      · cases hrs
      · rename_i hexcess
        obtain ⟨o, ho, hrs⟩ := Checked.bind_eq_ok.1 hrs
        obtain rfl := Option.map_eq_none_iff.1 (Except.ok.inj hrs)
        exact List.forall_mem_cons.2 ⟨fun _ ↦ ⟨m, hm, by omega⟩, ih ho⟩
    · rename_i hplain
      obtain ⟨o, ho, hrs⟩ := Checked.bind_eq_ok.1 hrs
      obtain rfl := Option.map_eq_none_iff.1 (Except.ok.inj hrs)
      exact List.forall_mem_cons.2 ⟨fun h ↦ absurd h hplain, ih ho⟩

/-- Where letting holes bite loses none, no hole is tight. -/
theorem firstTight_of_bite (hr : bite hs.length f hs = .ok (some r))
    (hcount : r.countHoles = countHolesList hs) : firstTight f hs = .ok none := by
  cases hlen : hs.length with
  | zero =>
    obtain rfl := List.eq_nil_of_length_eq_zero hlen
    rfl
  | succ steps =>
    rw [hlen, bite] at hr
    obtain ⟨o, ho, hr⟩ := Checked.bind_eq_ok.1 hr
    obtain _ | ⟨j, m⟩ := o
    · exact ho
    dsimp only at hr
    split at hr
    · cases hr
    obtain ⟨ds, hds, hr⟩ := Checked.bind_eq_ok.1 hr
    have hne : hs ≠ [] := by
      rintro rfl
      cases hlen
    have hswap := countHolesList_swapRemove_lt hne j
    have hclip := countHolesList_clipList hds
    have hrest := (countHoles_bite hr).1
    omega

/-- What a computation of normal forms leaves alone is left alone by one of its rounds. -/
theorem round_of_compactAt (hr : compactAt mask (height + 1) r = .ok (some r)) :
    round mask (compactAt mask height) r = .ok (some r) := by
  have hweight := countHoles_lt_weight r
  exact (settle_stable (wanes_round (settled_compactAt height)) (by omega) hr).2

/-- What one round leaves alone is left alone by all of them. -/
theorem compactAt_of_round (hr : round mask (compactAt mask height) r = .ok (some r)) :
    compactAt mask (height + 1) r = .ok (some r) := by
  rw [compactAt, settle, hr, Checked.ok_bind]
  exact if_pos rfl

/-- **A fixed point at a height that is enough for the region is one at every height.** -/
theorem compactAt_of_compactAt_eq_self (hheight : r.height ≤ height)
    (hr : compactAt mask height r = .ok (some r)) (k : Nat) :
    compactAt mask k r = .ok (some r) := by
  induction r using Region.induction generalizing height k with
  | mk f hs ih =>
    cases k with
    | zero => rfl
    | succ k =>
      refine compactAt_of_round ?_
      cases height with
      | zero =>
        rw [height_mk, Nat.le_zero, heightList_eq_zero_iff] at hheight
        subst hheight
        exact round_of_holes rfl (by simp [holes]) rfl
      | succ height =>
        obtain ⟨-, hcondense, hholes, hbite⟩ :=
          holes_of_round (settled_compactAt height) (round_of_compactAt hr) rfl
        refine round_of_holes hcondense (fun d hd ↦ ?_) hbite
        have hlow : d.height < heightList hs := height_lt_heightList hd
        rw [height_mk] at hheight
        exact ih d hd (by omega) (hholes d hd) k

/-- **What compacting leaves alone is in normal form.** -/
theorem normal_of_compactAt_eq_self (hbytes : r.Every (·.bytes = n)) (hheight : r.height ≤ height)
    (hr : compactAt mask height r = .ok (some r)) : r.Normal mask := by
  induction r using Region.induction generalizing height with
  | mk f hs ih =>
    obtain ⟨-, hhs⟩ := every_mk.1 hbytes
    cases height with
    | zero => exact normal_of_isPlain (isPlain_iff_height_eq_zero.2 (by omega))
    | succ height =>
      obtain ⟨-, hcondense, hholes, hbite⟩ :=
        holes_of_round (settled_compactAt height) (round_of_compactAt hr) rfl
      obtain ⟨hclean, hapart, hfirst⟩ := of_condensePlain_eq_self hhs hcondense
      have htight : firstTight f hs = .ok none := firstTight_of_bite hbite (countHoles_eq _)
      refine normal_mk.2 ⟨⟨hclean, hapart, hfirst, loose_of_firstTight htight⟩, fun d hd ↦ ?_⟩
      have hlow := height_lt_heightList hd
      rw [height_mk] at hheight
      exact ih d hd (everyOf_iff.1 hhs d hd) (by omega) (hholes d hd)

end Region

end HeaderFlow
