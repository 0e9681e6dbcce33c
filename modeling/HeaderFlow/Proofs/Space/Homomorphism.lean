import HeaderFlow.Proofs.Space.Widening

/-!
# Widening is a homomorphism of the set algebra

To widen the operands of an operation, or to widen its result, is the same. **The two spaces are
equal as data**, not only as sets: no decision inside the algebra (what is in conflict, what lies
inside what, what merges, when a round of compacting comes to its end) takes account of the new
trits. That one computation keeps up with the other was seen operation by operation
(`Space.Widens`); here this is joined to the fact that the first one breaks no precondition, so that
both give a result.

What a widened space contains is decided by the bits that were there before
(`contains_enlarge_iff`), since a pattern asks for nothing past its end.
-/

namespace HeaderFlow

open Checked (Gives Tracks tracks_ok)

variable {n m : Nat} {x y : Nat → Bool}

/-! ### Headers that begin alike -/

theorem Pattern.matches_congr {p : Pattern} (hxy : ∀ i < 8 * p.bytes, x i = y i) :
    p.Matches x ↔ p.Matches y := by
  rw [← Pattern.width_eq] at hxy
  exact forall_congr' fun i ↦ forall_congr' fun hi ↦ by rw [hxy i hi]

theorem Region.contains_congr {r : Region} (hr : r.Every (·.bytes = n))
    (hxy : ∀ i < 8 * n, x i = y i) : r.Contains x ↔ r.Contains y := by
  induction r using Region.induction with
  | mk f hs ih =>
    obtain ⟨rfl, hhs⟩ := Region.every_mk.1 hr
    rw [Region.contains_mk, Region.contains_mk, Pattern.matches_congr hxy, Region.containsAny_iff,
      Region.containsAny_iff]
    refine and_congr_right fun _ ↦ not_congr (exists_congr fun d ↦ and_congr_right fun hd ↦ ?_)
    exact ih d hd (Region.everyOf_iff.1 hhs d hd)

/-! ### Nothing is lost by widening -/

/-- Lists whose members are determined by what becomes of them. -/
theorem eq_of_map_eq_map {α β : Type} {f : α → β} {as bs : List α}
    (hinj : ∀ a ∈ as, ∀ b ∈ bs, f a = f b → a = b) (h : as.map f = bs.map f) : as = bs := by
  induction as generalizing bs with
  | nil => exact (List.map_eq_nil_iff.1 h.symm).symm
  | cons a as ih =>
    obtain ⟨b, bs, rfl, hb, hbs⟩ := List.map_eq_cons_iff.1 h.symm
    rw [hinj a List.mem_cons_self b List.mem_cons_self hb.symm,
      ih
        (fun c hc d hd ↦ hinj c (List.mem_cons_of_mem _ hc) d (List.mem_cons_of_mem _ hd)) hbs.symm]

theorem Region.eq_of_enlarge {r q : Region} (hr : r.Every (·.bytes = n))
    (hq : q.Every (·.bytes = n)) (h : r.enlarge m = q.enlarge m) : r = q := by
  induction r using Region.induction generalizing q with
  | mk f hs ih =>
    obtain ⟨g, ks⟩ := q
    obtain ⟨hf, hhs⟩ := Region.every_mk.1 hr
    obtain ⟨hg, hks⟩ := Region.every_mk.1 hq
    rw [Region.enlarge_mk, Region.enlarge_mk, Region.mk.injEq, Region.enlargeList_eq_map,
      Region.enlargeList_eq_map] at h
    have hframe : f = g := (Pattern.enlarge_inj (hg.trans hf.symm)).1 h.1
    have hholes : hs = ks := eq_of_map_eq_map
      (fun d hd e he ↦ ih d hd (Region.everyOf_iff.1 hhs d hd) (Region.everyOf_iff.1 hks e he)) h.2
    rw [hframe, hholes]

namespace Space

open Pattern (MaskWidens)

variable {a b s s' t t' : Space} {v k w : Pattern} {o : Option Pattern}

theorem enlarge_inj (ha : a.Uniform) (hb : b.Uniform) (hab : b.bytes = a.bytes) :
    a.enlarge m = b.enlarge m ↔ a = b := by
  refine ⟨fun h ↦ ?_, fun h ↦ by rw [h]⟩
  have hwa := Region.forall₂_widens_iff.1 (widens_enlarge (m := m) ⟨rfl, ha⟩).regions
  have hwb := Region.forall₂_widens_iff.1 (widens_enlarge (m := m) ⟨hab, hb⟩).regions
  have hregions : a.regions = b.regions := by
    have hlists := hwa.2.symm.trans ((congrArg Space.regions h).trans hwb.2)
    rw [Region.enlargeList_eq_map, Region.enlargeList_eq_map] at hlists
    exact eq_of_map_eq_map (fun r hr q hq ↦ Region.eq_of_enlarge (Region.everyOf_iff.1 hwa.1 r hr)
      (Region.everyOf_iff.1 hwb.1 q hq)) hlists
  obtain ⟨bytes, regions⟩ := a
  obtain ⟨_, _⟩ := b
  obtain rfl : _ = bytes := hab
  obtain rfl : regions = _ := hregions
  rfl

/-- **What a widened space contains is decided by the bits that were there before.** -/
theorem contains_enlarge_iff (ha : a.Uniform) (hxy : ∀ i < 8 * a.bytes, x i = y i) :
    (a.enlarge m).Contains y ↔ a.Contains x := by
  rw [contains_enlarge, contains_iff, contains_iff]
  exact exists_congr fun r ↦ and_congr_right fun hr ↦
    Region.contains_congr (Region.everyOf_iff.1 ha r hr) fun i hi ↦ (hxy i hi).symm

/-! ### Results that are widened -/

/-- The first computation gives a space, and the second one the same space widened. -/
def GivesWidened (m : Nat) (c c' : Checked Space) : Prop := ∃ u, c = .ok u ∧ c' = .ok (u.enlarge m)

/-- Both computations give the same answer. -/
def GivesSame {α : Type} (c c' : Checked α) : Prop := ∃ u, c = .ok u ∧ c' = .ok u

/-- What tracks another computation that gives a space gives the same space widened. -/
theorem givesWidened_of_tracks {c c' : Checked Space} {P : Space → Prop} (hc : Gives c P)
    (htracks : Tracks c c' (Widens n m)) : GivesWidened m c c' := by
  obtain ⟨u, hu, -⟩ := hc
  obtain ⟨u', hu', hwidens⟩ := htracks u hu
  exact ⟨u, hu, hwidens.eq ▸ hu'⟩

/-- What tracks another computation that gives an answer gives the same answer. -/
theorem givesSame_of_tracks {α : Type} {c c' : Checked α} {P : α → Prop} (hc : Gives c P)
    (htracks : Tracks c c' Eq) : GivesSame c c' := by
  obtain ⟨u, hu, -⟩ := hc
  obtain ⟨_, hu', rfl⟩ := htracks u hu
  exact ⟨u, hu, hu'⟩

/-- Strict inclusion does not depend on widening. -/
theorem Widens.isStrictSubset (hs : s.Widens n m s') (ht : t.Widens n m t') :
    Tracks (s.isStrictSubset t) (s'.isStrictSubset t') Eq := by
  rw [Space.isStrictSubset, Space.isStrictSubset, ht.isEmpty]
  split
  · exact tracks_ok rfl
  · refine (hs.isSubset ht).bind ?_
    rintro c _ rfl
    split
    · refine (ht.isSubset hs).bind ?_
      rintro d _ rfl
      exact tracks_ok rfl
    · exact tracks_ok rfl

/-- Equality of covers does not depend on widening. -/
theorem Widens.isEqual (hs : s.Widens n m s') (ht : t.Widens n m t') :
    Tracks (s.isEqual t) (s'.isEqual t') Eq := by
  rw [Space.isEqual, Space.isEqual, hs.isEmpty, ht.isEmpty]
  split
  · exact tracks_ok rfl
  · refine (hs.isSubset ht).bind ?_
    rintro c _ rfl
    split
    · exact ht.isSubset hs
    · exact tracks_ok rfl

/-! ### All of them -/

/-- Every operation commutes with widening to `m` bytes. Patterns are widened with `x`, masks with
`0`. -/
structure CommutesWithEnlarge (m : Nat) (a b : Space) (v : Pattern) (o : Option Pattern)
    (k w : Pattern) : Prop where
  /-- The intersection with a space. -/
  intersect : GivesWidened m (a.intersect b) ((a.enlarge m).intersect (b.enlarge m))
  /-- The intersection with a pattern. -/
  clip : GivesWidened m (a.clip v) ((a.enlarge m).clip (v.enlarge m))
  /-- The difference with a pattern. -/
  cut : GivesWidened m (a.cut v) ((a.enlarge m).cut (v.enlarge m))
  complement : GivesWidened m a.complement (a.enlarge m).complement
  minus : GivesWidened m (a.minus b) ((a.enlarge m).minus (b.enlarge m))
  compact : GivesWidened m (a.compact o)
    ((a.enlarge m).compact (o.map fun k ↦ k.enlargeWith m .zero))
  unroll : GivesWidened m a.unroll (a.enlarge m).unroll
  simplify : GivesWidened m a.simplify (a.enlarge m).simplify
  overwrite : GivesWidened m (a.overwrite k w)
    ((a.enlarge m).overwrite (k.enlargeWith m .zero) (w.enlarge m))
  /-- Whether there are regions, which is what compacting answers. -/
  isEmpty : (a.enlarge m).isEmpty = a.isEmpty
  isSubset : GivesSame (a.isSubset b) ((a.enlarge m).isSubset (b.enlarge m))
  isStrictSubset : GivesSame (a.isStrictSubset b) ((a.enlarge m).isStrictSubset (b.enlarge m))
  isEqual : GivesSame (a.isEqual b) ((a.enlarge m).isEqual (b.enlarge m))
  /-- Equality as data. -/
  eq : a.enlarge m = b.enlarge m ↔ a = b

theorem option_rel_maskWidens (ho : ∀ k ∈ o, k.bytes = n) :
    Option.Rel (MaskWidens n m) o (o.map fun k ↦ k.enlargeWith m .zero) := by
  cases o with
  | none => exact .none
  | some k => exact .some ⟨ho k rfl, rfl⟩

/-- **Widening is a homomorphism of the set algebra.** For spaces over headers of one length,
however holes are nested, and patterns and masks of that length, whatever their trits, each
operation on the widened operands gives the widened result of the operation, each comparison gives
the same answer, and the widened space contains exactly the headers whose first bits, as many as
there were before, are those of a header of the space. -/
theorem enlarge_is_homomorphism (ha : a.Uniform) (hb : b.Uniform) (hab : b.bytes = a.bytes)
    (hv : v.bytes = a.bytes) (ho : ∀ k ∈ o, k.bytes = a.bytes) (hk : k.bytes = a.bytes)
    (hw : w.bytes = a.bytes) (m : Nat) :
    CommutesWithEnlarge m a b v o k w ∧ (a.enlarge m).bytes = max a.bytes m ∧
      ∀ x y, (∀ i < 8 * a.bytes, x i = y i) → ((a.enlarge m).Contains y ↔ a.Contains x) := by
  have hsa : a.Widens a.bytes m (a.enlarge m) := widens_enlarge ⟨rfl, ha⟩
  have hsb : b.Widens a.bytes m (b.enlarge m) := widens_enlarge ⟨hab, hb⟩
  have hpv := Pattern.widens_enlarge (m := m) hv
  have hpw := Pattern.widens_enlarge (m := m) hw
  have hover : a.Over a.bytes := ⟨rfl, ha⟩
  have hover' : b.Over a.bytes := ⟨hab, hb⟩
  refine ⟨?_, bytes_enlarge a m, fun x y hxy ↦ contains_enlarge_iff ha hxy⟩
  exact {
    intersect := givesWidened_of_tracks (intersect_yields ha hb hab).gives (hsa.intersect hsb)
    clip := givesWidened_of_tracks (hover.clip hv) (hsa.clip hpv)
    cut := givesWidened_of_tracks (hover.cut hv) (hsa.cut hpv)
    complement := givesWidened_of_tracks (complement_yields ha).gives hsa.complement
    minus := givesWidened_of_tracks (minus_yields ha hb hab).gives (hsa.minus hsb)
    compact := givesWidened_of_tracks (hover.compact o) (hsa.compact (option_rel_maskWidens ho))
    unroll := givesWidened_of_tracks (unroll_yields ha).gives hsa.unroll
    simplify := givesWidened_of_tracks hover.simplify hsa.simplify
    overwrite := givesWidened_of_tracks (hover.overwrite hk hw) (hsa.overwrite ⟨hk, rfl⟩ hpw)
    isEmpty := hsa.isEmpty
    isSubset := givesSame_of_tracks (hover.isSubset hover') (hsa.isSubset hsb)
    isStrictSubset := givesSame_of_tracks (hover.isStrictSubset hover') (hsa.isStrictSubset hsb)
    isEqual := givesSame_of_tracks (hover.isEqual hover') (hsa.isEqual hsb)
    eq := enlarge_inj ha hb hab }

/-- Three bytes widened to nine, which takes two words more: a hole in a hole, one that reaches out
of its frame, and frames with a conflict. -/
theorem enlarge_is_homomorphism_nested :
    let a :
      Space :=
  ⟨3, [.mk (.allWild 3) [.mk (.fill 3 .one) [.plain (.fill 3 .zero)]], .plain (.fill 3 .conflict)]⟩
    let b : Space := ⟨3, [.mk (.fill 3 .zero) [.plain ((Pattern.allWild 3).put 23 .one)]]⟩
    a.Uniform ∧ b.Uniform ∧
      CommutesWithEnlarge 9 a b (.fill 3 .wild) (some (.fill 3 .one)) (.fill 3 .one)
        (.fill 3 .zero) ∧
      ∀ x y, (∀ i < 24, x i = y i) → ((a.enlarge 9).Contains y ↔ a.Contains x) := by
  intro a b
  have ha : a.Uniform := by simp [a, Uniform, Region.plain, Pattern.fill]
  have hb : b.Uniform := by
    simp [b, Uniform, Region.plain, Pattern.fill, Pattern.allWild, Pattern.put]
  have ho : ∀ k ∈ some (Pattern.fill 3 .one), k.bytes = a.bytes := by
    rintro k ⟨⟩
    rfl
  have hall := enlarge_is_homomorphism (v := .fill 3 .wild) (k := .fill 3 .one)
    (w := .fill 3 .zero) ha hb rfl rfl ho rfl rfl 9
  exact ⟨ha, hb, hall.1, hall.2.2⟩

end Space

end HeaderFlow
