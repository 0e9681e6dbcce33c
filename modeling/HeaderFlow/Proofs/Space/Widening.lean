import HeaderFlow.Proofs.Casting
import HeaderFlow.Proofs.Region.Widening
import HeaderFlow.Proofs.Space.Widths

/-!
# Operations on widened spaces

All operations on spaces are made of those on regions, so **what is computed with widened spaces is
what was computed before, widened**, and every question has the same answer. Widening is therefore a
casting (`Casting.widening`).

A condition may ask for headers of another length than the network has. It is then of no account
what stands for what, because asking breaks a precondition before anything is widened.

`s.Widens n m s'` determines the second space, so each lemma of the form
`Tracks (f s) (f s') (Widens n m)` says that `f` commutes with widening wherever it has a result.
Functions that work off lists have a lemma of their own by induction on the list; for all others
the lemma follows the definition, one line for each step. The number of passes that expanding takes
depends on how deep holes are nested, which widening leaves as it is.
-/

namespace HeaderFlow

open Checked (Tracks tracks_ok)
open List (Forall₂)

variable {n m : Nat}

namespace Space

open Pattern (MaskWidens)

variable {s s' t t' : Space} {p p' k k' v v' : Pattern} {o o' : Option Pattern} {r r' : Region}
  {rs rs' qs qs' : List Region}

/-- The second space is the first one, over headers of `n` bytes, widened to `m`. -/
structure Widens (n m : Nat) (s s' : Space) : Prop where
  bytes : s.bytes = n
  bytes_eq : s'.bytes = max n m
  regions : Forall₂ (Region.Widens n m) s.regions s'.regions

theorem enlarge_of_le (hle : m ≤ s.bytes) : s.enlarge m = s := if_pos hle

theorem bytes_enlarge (s : Space) (m : Nat) : (s.enlarge m).bytes = max s.bytes m := by
  rw [enlarge]
  split
  · omega
  · dsimp only
    omega

/-- Regions that are long enough stay as they are. -/
theorem enlargeList_of_le (hrs : Region.EveryOf (·.bytes = n) rs) (hle : m ≤ n) :
    Region.enlargeList rs m = rs := by
  have hregion : ∀ r : Region, r.Every (·.bytes = n) → r.enlarge m = r := fun r ↦ by
    induction r using Region.induction with
    | mk f hs ih =>
      intro hr
      obtain ⟨hf, hhs⟩ := Region.every_mk.1 hr
      rw [Region.enlarge_mk, Pattern.enlarge_of_le (hf ▸ hle), Region.enlargeList_eq_map]
      refine congrArg (Region.mk f) ((List.map_congr_left fun d hd ↦ ?_).trans (List.map_id hs))
      exact ih d hd (Region.everyOf_iff.1 hhs d hd)
  rw [Region.enlargeList_eq_map]
  exact (List.map_congr_left fun r hr ↦ hregion r (Region.everyOf_iff.1 hrs r hr)).trans
    (List.map_id rs)

/-- Widening a list twice is widening to the greater length. -/
theorem enlargeList_enlargeList (rs : List Region) (a b : Nat) :
    Region.enlargeList (Region.enlargeList rs a) b = Region.enlargeList rs (max a b) := by
  have hregion : ∀ r : Region, (r.enlarge a).enlarge b = r.enlarge (max a b) := fun r ↦ by
    induction r using Region.induction with
    | mk f hs ih =>
      rw [Region.enlarge_mk, Region.enlarge_mk, Region.enlarge_mk, Pattern.enlarge_enlarge,
        Region.enlargeList_eq_map, Region.enlargeList_eq_map, Region.enlargeList_eq_map,
        List.map_map]
      exact congrArg (Region.mk _) (List.map_congr_left ih)
  rw [Region.enlargeList_eq_map, Region.enlargeList_eq_map, Region.enlargeList_eq_map, List.map_map]
  exact List.map_congr_left fun r _ ↦ hregion r

/-- Widening a space twice is widening to the greater length. -/
theorem enlarge_enlarge (s : Space) (a b : Nat) :
    (s.enlarge a).enlarge b = s.enlarge (max a b) := by
  by_cases ha : a ≤ s.bytes
  · rw [enlarge_of_le ha]
    by_cases hb : b ≤ s.bytes
    · rw [enlarge_of_le hb, enlarge_of_le (by omega)]
    · rw [Nat.max_eq_right (by omega)]
  · have hgrown : ∀ c, ¬ c ≤ s.bytes → s.enlarge c = ⟨c, Region.enlargeList s.regions c⟩ :=
      fun c hc ↦ if_neg hc
    rw [hgrown a ha, hgrown (max a b) (by omega)]
    by_cases hb : b ≤ a
    · rw [Nat.max_eq_left hb]
      exact enlarge_of_le hb
    · rw [Nat.max_eq_right (by omega)]
      refine (if_neg hb).trans (congrArg (Space.mk b) ?_)
      rw [enlargeList_enlargeList, Nat.max_eq_right (by omega)]

/-- A space over headers of one length can be widened. -/
theorem widens_enlarge (hs : s.Over n) : s.Widens n m (s.enlarge m) := by
  obtain ⟨rfl, huniform⟩ := hs
  refine ⟨rfl, bytes_enlarge s m, Region.forall₂_widens_iff.2 ⟨huniform, ?_⟩⟩
  rw [enlarge]
  split
  · rename_i hle
    exact (enlargeList_of_le huniform hle).symm
  · rfl

namespace Widens

theorem over_left (hs : s.Widens n m s') : s.Over n := by
  obtain ⟨rfl, -, hregions⟩ := hs
  exact ⟨rfl, (Region.forall₂_widens_iff.1 hregions).1⟩

/-- What is widened is determined. -/
theorem eq (hs : s.Widens n m s') : s' = s.enlarge m := by
  have hwidens := widens_enlarge (m := m) hs.over_left
  obtain ⟨bytes, regions⟩ := s'
  obtain rfl : bytes = (s.enlarge m).bytes := hs.bytes_eq.trans hwidens.bytes_eq.symm
  exact congrArg (Space.mk _) ((Region.forall₂_widens_iff.1 hs.regions).2.trans
    (Region.forall₂_widens_iff.1 hwidens.regions).2.symm)

/-- Whether there are regions does not depend on widening. -/
theorem isEmpty (hs : s.Widens n m s') : s'.isEmpty = s.isEmpty := by
  have hregions := hs.regions
  rw [Space.isEmpty, Space.isEmpty]
  generalize s.regions = rs at hregions
  generalize s'.regions = rs' at hregions
  cases hregions <;> rfl

theorem heightList (hs : s.Widens n m s') :
    Region.heightList s'.regions = Region.heightList s.regions := by
  rw [(Region.forall₂_widens_iff.1 hs.regions).2, Region.heightList_enlargeList]

/-- With other regions that stand for each other. -/
theorem setRegions (hs : s.Widens n m s') (hrs : Forall₂ (Region.Widens n m) rs rs') :
    Widens n m { s with regions := rs } { s' with regions := rs' } :=
  ⟨hs.bytes, hs.bytes_eq, hrs⟩

end Widens

theorem widens_empty (n m : Nat) : (empty n).Widens n m (empty (max n m)) := ⟨rfl, rfl, .nil⟩

theorem widens_ofPattern (hp : p.Widens n m p') : (ofPattern p).Widens n m (ofPattern p') := by
  refine ⟨hp.bytes, hp.bytes_eq, ?_⟩
  rw [ofPattern, ofPattern, hp.hasConflict]
  dsimp only
  split
  · exact .nil
  · exact .cons (Region.widens_mk hp .nil) .nil

theorem widens_ofRegions (hrs : Forall₂ (Region.Widens n m) rs rs') :
    (ofRegions n rs).Widens n m (ofRegions (max n m) rs') :=
  ⟨rfl, rfl, forall₂_filter (fun _ _ hr ↦ by rw [hr.frame.hasConflict]) hrs⟩

/-! ### Union, intersection, difference with a pattern -/

namespace Widens

theorem addPattern (hs : s.Widens n m s') (hp : p.Widens n m p') :
    Tracks (s.addPattern p) (s'.addPattern p') (Widens n m) := by
  have hcheck : s.checkBytes p.bytes = .ok () := if_pos (hp.bytes.trans hs.bytes.symm)
  have hcheck' : s'.checkBytes p'.bytes = .ok () := if_pos (hp.bytes_eq.trans hs.bytes_eq.symm)
  rw [Space.addPattern, Space.addPattern, hcheck, hcheck', hp.hasConflict]
  refine tracks_ok ?_
  split
  · exact hs
  · exact hs.setRegions (List.rel_append hs.regions (.cons (Region.widens_mk hp .nil) .nil))

end Widens

/-- A region is intersected with a list alike. -/
theorem tracks_intersectEach (hr : r.Widens n m r') (hqs : Forall₂ (Region.Widens n m) qs qs') :
    Tracks (intersectEach r qs) (intersectEach r' qs') (Forall₂ (Region.Widens n m)) := by
  induction hqs with
  | nil => exact tracks_ok .nil
  | cons hq _ ih =>
    exact (hr.intersect hq).bind fun c c' hc ↦ ih.bind fun cs cs' hcs ↦
      tracks_ok (List.rel_append (forall₂_toList hc) hcs)

/-- Lists are intersected alike. -/
theorem tracks_intersectAll (hrs : Forall₂ (Region.Widens n m) rs rs')
    (hqs : Forall₂ (Region.Widens n m) qs qs') :
    Tracks (intersectAll rs qs) (intersectAll rs' qs') (Forall₂ (Region.Widens n m)) := by
  induction hrs with
  | nil => exact tracks_ok .nil
  | cons hr _ ih =>
    exact (tracks_intersectEach hr hqs).bind fun cs cs' hcs ↦ ih.bind fun ds ds' hds ↦
      tracks_ok (List.rel_append hcs hds)

/-- A pattern is cut from a region alike. -/
theorem tracks_punch (hp : p.Widens n m p') (hr : r.Widens n m r') :
    Tracks (punch p r) (punch p' r') (Region.Widens n m) := by
  refine (hr.frame.intersect hp).bind fun o o' ho ↦ ?_
  cases ho with
  | none => exact tracks_ok hr
  | some hd => exact tracks_ok (Region.widens_mk hr.frame
      (List.rel_append hr.holes (.cons (Region.widens_mk hd .nil) .nil)))

namespace Widens

/-- Intersections of spaces widen. -/
theorem intersect (hs : s.Widens n m s') (ht : t.Widens n m t') :
    Tracks (s.intersect t) (s'.intersect t') (Widens n m) := by
  have hcheck : s.checkBytes t.bytes = .ok () := if_pos (ht.bytes.trans hs.bytes.symm)
  have hcheck' : s'.checkBytes t'.bytes = .ok () := if_pos (ht.bytes_eq.trans hs.bytes_eq.symm)
  rw [Space.intersect, Space.intersect, hcheck, hcheck']
  exact (tracks_intersectAll hs.regions ht.regions).bind fun rs rs' hrs ↦
    tracks_ok ⟨hs.bytes, hs.bytes_eq, hrs⟩

/-- Clipped spaces widen. -/
theorem clip (hs : s.Widens n m s') (hp : p.Widens n m p') :
    Tracks (s.clip p) (s'.clip p') (Widens n m) :=
  (Region.tracks_clipList hs.regions hp).bind fun _ _ hrs ↦ tracks_ok (hs.setRegions hrs)

/-- Cut spaces widen. -/
theorem cut (hs : s.Widens n m s') (hp : p.Widens n m p') :
    Tracks (s.cut p) (s'.cut p') (Widens n m) :=
  (Checked.tracks_mapM_of_forall₂ (hs.regions.imp fun _ _ hr ↦ tracks_punch hp hr)).bind
    fun _ _ hrs ↦ tracks_ok (hs.setRegions hrs)

/-! ### Normal forms -/

/-- Normal forms of spaces widen. -/
theorem compact (hs : s.Widens n m s') (ho : Option.Rel (MaskWidens n m) o o') :
    Tracks (s.compact o) (s'.compact o') (Widens n m) :=
  (Region.tracks_compactEach (fun _ _ hr ↦ hr.compact ho) hs.regions).bind
    fun _ _ hrs ↦ tracks_ok (hs.setRegions hrs)

/-- **Overwritten spaces widen.** -/
theorem overwrite (hs : s.Widens n m s') (hk : k.MaskWidens n m k') (hv : v.Widens n m v') :
    Tracks (s.overwrite k v) (s'.overwrite k' v') (Widens n m) := by
  refine (Checked.tracks_mapM_of_forall₂ (hs.regions.imp fun r r' hr ↦ ?_)).bind
    fun _ _ hrs ↦ tracks_ok (hs.setRegions hrs)
  exact (hr.overwrite hk hv).bind fun _ _ hc ↦ tracks_ok hc.1

end Widens

theorem tracks_complementFrom (hs : s.Widens n m s') (hrs : Forall₂ (Region.Widens n m) rs rs') :
    Tracks (complementFrom s rs) (complementFrom s' rs') (Widens n m) := by
  induction hrs generalizing s s' with
  | nil => exact tracks_ok hs
  | cons hr _ ih =>
    have hc := widens_ofRegions hr.complement
    rw [complementFrom, complementFrom, hs.bytes, hs.bytes_eq, hc.isEmpty]
    split
    · exact tracks_ok (widens_empty n m)
    refine (hs.intersect hc).bind fun u u' hu ↦ (hu.compact .none).bind fun w w' hw ↦ ?_
    rw [hw.isEmpty]
    split
    · exact tracks_ok hw
    · exact ih hw

namespace Widens

/-- Complements of spaces widen. -/
theorem complement (hs : s.Widens n m s') : Tracks s.complement s'.complement (Widens n m) := by
  obtain ⟨bytes, rs⟩ := s
  obtain ⟨bytes', rs'⟩ := s'
  obtain ⟨rfl, rfl, hregions⟩ := hs
  change Forall₂ (Region.Widens bytes m) rs rs' at hregions
  cases hregions with
  | nil => exact tracks_ok (widens_ofPattern (Pattern.widens_allWild bytes m))
  | cons hr hrs =>
    have hc := widens_ofRegions hr.complement
    rw [Space.complement, Space.complement]
    dsimp only
    rw [hc.isEmpty]
    split
    · exact tracks_ok (widens_empty bytes m)
    refine (hc.compact .none).bind fun w w' hw ↦ ?_
    rw [hw.isEmpty]
    split
    · exact tracks_ok hw
    · exact tracks_complementFrom hw hrs

/-- Differences of spaces widen. -/
theorem minus (hs : s.Widens n m s') (ht : t.Widens n m t') :
    Tracks (s.minus t) (s'.minus t') (Widens n m) :=
  ht.complement.bind fun _ _ hc ↦ (hs.intersect hc).bind fun _ _ hu ↦ hu.compact .none

end Widens

/-! ### Expanding holes -/

theorem tracks_cutHoles (hs : s.Widens n m s') (hrs : Forall₂ (Region.Widens n m) rs rs') :
    Tracks (cutHoles n s rs) (cutHoles (max n m) s' rs') (Widens n m) := by
  induction hrs generalizing s s' with
  | nil => exact tracks_ok hs
  | cons hr _ ih =>
    have hhole := widens_ofRegions (m := m) (.cons hr .nil)
    refine hhole.complement.bind fun c c' hc ↦ (hs.intersect hc).bind fun u u' hu ↦ ?_
    rw [hu.isEmpty]
    split
    · exact tracks_ok hu
    · exact ih hu

theorem tracks_unrollRegion (hr : r.Widens n m r') :
    Tracks (unrollRegion n r) (unrollRegion (max n m) r') (Forall₂ (Region.Widens n m)) := by
  rw [unrollRegion, unrollRegion, hr.isPlain]
  split
  · exact tracks_ok (.cons hr .nil)
  · exact (tracks_cutHoles (widens_ofPattern hr.frame) hr.holes).map fun _ _ hu ↦ hu.regions

theorem tracks_unrollOnce (hrs : Forall₂ (Region.Widens n m) rs rs') :
    Tracks (unrollOnce n rs) (unrollOnce (max n m) rs') (Forall₂ (Region.Widens n m)) := by
  induction hrs with
  | nil => exact tracks_ok .nil
  | cons hr _ ih =>
    exact (tracks_unrollRegion hr).bind fun cs cs' hcs ↦ ih.bind fun ds ds' hds ↦
      tracks_ok (List.rel_append hcs hds)

theorem tracks_unrollTimes {passes : Nat} (hrs : Forall₂ (Region.Widens n m) rs rs') :
    Tracks (unrollTimes n passes rs) (unrollTimes (max n m) passes rs')
      (Forall₂ (Region.Widens n m)) := by
  induction passes generalizing rs rs' with
  | zero => exact tracks_ok hrs
  | succ passes ih =>
    have hall : rs'.all Region.isPlain = rs.all Region.isPlain := by
      clear ih
      induction hrs with
      | nil => rfl
      | cons hr _ ih => rw [List.all_cons, List.all_cons, hr.isPlain, ih]
    rw [unrollTimes, unrollTimes, hall]
    split
    · exact tracks_ok hrs
    · exact (tracks_unrollOnce hrs).bind fun _ _ hcs ↦ ih hcs

namespace Widens

/-- Expanding holes widens. -/
theorem unroll (hs : s.Widens n m s') : Tracks s.unroll s'.unroll (Widens n m) := by
  rw [Space.unroll, Space.unroll, hs.bytes, hs.bytes_eq, hs.heightList]
  exact (tracks_unrollTimes hs.regions).bind fun rs rs' hrs ↦ tracks_ok ⟨rfl, rfl, hrs⟩

/-- **Inclusion of widened spaces is inclusion of the spaces.** -/
theorem isSubset (hs : s.Widens n m s') (ht : t.Widens n m t') :
    Tracks (s.isSubset t) (s'.isSubset t') Eq := by
  rw [Space.isSubset, Space.isSubset, hs.isEmpty]
  split
  · exact tracks_ok rfl
  · exact (hs.minus ht).bind fun _ _ hu ↦ hu.unroll.bind fun _ _ hw ↦ tracks_ok hw.isEmpty.symm

end Widens

/-! ### Merging plain regions -/

theorem tracks_insideAny (hp : p.Widens n m p') {ps ps' : List Pattern}
    (hps : Forall₂ (Pattern.Widens n m) ps ps') :
    Tracks (insideAny p ps) (insideAny p' ps') Eq := by
  induction hps with
  | nil => exact tracks_ok rfl
  | cons hq _ ih =>
    refine (hp.isSubset hq).bind ?_
    rintro b _ rfl
    split
    · exact tracks_ok rfl
    · exact ih

theorem tracks_dropInside {ps ps' : List Pattern} (hps : Forall₂ (Pattern.Widens n m) ps ps')
    (hrs : Forall₂ (Region.Widens n m) rs rs') :
    Tracks (dropInside ps rs) (dropInside ps' rs') (Forall₂ (Region.Widens n m)) := by
  induction hrs with
  | nil => exact tracks_ok .nil
  | cons hr _ ih =>
    refine (tracks_insideAny hr.frame hps).bind ?_
    rintro b _ rfl
    refine ih.bind fun cs cs' hcs ↦ tracks_ok ?_
    split
    · exact hcs
    · exact .cons hr hcs

/-- Merging plain regions widens. -/
theorem Widens.simplify (hs : s.Widens n m s') : Tracks s.simplify s'.simplify (Widens n m) := by
  rw [Space.simplify, Space.simplify, List.partition_eq_filter_filter,
    List.partition_eq_filter_filter]
  have hplains : Forall₂ (Pattern.Widens n m) ((s.regions.filter Region.isPlain).map Region.frame)
      ((s'.regions.filter Region.isPlain).map Region.frame) :=
    List.rel_map (fun _ _ hr ↦ hr.frame) (forall₂_filter (fun _ _ hr ↦ hr.isPlain) hs.regions)
  have hothers : Forall₂ (Region.Widens n m) (s.regions.filter (not ∘ Region.isPlain))
      (s'.regions.filter (not ∘ Region.isPlain)) :=
    forall₂_filter (fun _ _ hr ↦ congrArg Bool.not hr.isPlain) hs.regions
  refine (Pattern.tracks_condense .none hplains).bind fun ps ps' hps ↦
    (tracks_dropInside hps hothers).bind fun cs cs' hcs ↦ tracks_ok ?_
  exact hs.setRegions (List.rel_append (Region.forall₂_map_plain hps) hcs)

/-- The second space is the first one widened, and if the first one is over headers of `n` bytes, so
are all its patterns. -/
structure AskWidens (n m : Nat) (t t' : Space) : Prop where
  uniform : t.Uniform
  le : n ≤ t.bytes
  eq : t' = t.enlarge m

/-- **Asking for headers of another length has no answer.** -/
theorem Widens.meet (hs : s.Widens n m s') (ht : t.AskWidens n m t') :
    Tracks (s.intersect t) (s'.intersect t') (Widens n m) := by
  by_cases hbytes : t.bytes = n
  · exact hs.intersect (ht.eq ▸ widens_enlarge ⟨hbytes, ht.uniform⟩)
  · intro u hu
    obtain ⟨_, hcheck, _⟩ := Checked.bind_eq_ok.1 hu
    exact absurd ((checkBytes_eq_ok.1 hcheck).trans hs.bytes) hbytes

end Space

/-- **Widening is a casting.** -/
def Casting.widening (n m : Nat) : Casting n (max n m) where
  pattern := Pattern.Widens n m
  mask := Pattern.MaskWidens n m
  space := Space.Widens n m
  asked := Space.AskWidens n m
  intersect := Pattern.Widens.intersect
  replaceMasked hp hk hv := (hp.replaceMasked hk hv).1
  allWild := Pattern.widens_allWild n m
  ofPattern := Space.widens_ofPattern
  empty := Space.widens_empty n m
  all := Space.widens_ofPattern (Pattern.widens_allWild n m)
  isEmpty := Space.Widens.isEmpty
  cut := Space.Widens.cut
  clip := Space.Widens.clip
  compact := Space.Widens.compact
  overwrite := Space.Widens.overwrite
  addPattern := Space.Widens.addPattern
  meet := Space.Widens.meet
  unroll := Space.Widens.unroll
  simplify := Space.Widens.simplify
  isSubset := Space.Widens.isSubset

end HeaderFlow
