import HeaderFlow.Proofs.Pattern.Widening
import HeaderFlow.Proofs.Region.Rounds
import HeaderFlow.Proofs.Space.Enlarge
import HeaderFlow.Proofs.Space.NormalForm

/-!
# Operations on widened regions

A region over headers of `n` bytes and its widened form go through the same steps of every
operation, and what comes out of the second computation is what comes out of the first, widened.
`Widens` says so of two patterns and of two regions, and each operation on widened operands
**tracks** the operation on the ones before: frames meet or not alike, the same holes combine, bite
or go, and a list changes its order alike.

Only the bound on the rounds of compacting differs, since it depends on the number of words. It is
never reached, so that the two runs may be given the same bound.

## Why a relation

That widening commutes with an operation could be said by equations. But the operations branch on
what they find, fail where lengths differ, and call each other with lists of regions, so equations
would have to be used under binds and in folds. A relation goes through all of these with one lemma
for each construct (`Tracks.bind` and so on), and lists are related member by member. The equations
are read off at the end: what is related is equal to the widened form.

A mask is related to what it becomes when it is widened with `0` (`MaskWidens`), which is not what a
pattern becomes.
-/

namespace HeaderFlow

open Checked (Tracks tracks_ok)
open List (Forall₂)

variable {n m : Nat}

theorem forall₂_toList {α β : Type} {R : α → β → Prop} {o : Option α} {o' : Option β}
    (h : Option.Rel R o o') : Forall₂ R o.toList o'.toList := by
  cases h with
  | none => exact .nil
  | some h => exact .cons h .nil

theorem forall₂_filter {α β : Type} {R : α → β → Prop} {f : α → Bool} {g : β → Bool} {as : List α}
    {bs : List β} (hfg : ∀ a b, R a b → g b = f a) (h : Forall₂ R as bs) :
    Forall₂ R (as.filter f) (bs.filter g) :=
  List.rel_filter (fun a b hab ↦ iff_of_eq (congrArg (· = true) (hfg a b hab).symm)) h

namespace Pattern

variable {p p' q q' v v' k k' : Pattern} {o o' : Option Pattern}

/-- The second pattern is the first one, of `n` bytes, widened to `m`. -/
structure Widens (n m : Nat) (p p' : Pattern) : Prop where
  bytes : p.bytes = n
  eq : p' = p.enlarge m

/-- The same for what a rule overwrites. -/
structure MaskWidens (n m : Nat) (k k' : Pattern) : Prop where
  bytes : k.bytes = n
  eq : k' = k.enlargeWith m .zero

theorem widens_enlarge (hp : p.bytes = n) : p.Widens n m (p.enlarge m) := ⟨hp, rfl⟩

theorem widens_allWild (n m : Nat) : (allWild n).Widens n m (allWild (max n m)) :=
  ⟨rfl, (enlarge_allWild n m).symm⟩

namespace Widens

/-- How long the widened pattern is. -/
theorem bytes_eq (hp : p.Widens n m p') : p'.bytes = max n m := by
  rw [hp.eq, bytes_enlarge, hp.bytes]

/-- Patterns that are widened alike have one length. -/
theorem same_bytes (hp : p.Widens n m p') (hq : q.Widens n m q') : q.bytes = p.bytes :=
  hq.bytes.trans hp.bytes.symm

theorem hasConflict (hp : p.Widens n m p') : p'.hasConflict = p.hasConflict := by
  rw [hp.eq, hasConflict_enlarge]

/-- **Widened patterns are the same if the patterns are.** -/
theorem eq_iff (hp : p.Widens n m p') (hq : q.Widens n m q') : p' = q' ↔ p = q := by
  rw [hp.eq, hq.eq]
  exact enlarge_inj (hp.same_bytes hq)

/-- Neither pair is refused for its lengths. -/
theorem checkWidth (hp : p.Widens n m p') (hq : q.Widens n m q') :
    p.checkWidth q = .ok () ∧ p'.checkWidth q' = .ok () :=
  ⟨if_pos (hq.same_bytes hp), if_pos (hp.bytes_eq.trans hq.bytes_eq.symm)⟩

/-- **Intersections widen.** -/
theorem intersect (hp : p.Widens n m p') (hq : q.Widens n m q') :
    Tracks (p.intersect q) (p'.intersect q') (Option.Rel (Widens n m)) := by
  rw [Pattern.intersect, Pattern.intersect, (hp.checkWidth hq).1, (hp.checkWidth hq).2,
    hp.eq, hq.eq]
  refine tracks_ok ?_
  rw [meet?_enlarge (hp.same_bytes hq)]
  cases hm : meet? p q with
  | none => exact .none
  | some c => exact .some ⟨(solid_of_meet?_eq_some hm).1.trans hp.bytes, rfl⟩

/-- **Inclusion does not depend on widening.** -/
theorem isSubset (hp : p.Widens n m p') (hq : q.Widens n m q') :
    Tracks (p.isSubset q) (p'.isSubset q') Eq := by
  rw [Pattern.isSubset, Pattern.isSubset, (hp.checkWidth hq).1, (hp.checkWidth hq).2, hp.eq, hq.eq]
  exact tracks_ok (within_enlarge (hp.same_bytes hq)).symm

/-- **Complements widen part by part.** -/
theorem complement (hp : p.Widens n m p') : Forall₂ (Widens n m) p.complement p'.complement := by
  rw [hp.eq, complement_enlarge, List.forall₂_map_right_iff, List.forall₂_same]
  exact fun c hc ↦ ⟨(bytes_of_mem_complement hc).trans hp.bytes, rfl⟩

/-- Overwritten patterns widen, and as many wildcards are lost. -/
theorem replaceMasked (hp : p.Widens n m p') (hk : k.MaskWidens n m k') (hv : v.Widens n m v') :
    (p.replaceMasked k v).pattern.Widens n m (p'.replaceMasked k' v').pattern ∧
      (p'.replaceMasked k' v').lost = (p.replaceMasked k v).lost := by
  rw [hp.eq, hk.eq, hv.eq, replaceMasked_enlarge (hk.bytes.trans hp.bytes.symm) (hp.same_bytes hv)]
  exact ⟨⟨hp.bytes, rfl⟩, rfl⟩

/-- **Overwriting widens.** -/
theorem overwrite (hp : p.Widens n m p') (hk : k.MaskWidens n m k') (hv : v.Widens n m v') :
    Tracks (p.overwrite k v) (p'.overwrite k' v') fun a a' ↦
      a.pattern.Widens n m a'.pattern ∧ a'.lost = a.lost := by
  have hk' : k'.bytes = max n m := by rw [hk.eq, bytes_enlargeWith, hk.bytes]
  have hpk : p.checkWidth k = .ok () := if_pos (hp.bytes.trans hk.bytes.symm)
  have hpk' : p'.checkWidth k' = .ok () := if_pos (hp.bytes_eq.trans hk'.symm)
  rw [Pattern.overwrite, Pattern.overwrite, hpk, hpk', (hp.checkWidth hv).1, (hp.checkWidth hv).2]
  exact tracks_ok (hp.replaceMasked hk hv)

/-- **Subtracting a bit widens.** -/
theorem subtractBit (hp : p.Widens n m p') (hq : q.Widens n m q') :
    Tracks (p.subtractBit q) (p'.subtractBit q') fun a a' ↦
      a.pattern.Widens n m a'.pattern ∧ a'.excess = a.excess := by
  rw [Pattern.subtractBit, Pattern.subtractBit, (hp.checkWidth hq).1, (hp.checkWidth hq).2,
    hp.eq, hq.eq, narrow_enlarge (hp.same_bytes hq)]
  exact tracks_ok ⟨⟨(bytes_narrow p q).trans hp.bytes, rfl⟩, rfl⟩

end Widens

/-! ### Condensing -/

/-- The same becomes of two patterns and of their widened forms. -/
inductive Pairing.Widens (n m : Nat) : Pairing → Pairing → Prop
  | neither : Widens n m .neither .neither
  | first : Widens n m .first .first
  | second : Widens n m .second .second
  | both : Widens n m .both .both
  | merged {p p' : Pattern} : p.Widens n m p' → Widens n m (.merged p) (.merged p')

/-- The comparisons with the accepted patterns went alike. -/
structure Sifted.Widens (n m : Nat) (s s' : Sifted) : Prop where
  accepted : Forall₂ (Pattern.Widens n m) s.accepted s'.accepted
  survives : s'.survives = s.survives
  merged : Option.Rel (Pattern.Widens n m) s.merged s'.merged

section Condense

variable (ho : Option.Rel (MaskWidens n m) o o')

include ho

/-- The same becomes of two patterns when they are widened. -/
theorem Widens.pairing (hp : p.Widens n m p') (hq : q.Widens n m q') :
    Tracks (p.pairing q o) (p'.pairing q' o') (Pairing.Widens n m) := by
  have hbytes : ∀ k ∈ o, k.bytes = p.bytes := by
    cases ho with
    | none => simp
    | some hk => simpa using hk.bytes.trans hp.bytes.symm
  have hmasks : o' = o.map fun k ↦ k.enlargeWith m .zero := by
    cases ho with
    | none => rfl
    | some hk => exact congrArg some hk.eq
  rw [Pattern.pairing, Pattern.pairing, (hp.checkWidth hq).1, (hp.checkWidth hq).2, hp.eq,
    hq.eq, hmasks]
  refine tracks_ok ?_
  rw [combine_enlarge (hp.same_bytes hq) hbytes]
  cases hc : combine p q o with
  | neither => exact .neither
  | first => exact .first
  | second => exact .second
  | both => exact .both
  | merged c => exact .merged ⟨(combine_eq_merged hc).1.trans hp.bytes, rfl⟩

/-- A pattern is sifted alike. -/
theorem tracks_sift (hv : v.Widens n m v') {as as' : List Pattern}
    (has : Forall₂ (Widens n m) as as') :
    Tracks (sift v o as) (sift v' o' as') (Sifted.Widens n m) := by
  induction has with
  | nil => exact tracks_ok ⟨.nil, rfl, .none⟩
  | cons ha has ih =>
    refine (ha.pairing ho hv).bind fun paired paired' hpaired ↦ ?_
    cases hpaired with
    | neither => exact tracks_ok ⟨has, rfl, .none⟩
    | first => exact tracks_ok ⟨.cons ha has, rfl, .none⟩
    | second => exact ih
    | both => exact ih.bind fun s s' hs ↦ tracks_ok ⟨.cons ha hs.accepted, hs.survives, hs.merged⟩
    | merged hp => exact tracks_ok ⟨has, rfl, .some hp⟩

/-- The queue is worked off alike. -/
theorem tracks_condenseQueue {steps : Nat} {vs vs' as as' : List Pattern}
    (hvs : Forall₂ (Widens n m) vs vs') (has : Forall₂ (Widens n m) as as') :
    Tracks (condenseQueue o steps vs as) (condenseQueue o' steps vs' as')
      (Forall₂ (Widens n m)) := by
  induction steps generalizing vs vs' as as' with
  | zero => exact tracks_ok has
  | succ steps ih =>
    cases hvs with
    | nil => exact tracks_ok has
    | cons hv hvs =>
      refine (tracks_sift ho hv has).bind fun s s' hs ↦
        ih (List.rel_append hvs (forall₂_toList hs.merged)) ?_
      rw [hs.survives]
      split
      · exact List.rel_append hs.accepted (.cons hv .nil)
      · exact hs.accepted

/-- **Condensing widens.** -/
theorem tracks_condense {ps ps' : List Pattern} (hps : Forall₂ (Widens n m) ps ps') :
    Tracks (condense o ps) (condense o' ps') (Forall₂ (Widens n m)) := by
  have hqueue : Forall₂ (Widens n m) (ps.filter fun v ↦ !v.hasConflict)
      (ps'.filter fun v ↦ !v.hasConflict) :=
    forall₂_filter (fun _ _ hp ↦ by rw [hp.hasConflict]) hps
  rw [condense, condense, hqueue.length_eq]
  exact tracks_condenseQueue ho hqueue .nil

end Condense

end Pattern

namespace Region

open Pattern (MaskWidens)

variable {r r' q q' : Region} {rs rs' qs qs' : List Region} {f f' v v' k k' : Pattern}
  {o o' : Option Pattern}

/-- The second region is the first one, over headers of `n` bytes, widened to `m`. -/
structure Widens (n m : Nat) (r r' : Region) : Prop where
  bytes : r.Every (·.bytes = n)
  eq : r' = r.enlarge m

theorem widens_enlarge (hr : r.Every (·.bytes = n)) : r.Widens n m (r.enlarge m) := ⟨hr, rfl⟩

/-- A widened list has a widened member for each. -/
theorem forall₂_widens_iff : Forall₂ (Widens n m) rs rs' ↔ EveryOf (·.bytes = n) rs ∧
    rs' = enlargeList rs m := by
  rw [enlargeList_eq_map]
  constructor
  · intro h
    induction h with
    | nil => exact ⟨everyOf_nil, rfl⟩
    | cons hr _ ih => exact ⟨everyOf_cons.2 ⟨hr.bytes, ih.1⟩, by rw [List.map_cons, hr.eq, ih.2]⟩
  · rintro ⟨hrs, rfl⟩
    rw [List.forall₂_map_right_iff, List.forall₂_same]
    exact fun r hr ↦ ⟨everyOf_iff.1 hrs r hr, rfl⟩

/-- A widened region has a widened frame and widened holes. -/
theorem widens_mk_iff {hs : List Region} : (mk f hs).Widens n m r' ↔
    ∃ f' hs', r' = mk f' hs' ∧ f.Widens n m f' ∧ Forall₂ (Widens n m) hs hs' := by
  constructor
  · rintro ⟨hbytes, rfl⟩
    obtain ⟨hf, hhs⟩ := every_mk.1 hbytes
    exact ⟨_, _, enlarge_mk, ⟨hf, rfl⟩, forall₂_widens_iff.2 ⟨hhs, rfl⟩⟩
  · rintro ⟨f', hs', rfl, hf, hhs⟩
    obtain ⟨hbytes, rfl⟩ := forall₂_widens_iff.1 hhs
    exact ⟨every_mk.2 ⟨hf.bytes, hbytes⟩, by rw [enlarge_mk, hf.eq]⟩

theorem widens_mk {hs hs' : List Region} (hf : f.Widens n m f')
    (hhs : Forall₂ (Widens n m) hs hs') :
    (mk f hs).Widens n m (mk f' hs') := widens_mk_iff.2 ⟨f', hs', rfl, hf, hhs⟩

theorem forall₂_map_plain {ps ps' : List Pattern} (hps : Forall₂ (Pattern.Widens n m) ps ps') :
    Forall₂ (Widens n m) (ps.map plain) (ps'.map plain) :=
  List.rel_map (fun _ _ hp ↦ widens_mk hp .nil) hps

namespace Widens

theorem frame (hr : r.Widens n m r') : r.frame.Widens n m r'.frame := by
  cases r
  obtain ⟨f', hs', rfl, hf, -⟩ := widens_mk_iff.1 hr
  exact hf

theorem holes (hr : r.Widens n m r') : Forall₂ (Widens n m) r.holes r'.holes := by
  cases r
  obtain ⟨f', hs', rfl, -, hhs⟩ := widens_mk_iff.1 hr
  exact hhs

theorem isPlain (hr : r.Widens n m r') : r'.isPlain = r.isPlain := by
  have hholes := hr.holes
  rw [Region.isPlain, Region.isPlain]
  generalize r.holes = hs at hholes
  generalize r'.holes = hs' at hholes
  cases hholes <;> rfl

theorem height (hr : r.Widens n m r') : r'.height = r.height := by rw [hr.eq, height_enlarge]

/-- Widening makes no holes. -/
theorem countHoles (hr : r.Widens n m r') : r'.countHoles = r.countHoles := by
  induction r using Region.induction generalizing r' with
  | mk f hs ih =>
    obtain ⟨f', hs', rfl, -, hhs⟩ := widens_mk_iff.1 hr
    rw [countHoles_mk, countHoles_mk]
    clear hr
    induction hhs with
    | nil => rfl
    | cons hd _ ihs =>
      obtain ⟨ihd, ih⟩ := List.forall_mem_cons.1 ih
      rw [countHolesList_cons, countHolesList_cons, ihd hd, ihs ih]

/-- **Widened regions are the same if the regions are.** -/
theorem eq_iff (hr : r.Widens n m r') (hq : q.Widens n m q') : r' = q' ↔ r = q := by
  induction r using Region.induction generalizing r' q q' with
  | mk f hs ih =>
    obtain ⟨g, ds⟩ := q
    obtain ⟨f', hs', rfl, hf, hhs⟩ := widens_mk_iff.1 hr
    obtain ⟨g', ds', rfl, hg, hds⟩ := widens_mk_iff.1 hq
    rw [mk.injEq, mk.injEq, hf.eq_iff hg]
    refine and_congr_right fun _ ↦ ?_
    clear hr hq
    induction hhs generalizing ds ds' with
    | nil => cases hds <;> simp
    | cons hd _ ihs =>
      cases hds with
      | nil => simp
      | cons he hds =>
        obtain ⟨ihd, ih⟩ := List.forall_mem_cons.1 ih
        rw [List.cons.injEq, List.cons.injEq, ihd hd he, ihs ih _ _ hds]

end Widens

/-! ### Clipping, intersection and complement -/

/-- A list is clipped alike if each member is. -/
theorem tracks_clipList_of {hs hs' : List Region} (hhs : Forall₂ (Widens n m) hs hs')
    (hclip : ∀ d ∈ hs, ∀ d' v v', d.Widens n m d' → v.Widens n m v' →
      Tracks (d.clip v) (d'.clip v') (Option.Rel (Widens n m))) (hv : v.Widens n m v') :
    Tracks (clipList hs v) (clipList hs' v') (Forall₂ (Widens n m)) := by
  induction hhs with
  | nil =>
    rw [clipList, clipList]
    exact tracks_ok .nil
  | cons hd _ ih =>
    obtain ⟨hclipd, hclip⟩ := List.forall_mem_cons.1 hclip
    rw [clipList, clipList]
    exact (hclipd _ _ _ hd hv).bind fun c c' hc ↦ (ih hclip).bind fun cs cs' hcs ↦
      tracks_ok (List.rel_append (forall₂_toList hc) hcs)

/-- **Clipping widens.** -/
theorem Widens.clip (hr : r.Widens n m r') (hv : v.Widens n m v') :
    Tracks (r.clip v) (r'.clip v') (Option.Rel (Widens n m)) := by
  induction r using Region.induction generalizing r' v v' with
  | mk f hs ih =>
    obtain ⟨f', hs', rfl, hf, hhs⟩ := widens_mk_iff.1 hr
    rw [Region.clip, Region.clip]
    refine (hf.intersect hv).bind fun o o' ho ↦ ?_
    cases ho with
    | none => exact tracks_ok .none
    | some hg => exact (tracks_clipList_of hhs (fun d hd _ _ _ ↦ ih d hd) hg).bind fun ds ds' hds ↦
        tracks_ok (.some (widens_mk hg hds))

/-- Clipping a list widens. -/
theorem tracks_clipList (hrs : Forall₂ (Widens n m) rs rs') (hv : v.Widens n m v') :
    Tracks (clipList rs v) (clipList rs' v') (Forall₂ (Widens n m)) :=
  tracks_clipList_of hrs (fun _ _ _ _ _ hd hv ↦ hd.clip hv) hv

/-- **Intersections of regions widen.** -/
theorem Widens.intersect (hr : r.Widens n m r') (hq : q.Widens n m q') :
    Tracks (r.intersect q) (r'.intersect q') (Option.Rel (Widens n m)) := by
  refine (hr.frame.intersect hq.frame).bind fun o o' ho ↦ ?_
  cases ho with
  | none => exact tracks_ok .none
  | some hg => exact (tracks_clipList (List.rel_append hr.holes hq.holes) hg).bind fun ds ds' hds ↦
      tracks_ok (.some (widens_mk hg hds))

/-- **Complements of regions widen.** -/
theorem Widens.complement (hr : r.Widens n m r') :
    Forall₂ (Widens n m) r.complement r'.complement :=
  List.rel_append (forall₂_map_plain hr.frame.complement) hr.holes

/-! ### Overwriting -/

/-- **A widened hole survives overwriting if the hole does**, since both lose as many wildcards. -/
theorem Widens.overwrite (hr : r.Widens n m r') (hk : k.MaskWidens n m k') (hv : v.Widens n m v') :
    Tracks (r.overwrite k v) (r'.overwrite k' v') fun c c' ↦ c.1.Widens n m c'.1 ∧ c'.2 = c.2 := by
  induction r using Region.induction generalizing r' with
  | mk f hs ih =>
    obtain ⟨f', hs', rfl, hf, hhs⟩ := widens_mk_iff.1 hr
    have hlist : ∀ lost, Tracks (overwriteList hs k v lost) (overwriteList hs' k' v' lost)
        (Forall₂ (Widens n m)) := by
      intro lost
      clear hr
      induction hhs with
      | nil =>
        rw [overwriteList, overwriteList]
        exact tracks_ok .nil
      | cons hd _ ihs =>
        obtain ⟨ihd, ih⟩ := List.forall_mem_cons.1 ih
        rw [overwriteList, overwriteList]
        refine (ihd hd).bind fun c c' hc ↦ (ihs ih).bind fun cs cs' hcs ↦ tracks_ok ?_
        rw [hc.2]
        split
        · exact .cons hc.1 hcs
        · exact hcs
    rw [Region.overwrite, Region.overwrite]
    refine (hf.overwrite hk hv).bind fun a a' ha ↦ ?_
    rw [ha.2]
    exact (hlist a.lost).bind fun cs cs' hcs ↦ tracks_ok ⟨widens_mk ha.1 hcs, rfl⟩

/-! ### Compacting -/

/-- Condensing plain regions widens. -/
theorem tracks_condensePlain (ho : Option.Rel (MaskWidens n m) o o')
    (hrs : Forall₂ (Widens n m) rs rs') :
    Tracks (condensePlain o rs) (condensePlain o' rs') (Forall₂ (Widens n m)) := by
  rw [condensePlain, condensePlain, hrs.length_eq]
  split
  · exact tracks_ok (forall₂_filter (fun _ _ hr ↦ by rw [hr.frame.hasConflict]) hrs)
  · rw [List.partition_eq_filter_filter, List.partition_eq_filter_filter]
    have hframes : Forall₂ (Pattern.Widens n m) ((rs.filter isPlain).map frame)
        ((rs'.filter isPlain).map frame) :=
      List.rel_map (fun _ _ hr ↦ hr.frame) (forall₂_filter (fun _ _ hr ↦ hr.isPlain) hrs)
    have hothers : Forall₂ (Widens n m) (rs.filter (not ∘ isPlain)) (rs'.filter (not ∘ isPlain)) :=
      forall₂_filter (fun _ _ hr ↦ congrArg Bool.not hr.isPlain) hrs
    exact (Pattern.tracks_condense ho hframes).map fun ps ps' hps ↦
      List.rel_append (forall₂_map_plain hps) hothers

/-- The second step does to widened regions what the first one does to regions. -/
def Agrees (n m : Nat) (step step' : Region → Checked (Option Region)) : Prop :=
  ∀ r r', r.Widens n m r' → Tracks (step r) (step' r') (Option.Rel (Widens n m))

variable {once once' step step' : Region → Checked (Option Region)}

/-- Compacting each hole widens if compacting one does. -/
theorem tracks_compactEach (honce : Agrees n m once once') (hrs : Forall₂ (Widens n m) rs rs') :
    Tracks (compactEach once rs) (compactEach once' rs') (Forall₂ (Widens n m)) := by
  induction hrs with
  | nil => exact tracks_ok .nil
  | cons hr _ ih =>
    exact (honce _ _ hr).bind fun c c' hc ↦ ih.bind fun cs cs' hcs ↦
      tracks_ok (List.rel_append (forall₂_toList hc) hcs)

/-- The same hole is tight. -/
theorem tracks_firstTight (hf : f.Widens n m f') (hrs : Forall₂ (Widens n m) rs rs') :
    Tracks (firstTight f rs) (firstTight f' rs') (Option.Rel fun e e' ↦
      e'.1 = e.1 ∧ e.2.pattern.Widens n m e'.2.pattern ∧ e'.2.excess = e.2.excess) := by
  induction hrs with
  | nil => exact tracks_ok .none
  | cons hr _ ih =>
    rename_i d d' ds ds' _
    have hlater : Tracks (do return (← firstTight f ds).map fun e ↦ (e.1 + 1, e.2))
        (do return (← firstTight f' ds').map fun e ↦ (e.1 + 1, e.2)) (Option.Rel fun e e' ↦
          e'.1 = e.1 ∧ e.2.pattern.Widens n m e'.2.pattern ∧ e'.2.excess = e.2.excess) := by
      refine ih.bind fun e e' he ↦ tracks_ok ?_
      cases he with
      | none => exact .none
      | some he => exact .some ⟨congrArg (· + 1) he.1, he.2⟩
    rw [firstTight, firstTight, hr.isPlain]
    split
    · refine (hf.subtractBit hr.frame).bind fun a a' ha ↦ ?_
      rw [ha.2]
      split
      · exact tracks_ok (.some ⟨rfl, ha⟩)
      · exact hlater
    · exact hlater

theorem mem_of_mem_swapRemove {j : Nat} (h : q ∈ swapRemove rs j) : q ∈ rs := by
  rw [swapRemove] at h
  split at h
  · cases h
  · rename_i l hl
    rcases List.mem_or_eq_of_mem_set (List.dropLast_subset _ h) with hq | hq
    · exact hq
    · exact hq ▸ List.mem_of_getLast? hl

/-- The same member is removed. -/
theorem forall₂_swapRemove (hrs : Forall₂ (Widens n m) rs rs') (j : Nat) :
    Forall₂ (Widens n m) (swapRemove rs j) (swapRemove rs' j) := by
  obtain ⟨hbytes, rfl⟩ := forall₂_widens_iff.1 hrs
  refine forall₂_widens_iff.2 ⟨hbytes.subset fun _ ↦ mem_of_mem_swapRemove, ?_⟩
  rw [enlargeList_eq_map, enlargeList_eq_map, swapRemove, swapRemove, List.getLast?_map]
  cases rs.getLast? with
  | none => rfl
  | some l => simp only [Option.map_some, ← List.map_set, List.map_dropLast]

/-- The same holes bite. -/
theorem tracks_bite {steps : Nat} {hs hs' : List Region} (hf : f.Widens n m f')
    (hhs : Forall₂ (Widens n m) hs hs') :
    Tracks (bite steps f hs) (bite steps f' hs') (Option.Rel (Widens n m)) := by
  induction steps generalizing f f' hs hs' with
  | zero => exact tracks_ok (.some (widens_mk hf hhs))
  | succ steps ih =>
    refine (tracks_firstTight hf hhs).bind fun e e' he ↦ ?_
    cases he with
    | none => exact tracks_ok (.some (widens_mk hf hhs))
    | some he =>
      obtain ⟨hplace, hpattern, hexcess⟩ := he
      dsimp only
      rw [hplace, hexcess]
      split
      · exact tracks_ok .none
      · exact (tracks_clipList (forall₂_swapRemove hhs _) hpattern).bind fun ds ds' hds ↦
          ih hpattern hds

/-- A round does the same to widened regions. -/
theorem agrees_round (ho : Option.Rel (MaskWidens n m) o o') (honce : Agrees n m once once') :
    Agrees n m (round o once) (round o' once') := fun r r' hr ↦ by
  refine (tracks_condensePlain ho hr.holes).bind fun ds ds' hds ↦
    (tracks_compactEach honce hds).bind fun es es' hes ↦ ?_
  rw [hes.length_eq]
  exact tracks_bite hr.frame hes

/-- All rounds together do the same. -/
theorem agrees_settle (hstep : Agrees n m step step') (rounds : Nat) :
    Agrees n m (settle step rounds) (settle step' rounds) := by
  induction rounds with
  | zero => exact fun r r' hr ↦ tracks_ok (.some hr)
  | succ rounds ih =>
    intro r r' hr
    refine (hstep r r' hr).bind fun o o' ho ↦ ?_
    cases ho with
    | none => exact tracks_ok .none
    | some hq =>
      dsimp only
      rw [if_congr (hq.eq_iff hr) rfl rfl]
      split
      · exact tracks_ok (.some hq)
      · exact ih _ _ hq

/-- Compacting to some depth does the same. -/
theorem agrees_compactAt (ho : Option.Rel (MaskWidens n m) o o') (height : Nat) :
    Agrees n m (compactAt o height) (compactAt o' height) := by
  induction height with
  | zero => exact fun r r' hr ↦ tracks_ok (.some hr)
  | succ height ih =>
    intro r r' hr
    rw [compactAt_succ (Nat.le_refl _), compactAt_succ (Nat.le_refl _), hr.countHoles]
    exact agrees_settle (agrees_round ho ih) _ r r' hr

/-- **The normal form of a widened region is its normal form, widened.** -/
theorem Widens.compact (ho : Option.Rel (MaskWidens n m) o o') (hr : r.Widens n m r') :
    Tracks (r.compact o) (r'.compact o') (Option.Rel (Widens n m)) := by
  rw [Region.compact, Region.compact, hr.height]
  exact agrees_compactAt ho _ r r' hr

end Region

/-- **Widening keeps normal forms.** -/
theorem Space.Normalized.enlarge {s : Space} (hnormal : s.Normalized)
    (hs : Region.EveryOf (·.bytes = n) s.regions) (m : Nat) : (s.enlarge m).Normalized := by
  rw [Space.enlarge]
  split
  · exact hnormal
  · intro q hq
    rw [Region.enlargeList_eq_map] at hq
    obtain ⟨r, hr, rfl⟩ := List.mem_map.1 hq
    have hwidens := Region.widens_enlarge (m := m) (Region.everyOf_iff.1 hs r hr)
    obtain ⟨o, ho, hrel⟩ := hwidens.compact .none (some r) (hnormal r hr)
    cases hrel with
    | some hq => exact hq.2 ▸ ho

end HeaderFlow
