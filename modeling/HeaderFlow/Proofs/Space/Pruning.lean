import HeaderFlow.Proofs.Pattern.Tritwise
import HeaderFlow.Proofs.Space.WellFormed

/-!
# What overwriting keeps, at any depth

Overwriting gives up a hole that has another number of wildcards to lose than the frame around it,
and holes of holes in the same way. *Pruning* a region drops the same holes and overwrites nothing.
**For a header that matches the frame, what it turns into lies in the overwritten region exactly if
the header lies in the pruned one** (`contains_overwrite_iff`): a hole that is kept neither gains
nor loses such a header, so the induction goes straight down.

To drop a hole of the region adds headers, to drop a hole of a hole takes headers away, and so on in
turns. So overwriting loses headers only by giving up a hole at an even depth (`Sheltered`), and
there is such a loss: `overwrite_loses_header`.
-/

namespace HeaderFlow

/-- The number of wildcards at positions that the mask may set. -/
def Pattern.wildUnder (mask p : Pattern) : Nat :=
  (List.range p.width).countP fun i ↦ decide (p.trit i = .wild) && (mask.trit i).mayOne

namespace Region

variable {f mask value : Pattern} {r c d : Region} {rs cs hs : List Region} {n lost : Nat}
  {x y : Nat → Bool}

/-! ### Pruning -/

mutual

/-- The region without the holes, at every depth, that have another number of wildcards under the
mask than the frame around them. -/
def prune (mask : Pattern) : Region → Region
  | mk f hs => mk f (pruneList mask (mask.wildUnder f) hs)

/-- The regions of the list with the given number of wildcards under the mask, pruned. -/
def pruneList (mask : Pattern) (wild : Nat) : List Region → List Region
  | [] => []
  | r :: rs =>
    if mask.wildUnder r.frame = wild then r.prune mask :: pruneList mask wild rs
    else pruneList mask wild rs

end

theorem prune_mk : (mk f hs).prune mask = mk f (pruneList mask (mask.wildUnder f) hs) := by
  rw [prune]

theorem frame_prune : (r.prune mask).frame = r.frame := by
  obtain ⟨f, hs⟩ := r
  rw [prune_mk]
  rfl

/-- The members of a pruned list. -/
theorem mem_pruneList {wild : Nat} : d ∈ pruneList mask wild rs ↔
    ∃ r ∈ rs, mask.wildUnder r.frame = wild ∧ d = r.prune mask := by
  induction rs with
  | nil => simp [pruneList]
  | cons r rs ih =>
    rw [pruneList]
    split
    · rename_i hkept
      simp [ih, hkept]
    · rename_i hgiven
      simp [ih, hgiven]

/-- What a pruned list contains. -/
theorem containsAny_pruneList {wild : Nat} : ContainsAny (pruneList mask wild rs) x ↔
    ∃ r ∈ rs, mask.wildUnder r.frame = wild ∧ (r.prune mask).Contains x := by
  rw [containsAny_iff]
  constructor
  · rintro ⟨d, hd, hx⟩
    obtain ⟨r, hr, hwild, rfl⟩ := mem_pruneList.1 hd
    exact ⟨r, hr, hwild, hx⟩
  · rintro ⟨r, hr, hwild, hx⟩
    exact ⟨_, mem_pruneList.2 ⟨r, hr, hwild, rfl⟩, hx⟩

/-! ### Overwriting is exact on the pruned region -/

/-- Overwriting a region loses the wildcards of its frame under the mask. -/
theorem lost_of_overwrite (hc : r.overwrite mask value = .ok (c, lost)) :
    lost = mask.wildUnder r.frame := by
  obtain ⟨f, hs⟩ := r
  obtain ⟨hmask, -, rfl, -⟩ := overwrite_mk_eq_ok hc
  exact Pattern.lost_eq_countP hmask.symm

/-- All regions of a list are overwritten, and those are kept that lost as much as was asked for. -/
theorem of_overwriteList_eq_ok (hcs : overwriteList rs mask value lost = .ok cs) :
    ∀ r ∈ rs, ∃ c m, r.overwrite mask value = .ok (c, m) ∧ (m = lost → c ∈ cs) := by
  induction rs generalizing cs with
  | nil => simp
  | cons r rs ih =>
    obtain ⟨c, m, rest, hc, hrest, rfl⟩ := overwriteList_cons_eq_ok hcs
    refine List.forall_mem_cons.2 ⟨⟨c, m, hc, fun hm ↦ ?_⟩, fun q hq ↦ ?_⟩
    · rw [if_pos hm]
      exact List.mem_cons_self
    · obtain ⟨c', m', hc', hmem⟩ := ih hrest q hq
      refine ⟨c', m', hc', fun hm ↦ ?_⟩
      split
      · exact List.mem_cons_of_mem _ (hmem hm)
      · exact hmem hm

/-- **What a header of the frame turns into lies in the overwritten region exactly if the header
lies in the pruned one.** -/
theorem contains_overwrite_iff (hconcrete : mask.Concrete) (hr : r.WellFormed n)
    (hc : r.overwrite mask value = .ok (c, lost)) (hx : r.frame.Matches x)
    (hxy : Pattern.Turns mask value x y) : c.Contains y ↔ (r.prune mask).Contains x := by
  induction r using Region.induction generalizing c lost with
  | mk f hs ih =>
    obtain ⟨hf, hhs⟩ := wellFormed_mk.1 hr
    have hlost := lost_of_overwrite hc
    obtain ⟨hmask, hvalue, hlostf, ds, hds, rfl⟩ := overwrite_mk_eq_ok hc
    have hy := Pattern.matches_replaceMasked hconcrete hmask hvalue hx hxy
    rw [prune_mk, contains_mk, contains_mk, and_iff_right hy,
      and_iff_right (show f.Matches x from hx), not_iff_not, containsAny_pruneList, containsAny_iff]
    constructor
    · rintro ⟨e, he, hye⟩
      obtain ⟨d, hd, ho⟩ := exists_of_overwriteList hds he
      obtain ⟨hwell, hinside⟩ := wellFormedIn_iff.1 hhs d hd
      refine ⟨d, hd, (lost_of_overwrite ho).symm.trans hlost, ?_⟩
      -- the new hole has the new header in its frame, so the old one had the old header
      have hyd := (contains_iff.1 hye).1
      rw [frame_of_overwrite ho] at hyd
      have hlostd : (d.frame.replaceMasked mask value).lost =
          (f.replaceMasked mask value).lost := by
        obtain ⟨g, ks⟩ := d
        exact (overwrite_mk_eq_ok ho).2.2.1.symm.trans hlostf
      have hxd := Pattern.matches_of_replaceMasked hconcrete (hf.1.symm ▸ hwell.solid_frame) hmask
        hvalue hinside hlostd hx hxy hyd
      exact (ih d hd hwell ho hxd).1 hye
    · rintro ⟨d, hd, hwild, hxd⟩
      obtain ⟨e, m, ho, hmem⟩ := of_overwriteList_eq_ok hds d hd
      have hm : m = lost := (lost_of_overwrite ho).trans (hwild.trans hlost.symm)
      have hwell := (wellFormedIn_iff.1 hhs d hd).1
      have hmatch : d.frame.Matches x := by
        have := (contains_iff.1 hxd).1
        rwa [frame_prune] at this
      exact ⟨e, hmem hm, (ih d hd hwell ho hmatch).2 hxd⟩

/-! ### Holes at even depths -/

mutual

/-- No hole at an even depth is given up inside holes that are kept. With the flag set, the region
is itself a hole at an odd depth. -/
def Sheltered (mask : Pattern) (odd : Bool) : Region → Prop
  | mk f hs => ShelteredIn mask odd (mask.wildUnder f) hs

/-- What `Sheltered` asks of the holes. Those at an odd depth may be given up, those at an even
depth may not. -/
def ShelteredIn (mask : Pattern) (odd : Bool) (wild : Nat) : List Region → Prop
  | [] => True
  | r :: rs =>
    (if odd then mask.wildUnder r.frame = wild ∧ r.Sheltered mask false
      else mask.wildUnder r.frame = wild → r.Sheltered mask true) ∧ ShelteredIn mask odd wild rs

end

/-- A hole at an odd depth is sheltered if all holes in it are kept and sheltered. -/
theorem sheltered_true_mk : (mk f hs).Sheltered mask true ↔
    ∀ d ∈ hs, mask.wildUnder d.frame = mask.wildUnder f ∧ d.Sheltered mask false := by
  rw [Sheltered]
  generalize mask.wildUnder f = wild
  induction hs with
  | nil => simp [ShelteredIn]
  | cons d hs ih => rw [ShelteredIn, ih, if_pos rfl, List.forall_mem_cons]

/-- Any other region is sheltered if all holes in it that are kept are. -/
theorem sheltered_false_mk : (mk f hs).Sheltered mask false ↔
    ∀ d ∈ hs, mask.wildUnder d.frame = mask.wildUnder f → d.Sheltered mask true := by
  rw [Sheltered]
  generalize mask.wildUnder f = wild
  induction hs with
  | nil => simp [ShelteredIn]
  | cons d hs ih => rw [ShelteredIn, ih, if_neg Bool.false_ne_true, List.forall_mem_cons]

/-- **Where no hole at an even depth is given up, pruning only adds headers to the region**, and
only takes headers from its holes. -/
theorem contains_prune (r : Region) :
    (r.Sheltered mask false → r.Contains x → (r.prune mask).Contains x) ∧
      (r.Sheltered mask true → (r.prune mask).Contains x → r.Contains x) := by
  induction r using Region.induction with
  | mk f hs ih =>
    rw [sheltered_false_mk, sheltered_true_mk, prune_mk, contains_mk, contains_mk,
      containsAny_pruneList, containsAny_iff]
    constructor
    · refine fun hsheltered ↦ And.imp_right fun hout ↦ ?_
      rintro ⟨d, hd, hwild, hx⟩
      exact hout ⟨d, hd, (ih d hd).2 (hsheltered d hd hwild) hx⟩
    · refine fun hsheltered ↦ And.imp_right fun hout ↦ ?_
      rintro ⟨d, hd, hx⟩
      obtain ⟨hwild, hd'⟩ := hsheltered d hd
      exact hout ⟨d, hd, hwild, (ih d hd).1 hd' hx⟩

/-- A hole in a region of height one is plain. -/
theorem eq_plain_of_height_le (hlow : (mk f hs).height ≤ 1) (hd : d ∈ hs) : d = plain d.frame := by
  obtain ⟨g, ks⟩ := d
  have hlt := height_lt_heightList hd
  rw [height_mk] at hlow hlt
  obtain rfl : ks = [] := heightList_eq_zero_iff.1 (by omega)
  rfl

/-- Holes without holes may be given up. -/
theorem sheltered_of_height_le (hheight : r.height ≤ 1) : r.Sheltered mask false := by
  obtain ⟨f, hs⟩ := r
  rw [sheltered_false_mk]
  intro d hd _
  rw [eq_plain_of_height_le hheight hd]
  exact sheltered_true_mk.2 (by simp)

end Region

namespace Space

open Region

variable {s u : Space} {mask value : Pattern} {x y : Nat → Bool}

/-- The space with every region pruned. -/
def prune (s : Space) (mask : Pattern) : Space := ⟨s.bytes, s.regions.map (Region.prune mask)⟩

/-- Where no hole at an even depth is given up, pruning loses no header. -/
theorem contains_prune_of_sheltered (hs : ∀ r ∈ s.regions, r.Sheltered mask false)
    (hx : s.Contains x) : (s.prune mask).Contains x := by
  obtain ⟨r, hr, hxr⟩ := contains_iff.1 hx
  exact contains_iff.2 ⟨_, List.mem_map_of_mem hr, (Region.contains_prune r).1 (hs r hr) hxr⟩

/-- The space whose only hole has a hole, `x1` less `01`, in its first two trits. -/
def twiceHoled : Space :=
  ⟨1, [.mk (.allWild 1) [.mk ((Pattern.allWild 1).put 1 .one)
    [.plain (((Pattern.allWild 1).put 0 .zero).put 1 .one)]]]⟩

/-- The first trit. -/
def firstTrit : Pattern := (Pattern.fill 1 .zero).put 0 .one

/-- The sample is well-formed. -/
theorem wellFormed_twiceHoled : twiceHoled.WellFormed := by
  have hinside : (((Pattern.allWild 1).put 0 .zero).put 1 .one).Inside
      ((Pattern.allWild 1).put 1 .one) :=
    fun h ↦ Pattern.matches_of_within rfl (by decide +kernel)
  simp only [WellFormed, twiceHoled, List.forall_mem_singleton, wellFormed_mk, wellFormedIn_cons,
    wellFormedIn_nil, and_true, wellFormed_plain]
  exact ⟨⟨rfl, Pattern.hasConflict_allWild 1⟩,
    ⟨⟨rfl, by decide +kernel⟩, ⟨rfl, by decide +kernel⟩, hinside⟩,
    fun h _ ↦ Pattern.matches_allWild 1 h⟩

/-- The sample mask is concrete. -/
theorem concrete_firstTrit : firstTrit.Concrete := by
  unfold Pattern.Concrete
  decide +kernel

/-- **With holes nested twice a header can be lost**: to write `1` into the first trit gives up the
hole of the hole, and `11`, which the header `01` of the space turns into, is left in the hole. -/
theorem overwrite_loses_header :
    twiceHoled.WellFormed ∧ firstTrit.Concrete ∧ firstTrit.Solid twiceHoled.bytes ∧
      twiceHoled.Contains (fun i ↦ i == 1) ∧
      Pattern.Turns firstTrit firstTrit (fun i ↦ i == 1) (fun i ↦ decide (i ≤ 1)) ∧
      ∃ u, twiceHoled.overwrite firstTrit firstTrit = .ok u ∧ ¬ u.Contains fun i ↦
        decide (i ≤ 1) := by
  refine ⟨wellFormed_twiceHoled, concrete_firstTrit, ⟨rfl, by decide +kernel⟩, ?_, fun i ↦ ?_,
    ⟨1,
      [.mk ((Pattern.allWild 1).put 0 .one)
        [.plain (((Pattern.allWild 1).put 0 .one).put 1 .one)]]⟩,
    by decide +kernel, ?_⟩
  · simp only [twiceHoled, Contains, containsAny_cons, not_containsAny_nil, or_false, contains_mk,
      contains_plain, Pattern.Matches]
    decide +kernel
  · by_cases hi : i < 8
    · revert i
      decide +kernel
    · rw [if_neg fun hc ↦ hi hc.1, Bool.eq_iff_iff, decide_eq_true_iff, beq_iff_eq]
      omega
  · simp only [Contains, containsAny_cons, not_containsAny_nil, or_false, contains_mk,
      contains_plain, Pattern.Matches]
    decide +kernel

/-- **Overwriting loses no header unless it gives up a hole at an even depth.** In a well-formed
space, with a concrete mask, overwriting succeeds, and a header in the frame of a region turns into
headers of the new region exactly if it lies in the pruned one. So everything that a header of the
pruned space turns into lies in the overwritten space. Those are all headers of the space if no hole
at an even depth is given up inside kept ones, and so in particular if holes have no holes. -/
theorem exists_overwrite_contains (hs : s.WellFormed) (hconcrete : mask.Concrete)
    (hmask : mask.bytes = s.bytes) (hvalue : value.bytes = s.bytes) :
    ∃ u, s.overwrite mask value = .ok u ∧
      (∀ r ∈ s.regions, ∃ c ∈ u.regions, ∀ x y, r.frame.Matches x → Pattern.Turns mask value x y →
        (c.Contains y ↔ (r.prune mask).Contains x)) ∧
      (∀ x y, (s.prune mask).Contains x → Pattern.Turns mask value x y → u.Contains y) ∧
      ((∀ r ∈ s.regions, r.Sheltered mask false) →
        ∀ x y, s.Contains x → Pattern.Turns mask value x y → u.Contains y) ∧
      ((∀ r ∈ s.regions, r.height ≤ 1) →
        ∀ x y, s.Contains x → Pattern.Turns mask value x y → u.Contains y) := by
  obtain ⟨u, hu, -⟩ := exists_overwrite hs.uniform hmask hvalue
  have hregion : ∀ r ∈ s.regions, ∃ c ∈ u.regions, ∀ x y, r.frame.Matches x →
      Pattern.Turns mask value x y → (c.Contains y ↔ (r.prune mask).Contains x) := by
    intro r hr
    obtain ⟨c, hc, lost, ho⟩ := (of_overwrite_eq_ok hu).2 r hr
    exact ⟨c, hc, fun x y hx hxy ↦ contains_overwrite_iff hconcrete (hs r hr) ho hx hxy⟩
  have hpruned : ∀ x y, (s.prune mask).Contains x → Pattern.Turns mask value x y →
      u.Contains y := by
    intro x y hx hxy
    obtain ⟨d, hd, hxd⟩ := contains_iff.1 hx
    obtain ⟨r, hr, rfl⟩ := List.mem_map.1 hd
    obtain ⟨c, hc, hiff⟩ := hregion r hr
    have hmatch := (Region.contains_iff.1 hxd).1
    rw [frame_prune] at hmatch
    exact contains_iff.2 ⟨c, hc, (hiff x y hmatch hxy).2 hxd⟩
  have hsheltered : (∀ r ∈ s.regions, r.Sheltered mask false) →
      ∀ x y, s.Contains x → Pattern.Turns mask value x y → u.Contains y :=
    fun hall x y hx ↦ hpruned x y (contains_prune_of_sheltered hall hx)
  exact ⟨u, hu, hregion, hpruned, hsheltered,
    fun hlow ↦ hsheltered fun r hr ↦ sheltered_of_height_le (hlow r hr)⟩

/-- Where the last trit is written, which is wild in the frame and in both holes, none is given
up. -/
theorem exists_overwrite_contains_twice :
    let mask := (Pattern.fill 1 .zero).put 7 .one
    twiceHoled.WellFormed ∧ mask.Concrete ∧ mask.bytes = twiceHoled.bytes ∧
      (∀ r ∈ twiceHoled.regions, r.Sheltered mask false) ∧
      ∃ u, twiceHoled.overwrite mask mask = .ok u ∧
        ∀ x y, twiceHoled.Contains x → Pattern.Turns mask mask x y → u.Contains y := by
  intro mask
  have hconcrete : mask.Concrete := by
    unfold Pattern.Concrete
    decide +kernel
  have hsheltered : ∀ r ∈ twiceHoled.regions, r.Sheltered mask false := by
    simp only [twiceHoled, List.forall_mem_singleton, sheltered_false_mk, sheltered_true_mk]
    exact fun _ ↦ ⟨by decide +kernel, sheltered_of_height_le (by decide)⟩
  obtain ⟨u, hu, -, -, hkeeps, -⟩ := exists_overwrite_contains wellFormed_twiceHoled hconcrete
    rfl (rfl : mask.bytes = 1)
  exact ⟨wellFormed_twiceHoled, hconcrete, rfl, hsheltered, u, hu, hkeeps hsheltered⟩

end Space

end HeaderFlow
