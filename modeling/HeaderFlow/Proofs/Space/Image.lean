import HeaderFlow.Proofs.Space.Pruning

/-!
# Overwriting as an image

A mask and a value turn each header into some others: where the mask is `1` any bit that the value
allows is put, and all else is kept (`Pattern.Turns`). **The overwritten space is the image of the
pruned one under this relation** (`exists_overwrite_image`), at any depth of nesting. Images do not
commute with differences, so that this would be wrong without the pruning: an overwritten region
minus an overwritten hole need not be the image of the region minus the hole.

What pruning drops is found by counting wildcards. Since a hole lies inside its frame, **it has as
many wildcards to lose as the frame exactly if it is wild wherever the frame is and the mask is
`1`** (`wildUnder_eq_iff`). Where no hole has a hole, this describes the image without reference to
pruning or to counts (`exists_overwrite_iff`).
-/

namespace HeaderFlow

namespace Pattern

variable {p q mask value : Pattern} {x y : Nat → Bool}

/-- Wherever the mask is `1` and the first pattern is wild, so is the second one. -/
def WildAlong (mask q p : Pattern) : Prop :=
  ∀ i < mask.width, mask.trit i = .one → q.trit i = .wild → p.trit i = .wild

/-- A concrete mask may set the positions at which it is `1`. -/
theorem mayOne_iff (hconcrete : mask.Concrete) {i : Nat} (hi : i < mask.width) :
    (mask.trit i).mayOne = true ↔ mask.trit i = .one := by
  have hc := hconcrete i hi
  revert hc
  cases mask.trit i <;> decide

/-- **Of two patterns, one inside the other, the inner one has as many wildcards under the mask as
the outer one exactly if it is wild wherever the outer one is and the mask is `1`.** -/
theorem wildUnder_eq_iff (hconcrete : mask.Concrete) (hmask : q.bytes = mask.bytes)
    (hp : p.Solid q.bytes) (hpq : p.Inside q) :
    mask.wildUnder p = mask.wildUnder q ↔ mask.WildAlong q p := by
  have hwidth : p.width = q.width := by rw [width, width, hp.1]
  have hwidth' : q.width = mask.width := by rw [width, width, hmask]
  -- a wildcard of the inner pattern is one of the outer pattern
  have himp : ∀ i ∈ List.range mask.width,
      (decide (p.trit i = .wild) && (mask.trit i).mayOne) = true →
        (decide (q.trit i = .wild) && (mask.trit i).mayOne) = true := by
    simp only [Bool.and_eq_true, decide_eq_true_iff]
    rintro i - ⟨hwild, hone⟩
    exact ⟨trit_eq_wild.2 fun b ↦ allows_of_forall_matches hp.2 hpq (trit_eq_wild.1 hwild b), hone⟩
  rw [wildUnder, wildUnder, hwidth, hwidth']
  constructor
  · intro heq i hi hone hwild
    have := imp_of_countP_eq himp heq (List.mem_range.2 hi)
      (by rw [decide_eq_true hwild, (mayOne_iff hconcrete hi).2 hone, Bool.and_self])
    exact of_decide_eq_true (Bool.and_eq_true _ _ ▸ this).1
  · intro hwild
    refine List.countP_congr fun i hi ↦ ⟨himp i hi, ?_⟩
    simp only [Bool.and_eq_true, decide_eq_true_iff]
    rintro ⟨hq, hone⟩
    have hi' := List.mem_range.1 hi
    exact ⟨hwild i hi' ((mayOne_iff hconcrete hi').1 hone) hq, hone⟩

/-- **Whatever matches the new pattern arises from a header that matches the old one.** -/
theorem exists_turns (hconcrete : mask.Concrete) (hmask : p.bytes = mask.bytes)
    (hvalue : p.bytes = value.bytes) (hp : p.hasConflict = false)
    (hy : (p.replaceMasked mask value).pattern.Matches y) :
    ∃ x, p.Matches x ∧ Turns mask value x y := by
  have hwidth : p.width = mask.width := by rw [width, width, hmask]
  -- under the mask nothing is left of the old bits, and any that the pattern allows will do
  let x : Nat → Bool := fun i ↦ if i < mask.width ∧ mask.trit i = .one then p.allows i true else y i
  have hyi : ∀ i < mask.width, (p.allows i (y i) && mask.allows i false ||
      value.allows i (y i) && mask.allows i true) = true := fun i hi ↦ by
    rw [← allows_replaceMasked hmask hvalue (hwidth ▸ hi)]
    exact matches_iff.1 hy i
  refine ⟨x, fun i hi ↦ ?_, fun i ↦ ?_⟩
  · show p.allows i (x i) = true
    rcases allows_of_concrete hconcrete (hwidth ▸ hi) with ⟨hone, -, -⟩ | ⟨hone, ht, hf⟩
    · simp only [x, if_pos (And.intro (hwidth ▸ hi) hone)]
      cases htrue : p.allows i true with
      | true => exact htrue
      | false => exact (hasConflict_eq_false_iff.1 hp i).resolve_right (by simp [htrue])
    · simp only [x, if_neg fun hc : i < mask.width ∧ _ ↦ hone hc.2]
      simpa [ht, hf] using hyi i (hwidth ▸ hi)
  · split
    · rename_i hc
      rcases allows_of_concrete hconcrete hc.1 with ⟨-, ht, hf⟩ | ⟨hone, -, -⟩
      · simpa [ht, hf] using hyi i hc.1
      · exact absurd hc.2 hone
    · rename_i hc
      exact (if_neg hc).symm

end Pattern

namespace Region

variable {mask value : Pattern} {r c : Region} {n lost : Nat} {x y : Nat → Bool}

/-- **The overwritten region is the image of the pruned one.** -/
theorem contains_overwrite_iff_exists (hconcrete : mask.Concrete) (hmask : mask.bytes = n)
    (hvalue : value.bytes = n) (hr : r.WellFormed n) (hc : r.overwrite mask value = .ok (c, lost)) :
    c.Contains y ↔ ∃ x, (r.prune mask).Contains x ∧ Pattern.Turns mask value x y := by
  have hframe := hr.solid_frame
  constructor
  · intro hy
    have hmatch := (contains_iff.1 hy).1
    rw [frame_of_overwrite hc] at hmatch
    obtain ⟨x, hx, hxy⟩ := Pattern.exists_turns hconcrete (hframe.1.trans hmask.symm)
      (hframe.1.trans hvalue.symm) hframe.2 hmatch
    exact ⟨x, (contains_overwrite_iff hconcrete hr hc hx hxy).1 hy, hxy⟩
  · rintro ⟨x, hx, hxy⟩
    have hmatch := (contains_iff.1 hx).1
    rw [frame_prune] at hmatch
    exact (contains_overwrite_iff hconcrete hr hc hmatch hxy).2 hx

/-- Of a region of which no hole has a hole, pruning keeps the holes that are wild wherever the
frame is and the mask is `1`. -/
theorem contains_prune_of_height_le (hconcrete : mask.Concrete) (hmask : mask.bytes = n)
    (hr : r.WellFormed n) (hlow : r.height ≤ 1) : (r.prune mask).Contains x ↔
      r.frame.Matches x ∧ ∀ d ∈ r.holes, mask.WildAlong r.frame d.frame → ¬ d.frame.Matches x := by
  obtain ⟨f, hs⟩ := r
  obtain ⟨hf, hhs⟩ := wellFormed_mk.1 hr
  rw [prune_mk, contains_mk, containsAny_pruneList]
  have hcount : ∀ d ∈ hs,
      (mask.wildUnder d.frame = mask.wildUnder f ↔ mask.WildAlong f d.frame) := by
    intro d hd
    obtain ⟨hwell, hinside⟩ := wellFormedIn_iff.1 hhs d hd
    exact Pattern.wildUnder_eq_iff hconcrete (hf.1.trans hmask.symm)
      (hf.1.symm ▸ hwell.solid_frame) hinside
  have hplain : ∀ d ∈ hs, ((d.prune mask).Contains x ↔ d.frame.Matches x) := fun d hd ↦ by
    rw [eq_plain_of_height_le hlow hd, plain, prune_mk, pruneList]
    exact contains_plain
  refine and_congr_right fun _ ↦ ⟨fun hout d hd hwild hx ↦ ?_, ?_⟩
  · exact hout ⟨d, hd, (hcount d hd).2 hwild, (hplain d hd).2 hx⟩
  · rintro hout ⟨d, hd, hwild, hx⟩
    exact hout d hd ((hcount d hd).1 hwild) ((hplain d hd).1 hx)

end Region

namespace Space

open Region

variable {s u : Space} {mask value : Pattern} {y : Nat → Bool}

/-- **The overwritten space is the image of the pruned one.** -/
theorem exists_overwrite_image (hs : s.WellFormed) (hconcrete : mask.Concrete)
    (hmask : mask.bytes = s.bytes) (hvalue : value.bytes = s.bytes) :
    ∃ u, s.overwrite mask value = .ok u ∧ ∀ y, (u.Contains y ↔
      ∃ r ∈ s.regions, ∃ x, (r.prune mask).Contains x ∧ Pattern.Turns mask value x y) := by
  obtain ⟨u, hu, -⟩ := exists_overwrite hs.uniform hmask hvalue
  obtain ⟨hold, hnew⟩ := of_overwrite_eq_ok hu
  refine ⟨u, hu, fun y ↦ ⟨fun hy ↦ ?_, ?_⟩⟩
  · obtain ⟨c, hc, hyc⟩ := contains_iff.1 hy
    obtain ⟨r, hr, lost, ho⟩ := hold c hc
    exact ⟨r, hr, (contains_overwrite_iff_exists hconcrete hmask hvalue (hs r hr) ho).1 hyc⟩
  · rintro ⟨r, hr, hx⟩
    obtain ⟨c, hc, lost, ho⟩ := hnew r hr
    exact contains_iff.2
      ⟨c, hc, (contains_overwrite_iff_exists hconcrete hmask hvalue (hs r hr) ho).2 hx⟩

/-- **Where no hole has a hole, overwriting computes the image of each frame without the holes that
are wild wherever the frame is and the mask is `1`.** The other holes have no effect. -/
theorem exists_overwrite_iff (hs : s.WellFormed) (hlow : ∀ r ∈ s.regions, r.height ≤ 1)
    (hconcrete : mask.Concrete) (hmask : mask.bytes = s.bytes) (hvalue : value.bytes = s.bytes) :
    ∃ u, s.overwrite mask value = .ok u ∧ ∀ y, (u.Contains y ↔ ∃ r ∈ s.regions, ∃ x,
      (r.frame.Matches x ∧ ∀ d ∈ r.holes,
        (∀ i < mask.width, mask.trit i = .one → r.frame.trit i = .wild → d.frame.trit i = .wild) →
          ¬ d.frame.Matches x) ∧
      Pattern.Turns mask value x y) := by
  obtain ⟨u, hu, hiff⟩ := exists_overwrite_image hs hconcrete hmask hvalue
  refine ⟨u, hu, fun y ↦ (hiff y).trans ?_⟩
  constructor
  · rintro ⟨r, hr, x, hx, hxy⟩
    exact ⟨r, hr, x, (contains_prune_of_height_le hconcrete hmask (hs r hr) (hlow r hr)).1 hx, hxy⟩
  · rintro ⟨r, hr, x, hx, hxy⟩
    exact ⟨r, hr, x, (contains_prune_of_height_le hconcrete hmask (hs r hr) (hlow r hr)).2 hx, hxy⟩

/-- The space `x` less `01`, and less `1x0`, in its first three trits. -/
def onceHoled : Space :=
  ⟨1, [.mk (.allWild 1) [.plain (((Pattern.allWild 1).put 0 .zero).put 1 .one),
    .plain (((Pattern.allWild 1).put 0 .one).put 2 .zero)]]⟩

/-- The sample is well-formed. -/
theorem wellFormed_onceHoled : onceHoled.WellFormed := by
  simp only [WellFormed, onceHoled, List.forall_mem_singleton, wellFormed_mk, wellFormedIn_cons,
    wellFormedIn_nil, and_true, wellFormed_plain]
  exact ⟨⟨rfl, Pattern.hasConflict_allWild 1⟩,
    ⟨⟨rfl, by decide +kernel⟩, fun h _ ↦ Pattern.matches_allWild 1 h⟩,
    ⟨rfl, by decide +kernel⟩, fun h _ ↦ Pattern.matches_allWild 1 h⟩

/-- Where the second trit is written, only the second hole is kept. -/
theorem exists_overwrite_iff_onceHoled :
    let mask := (Pattern.fill 1 .zero).put 1 .one
    onceHoled.WellFormed ∧ (∀ r ∈ onceHoled.regions, r.height ≤ 1) ∧ mask.Concrete ∧
      mask.bytes = onceHoled.bytes ∧
      ∃ u, onceHoled.overwrite mask mask = .ok u ∧
        ∀ y, (u.Contains y ↔ ∃ r ∈ onceHoled.regions, ∃ x, (r.frame.Matches x ∧ ∀ d ∈ r.holes,
          (∀ i < mask.width, mask.trit i = .one → r.frame.trit i = .wild → d.frame.trit i = .wild) →
            ¬ d.frame.Matches x) ∧
        Pattern.Turns mask mask x y) := by
  intro mask
  have hconcrete : mask.Concrete := by
    unfold Pattern.Concrete
    decide +kernel
  have hlow : ∀ r ∈ onceHoled.regions, r.height ≤ 1 := by decide
  exact ⟨wellFormed_onceHoled, hlow, hconcrete, rfl,
    exists_overwrite_iff wellFormed_onceHoled hlow hconcrete rfl rfl⟩

end Space

end HeaderFlow
