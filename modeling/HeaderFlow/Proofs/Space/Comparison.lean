import HeaderFlow.Probe.Condition
import HeaderFlow.Proofs.Space.SetAlgebra

/-!
# Comparisons decide the relations between sets

A space without regions is empty, but one with regions may be empty as well, and compacting does not
always notice. **Expanding all holes does**: what is left are plain regions, and a plain region
whose frame has no conflict has a header. Every comparison ends in this test, on a difference or an
intersection, whose patterns have no conflicts whatever those of the operands are.

How many passes the expansion needs is bounded by how deeply holes are nested, since every pass
takes two levels away. `unrollTimes_eq_of_le` says that more passes change nothing.
-/

namespace HeaderFlow.Space

open Region

variable {s t u : Space} {h : Nat → Bool}

/-- The computation answers whether the proposition holds. -/
def Decides (x : Checked Bool) (proposition : Prop) : Prop :=
  ∃ b, x = .ok b ∧ (b = true ↔ proposition)

/-- No pattern of the space, at any depth, has a conflict. -/
def Clean (s : Space) : Prop := EveryOf (fun p ↦ p.hasConflict = false) s.regions

/-! ### Emptiness -/

/-- **A space of plain regions without conflicts is empty only if it has no regions.** -/
theorem isEmpty_iff_of_plain (hplain : ∀ r ∈ s.regions, r.isPlain = true) (hclean : s.Clean) :
    s.isEmpty = true ↔ ∀ h, ¬ s.Contains h := by
  constructor
  · exact fun hs h ↦ not_contains_of_isEmpty hs
  · intro hnone
    rw [isEmpty, List.isEmpty_iff]
    by_contra hne
    obtain ⟨r, hr⟩ := List.exists_mem_of_ne_nil _ hne
    obtain ⟨h, hm⟩ := Pattern.exists_matches_iff.2 (every_frame (everyOf_iff.1 hclean r hr))
    exact hnone h (contains_iff.2 ⟨r, hr, (contains_of_isPlain (hplain r hr)).2 hm⟩)

/-- **Expanding the holes of a space without conflicts decides whether it is empty.** -/
theorem unroll_decides_empty (hs : s.Uniform) (hclean : s.Clean) :
    ∃ u, s.unroll = .ok u ∧ (∀ r ∈ u.regions, r.isPlain = true) ∧
      (u.isEmpty = true ↔ ∀ h, ¬ s.Contains h) := by
  obtain ⟨u, hu, -, hkeeps, hplain⟩ := unroll_keeps hs
  refine ⟨u, hu, hplain, (isEmpty_iff_of_plain hplain (hkeeps.clean hclean)).trans ?_⟩
  exact forall_congr' fun h ↦ not_congr (hkeeps.cover h)

/-- Once all regions are plain, more passes change nothing: **the expansion has come to its end**,
and is not cut off by the bound. -/
theorem unrollTimes_eq_of_le {bytes passes more : Nat} {rs out : List Region}
    (hout : unrollTimes bytes passes rs = .ok out) (hplain : ∀ r ∈ out, r.isPlain = true)
    (hle : passes ≤ more) : unrollTimes bytes more rs = .ok out := by
  induction passes generalizing rs more with
  | zero =>
    obtain rfl := Except.ok.inj hout
    cases more with
    | zero => rfl
    | succ more => rw [unrollTimes, if_pos (List.all_eq_true.2 hplain)]; rfl
  | succ passes ih =>
    obtain ⟨more, rfl⟩ := Nat.exists_eq_add_of_le' (Nat.one_le_of_lt hle)
    rw [unrollTimes] at hout ⊢
    split at hout
    · rename_i hall
      rw [if_pos hall]
      exact hout
    · rename_i hall
      rw [if_neg hall]
      obtain ⟨next, hnext, hrest⟩ := Checked.bind_eq_ok.1 hout
      rw [hnext]
      exact ih hrest (Nat.le_of_succ_le_succ hle)

/-! ### Inclusion and equality -/

/-- **Inclusion of spaces is decided.** -/
theorem isSubset_decides (hs : s.Uniform) (ht : t.Uniform) (hbytes : t.bytes = s.bytes) :
    Decides (s.isSubset t) (∀ h, s.Contains h → t.Contains h) := by
  rw [isSubset]
  split
  · rename_i hempty
    exact ⟨true, rfl, by simp [not_contains_of_isEmpty hempty]⟩
  · obtain ⟨d, hd, -, hdu, hcover, hclean⟩ := minus_spec hs ht hbytes
    obtain ⟨u, hu, -, hempty⟩ := unroll_decides_empty hdu hclean
    refine ⟨u.isEmpty, by simp [hd, hu], hempty.trans ?_⟩
    simp only [hcover, not_and, not_not]

/-- **Strict inclusion of spaces is decided.** -/
theorem isStrictSubset_decides (hs : s.Uniform) (ht : t.Uniform) (hbytes : t.bytes = s.bytes) :
    Decides (s.isStrictSubset t)
      ((∀ h, s.Contains h → t.Contains h) ∧ ∃ h, t.Contains h ∧ ¬ s.Contains h) := by
  rw [isStrictSubset]
  split
  · rename_i hempty
    exact ⟨false, rfl, by simp [not_contains_of_isEmpty hempty]⟩
  · obtain ⟨b, hb, hsub⟩ := isSubset_decides hs ht hbytes
    obtain ⟨c, hc, hsup⟩ := isSubset_decides ht hs hbytes.symm
    refine ⟨b && !c, by cases b <;> simp [hb, hc], ?_⟩
    rw [Bool.and_eq_true, hsub, Bool.not_eq_true', ← Bool.not_eq_true, hsup]
    simp only [not_forall, exists_prop]

/-- **Equality of covers is decided.** -/
theorem isEqual_decides (hs : s.Uniform) (ht : t.Uniform) (hbytes : t.bytes = s.bytes) :
    Decides (s.isEqual t) (∀ h, s.Contains h ↔ t.Contains h) := by
  rw [isEqual]
  split
  · rename_i hempty
    obtain ⟨hs', ht'⟩ := Bool.and_eq_true_iff.1 hempty
    exact ⟨true, rfl, by simp [not_contains_of_isEmpty hs', not_contains_of_isEmpty ht']⟩
  · obtain ⟨b, hb, hsub⟩ := isSubset_decides hs ht hbytes
    obtain ⟨c, hc, hsup⟩ := isSubset_decides ht hs hbytes.symm
    refine ⟨b && c, by cases b <;> simp [hb, hc], ?_⟩
    rw [Bool.and_eq_true, hsub, hsup]
    exact ⟨fun ⟨h₁, h₂⟩ h ↦ ⟨h₁ h, h₂ h⟩, fun hiff ↦ ⟨fun h ↦ (hiff h).1, fun h ↦ (hiff h).2⟩⟩

/-! ### A common header -/

/-- **A header condition holds exactly for flows that share a header with it.** -/
theorem meets_decides {c : Chain} (hs : s.Uniform)
    (hc : ∀ p ∈ c.processed, p.Uniform ∧ p.bytes = s.bytes) :
    Decides (Condition.meets s c) (∃ p ∈ c.processed, ∃ h, p.Contains h ∧ s.Contains h) := by
  rw [Condition.meets]
  cases hp : c.processed with
  | none => exact ⟨false, rfl, by simp⟩
  | some p =>
    obtain ⟨hpu, hlen⟩ := hc p hp
    obtain ⟨i, hi⟩ := exists_intersect hpu hs hlen.symm
    obtain ⟨hilen, hregions⟩ := of_intersect_eq_ok hi
    have hiu : i.Uniform := by
      rw [Uniform, hilen]
      exact hregions.bytes _ hpu
    obtain ⟨u, hu, -, hempty⟩ := unroll_decides_empty hiu hregions.clean
    have hcommon : (∃ q ∈ some p, ∃ h, q.Contains h ∧ s.Contains h) ↔ ∃ h, i.Contains h := by
      simp only [Option.mem_some_iff, exists_eq_left']
      exact exists_congr fun h ↦ (hregions.cover h).symm
    rw [hcommon]
    simp only [hi, Checked.ok_bind]
    split
    · rename_i hie
      exact ⟨false, rfl, by simp [not_contains_of_isEmpty hie]⟩
    · refine ⟨!u.isEmpty, by simp [hu], ?_⟩
      rw [Bool.not_eq_true', ← Bool.not_eq_true, hempty, not_forall_not]

/-! ### All of them -/

/-- **The comparisons decide the relations between the sets of headers.** For two spaces over
headers of one length, inclusion, strict inclusion and equality are answered as they hold. For a
space without conflicts the expansion of its holes comes to its end, whatever number of passes is
allowed beyond its height, leaves plain regions only, and leaves none if and only if the space was
empty. And a header condition is met if and only if the headers that arrived at the probe include
one of the condition. -/
theorem comparisons_decide {a b : Space} (ha : a.Uniform) (hb : b.Uniform)
    (hab : b.bytes = a.bytes) :
    Decides (a.isSubset b) (∀ h, a.Contains h → b.Contains h) ∧
    Decides (a.isStrictSubset b)
      ((∀ h, a.Contains h → b.Contains h) ∧ ∃ h, b.Contains h ∧ ¬ a.Contains h) ∧
    Decides (a.isEqual b) (∀ h, a.Contains h ↔ b.Contains h) ∧
    (a.Clean → ∃ u, a.unroll = .ok u ∧
      (∀ passes ≥ heightList a.regions,
        unrollTimes a.bytes passes a.regions = .ok u.regions) ∧
      (∀ r ∈ u.regions, r.isPlain = true) ∧ (u.isEmpty = true ↔ ∀ h, ¬ a.Contains h)) ∧
    ∀ c : Chain, (∀ p ∈ c.processed, p.Uniform ∧ p.bytes = a.bytes) →
      Decides ((Condition.header a).check c)
        (∃ p ∈ c.processed, ∃ h, p.Contains h ∧ a.Contains h) := by
  refine ⟨isSubset_decides ha hb hab, isStrictSubset_decides ha hb hab,
    isEqual_decides ha hb hab, fun hclean ↦ ?_, fun c hc ↦ meets_decides ha hc⟩
  obtain ⟨u, hu, hplain, hempty⟩ := unroll_decides_empty ha hclean
  refine ⟨u, hu, fun passes hle ↦ ?_, hplain, hempty⟩
  simp only [unroll, Checked.bind_eq_ok, Checked.pure_eq_ok, Except.ok.injEq] at hu
  obtain ⟨rs, hrs, rfl⟩ := hu
  exact unrollTimes_eq_of_le hrs hplain hle

/-- Two descriptions of the empty set: a hole that reaches out of its frame and has a hole with a
conflict, and a frame with a conflict. -/
theorem comparisons_decide_nested :
    let a : Space := ⟨1, [.mk (.fill 1 .one) [.mk (.allWild 1) [.plain (.fill 1 .conflict)]]]⟩
    let b : Space := ⟨1, [.mk (.fill 1 .conflict) [.plain (.allWild 1)]]⟩
    a.Uniform ∧ b.Uniform ∧ Decides (a.isEqual b) (∀ h, a.Contains h ↔ b.Contains h) := by
  intro a b
  have ha : a.Uniform := by simp [a, Uniform, plain, Pattern.fill]
  have hb : b.Uniform := by simp [b, Uniform, plain, Pattern.fill]
  exact ⟨ha, hb, (comparisons_decide ha hb rfl).2.2.1⟩

end HeaderFlow.Space
