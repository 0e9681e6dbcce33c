import Mathlib.Order.CompletePartialOrder
import Mathlib.Data.Set.Lattice
import HeaderFlow.Proofs.Checked
import HeaderFlow.Proofs.Pattern.Widening

/-!
# Inclusion of patterns

The cover of a pattern is the set of headers that match it. Whether one cover lies inside another is
a question about exponentially many headers, and **it is decided by one look at each word**: where
two trits differ, the second has to be wild (`within_iff_cover_subset`).

That this is enough rests on there being no conflict. A pattern without one has a matching header
for every value that one of its trits allows, so its cover tells what it allows, and with that the
pattern itself (`eq_of_cover_eq`). A pattern with a conflict covers nothing, wherever the conflict
stands, which is why each question asks for conflicts first (`cover_eq_empty_iff`).

Subtracting a single bit is a question about inclusion as well. **The excess counts the values that
only the first pattern allows**. If there is none, the first pattern lies inside the second. If
there is just one, a header of the first pattern fails to match the second exactly if it has this
value, so the difference of the two is again a pattern (`Subtracts`).
-/

namespace HeaderFlow.Pattern

variable {a b p q d : Pattern} {h : Nat → Bool}

/-! ### Covers -/

/-- The headers that match. -/
def cover (p : Pattern) : Set (Nat → Bool) := {h | p.Matches h}

@[simp] theorem mem_cover : h ∈ p.cover ↔ p.Matches h := .rfl

/-- Each trit allows some value. -/
def ConflictFree (p : Pattern) : Prop := ∀ i < p.width, p.trit i ≠ .conflict

/-- The test for conflicts decides whether there is one. -/
theorem conflictFree_iff : p.ConflictFree ↔ p.hasConflict = false := by
  rw [← Bool.not_eq_true, hasConflict_iff_trit, ConflictFree]
  simp only [ne_eq, not_exists, not_and]

/-- **Nothing is covered exactly if there is a conflict.** -/
theorem cover_eq_empty_iff : p.cover = ∅ ↔ p.hasConflict = true := by
  rw [← Bool.not_eq_false, ← exists_matches_iff, Set.eq_empty_iff_forall_notMem, not_exists]
  rfl

/-- A pattern covers something exactly if it has no conflict. -/
theorem nonempty_cover_iff : p.cover.Nonempty ↔ p.hasConflict = false := exists_matches_iff

/-- Without a conflict, the cover tells which values are allowed. -/
theorem allows_of_cover_subset (hp : p.hasConflict = false) (hsub : p.cover ⊆ q.cover) {i : Nat}
    {v : Bool} (hv : p.allows i v = true) : q.allows i v = true :=
  allows_of_forall_matches hp hsub hv

/-- **Patterns without a conflict are equal if their covers are.** -/
theorem eq_of_cover_eq (hbytes : a.bytes = b.bytes) (ha : a.hasConflict = false)
    (hb : b.hasConflict = false) (heq : a.cover = b.cover) : a = b := by
  refine eq_of_allows hbytes fun i v ↦ Bool.eq_iff_iff.2 ⟨fun hv ↦ ?_, fun hv ↦ ?_⟩
  · exact allows_of_cover_subset ha heq.subset hv
  · exact allows_of_cover_subset hb heq.superset hv

/-! ### Inclusion -/

/-- **Inclusion is decided trit by trit**: where the second pattern is not wild, the first one, if
it has no conflict, allows just the one value that the second one does. -/
theorem within_iff_cover_subset (hb : b.bytes = a.bytes) :
    within a b = true ↔ a.cover ⊆ b.cover := by
  refine ⟨fun hw _ hm ↦ matches_of_within hb.symm hw hm, fun hsub ↦ (within_iff_allows hb).2 ?_⟩
  refine or_iff_not_imp_left.2 fun hc i ↦ or_iff_not_imp_right.2 fun hwild ↦ ?_
  rw [Bool.not_eq_true] at hc
  have hsub' : ∀ v, a.allows i v = true → b.allows i v = true := fun v ↦
    allows_of_cover_subset hc hsub
  have hsome := hasConflict_eq_false_iff.1 hc i
  -- what is left is about four bits, the values that the two trits allow
  rw [Bool.forall_bool] at hsub' hwild ⊢
  revert hsub' hsome hwild
  cases a.allows i false <;> cases a.allows i true <;> cases b.allows i false <;>
    cases b.allows i true <;> decide

/-- **The test for inclusion is answered for patterns of one length, and the answer is right.** -/
theorem gives_isSubset (hb : b.bytes = a.bytes) :
    Checked.Gives (a.isSubset b) fun c ↦ c = true ↔ a.cover ⊆ b.cover :=
  ⟨_, isSubset_eq hb.symm, within_iff_cover_subset hb⟩

/-- **Strict inclusion is inclusion of different patterns**, once the empty ones are dealt with. -/
theorem gives_isStrictSubset (hb : b.bytes = a.bytes) :
    Checked.Gives (a.isStrictSubset b) fun c ↦ c = true ↔ a.cover ⊂ b.cover := by
  rw [isStrictSubset]
  -- nothing lies strictly inside the empty cover, and the empty cover lies strictly inside all
  -- others
  split
  · rename_i hbc
    rw [cover_eq_empty_iff.2 hbc]
    exact Checked.gives_ok (by simp [Set.ssubset_iff_subset_ne])
  rename_i hbc
  rw [Bool.not_eq_true] at hbc
  split
  · rename_i hac
    rw [cover_eq_empty_iff.2 hac]
    exact Checked.gives_ok (by simp [Set.empty_ssubset, nonempty_cover_iff.2 hbc])
  rename_i hac
  rw [Bool.not_eq_true] at hac
  split
  · rename_i heq
    rw [heq]
    exact Checked.gives_ok (by simp)
  · rename_i hne
    have hcover : a.cover ≠ b.cover := fun heq ↦ hne (eq_of_cover_eq hb.symm hac hbc heq)
    refine ⟨_, isSubset_eq hb.symm, (within_iff_cover_subset hb).trans ?_⟩
    rw [Set.ssubset_iff_subset_ne, and_iff_left hcover]

/-! ### Intersection -/

/-- **No intersection is answered exactly if no header matches both.** -/
theorem gives_cover_inter (hb : b.bytes = a.bytes) : Checked.Gives (a.intersect b) fun o ↦
    (o = none ↔ a.cover ∩ b.cover = ∅) ∧ ∀ m, o = some m → m.cover = a.cover ∩ b.cover := by
  have hmeet : (meet a b).cover = a.cover ∩ b.cover := Set.ext fun h ↦ matches_meet hb.symm
  refine ⟨meet? a b, intersect_eq hb.symm, ?_, fun m hm ↦ ?_⟩
  · rw [meet?_eq_none_iff, ← cover_eq_empty_iff, hmeet]
  · rw [(meet?_eq_some_iff.1 hm).1, hmeet]

/-! ### All questions about two covers -/

/-- The answers about two patterns are those about their covers. -/
structure CoversDecided (a b : Pattern) : Prop where
  /-- A pattern is empty exactly if it has a conflict. -/
  empty : ∀ p ∈ [a, b], p.hasConflict = true ↔ p.cover = ∅
  /-- There is no intersection exactly if the covers have nothing in common, and otherwise it is the
  pattern of what they have in common. -/
  intersect : Checked.Gives (a.intersect b) fun o ↦
    (o = none ↔ a.cover ∩ b.cover = ∅) ∧ ∀ m, o = some m → m.cover = a.cover ∩ b.cover
  /-- Inclusion. -/
  isSubset : Checked.Gives (a.isSubset b) fun c ↦ c = true ↔ a.cover ⊆ b.cover
  /-- Strict inclusion. -/
  isStrictSubset : Checked.Gives (a.isStrictSubset b) fun c ↦ c = true ↔ a.cover ⊂ b.cover
  /-- Without conflicts, different patterns have different covers. -/
  eq_of_cover : a.ConflictFree → b.ConflictFree → a.cover = b.cover → a = b

/-- **The tests on two patterns of one length decide how their covers are related**, conflicts and
wildcards included. -/
theorem covers_decided (hb : b.bytes = a.bytes) : CoversDecided a b where
  empty _ _ := cover_eq_empty_iff.symm
  intersect := gives_cover_inter hb
  isSubset := gives_isSubset hb
  isStrictSubset := gives_isStrictSubset hb
  eq_of_cover ha hb' := eq_of_cover_eq hb.symm (conflictFree_iff.1 ha) (conflictFree_iff.1 hb')

/-- Five bytes with a concrete trit in the second word, inside the same with a wildcard there; and
one with a conflict, inside both. -/
theorem covers_decided_five_bytes :
    let a := ofTrits (List.replicate 33 Trit.wild ++ Trit.one :: List.replicate 6 Trit.zero)
    let b := ofTrits (List.replicate 34 Trit.wild ++ List.replicate 6 Trit.zero)
    let z := ofTrits (List.replicate 39 Trit.one ++ [Trit.conflict])
    b.bytes = a.bytes ∧ a.bytes = z.bytes ∧ a.cover ⊂ b.cover ∧ z.cover ⊂ a.cover := by
  intro a b z
  have hb : b.bytes = a.bytes := by decide +kernel
  have hz : a.bytes = z.bytes := by decide +kernel
  obtain ⟨c, hc, hsub⟩ := (covers_decided hb).isStrictSubset
  obtain ⟨e, he, hsub'⟩ := (covers_decided hz).isStrictSubset
  have hctrue : a.isStrictSubset b = .ok true := by decide +kernel
  have hetrue : z.isStrictSubset a = .ok true := by decide +kernel
  exact ⟨hb, hz, hsub.1 (Except.ok.inj (hc.symm.trans hctrue)),
    hsub'.1 (Except.ok.inj (he.symm.trans hetrue))⟩

/-! ### Subtracting a single bit -/

/-- There is no excess in a pattern without conflict that lies inside the other. -/
theorem excess_eq_zero (hd : d.bytes = p.bytes) (hp : p.hasConflict = false)
    (hsub : p.cover ⊆ d.cover) : (narrow p d).excess = 0 := by
  rw [excess_narrow, tally_popcount, List.countP_eq_zero]
  intro n hn hbit
  -- a bit of the surplus is a value that only `p` allows, which some header of `p` has
  rw [List.mem_range, length_surplus hd.symm] at hn
  rw [bits_surplus hd.symm hn, bits_words_eq_allows, bits_words_eq_allows, Bool.and_eq_true,
    Bool.not_eq_true'] at hbit
  rw [allows_of_cover_subset hp hsub hbit.1] at hbit
  exact absurd hbit.2 (by decide)

/-- What is left of `p` after the subtraction of `d`, by the excess. -/
structure Subtracts (p d : Pattern) (n : Narrowed) : Prop where
  /-- The excess is the number of values, over all positions, that only `p` allows. -/
  excess : n.excess = tally (fun i ↦ ((p.trit i).minus (d.trit i)).size) (List.range p.width)
  /-- Without excess nothing changes, and `p` lies inside `d`. -/
  inside : n.excess = 0 → n.pattern = p ∧ p.cover ⊆ d.cover
  /-- An excess of one is removed together with all that both patterns cover. -/
  difference : n.excess = 1 → n.pattern.bytes = p.bytes ∧ n.pattern.cover = p.cover \ d.cover
  /-- A greater excess changes nothing. -/
  unchanged : 1 < n.excess → n.pattern = p
  /-- What covers something and lies inside `d` has no excess. -/
  excess_eq_zero : p.ConflictFree → p.cover ⊆ d.cover → n.excess = 0

/-- **Subtracting a single bit is exact for every two patterns of one length**, whether or not one
lies inside the other or either has a conflict. -/
theorem subtractBit_exact (hd : d.bytes = p.bytes) :
    Checked.Gives (p.subtractBit d) (Subtracts p d) := by
  refine ⟨narrow p d, subtractBit_eq hd.symm, excess_eq hd,
    fun hzero ↦ ⟨?_, ?_⟩, fun hone ↦ ⟨?_, ?_⟩, fun hlt ↦ ?_, fun hp ↦
      excess_eq_zero hd (conflictFree_iff.1 hp)⟩
  · exact narrow_of_excess_ne_one (by omega)
  · exact fun h hm ↦ matches_of_allows_imp (fun i v ↦ allows_of_excess_eq_zero hd.symm hzero) hm
  · exact bytes_narrow p d
  · exact Set.ext fun h ↦ matches_narrow hd.symm hone
  · exact narrow_of_excess_ne_one (by omega)

/-- Five bytes, with a single value in excess at a wildcard of the second word, and with a single
value in excess at a conflict. -/
theorem subtractBit_exact_five_bytes :
    let p := ofTrits (Trit.one :: List.replicate 39 Trit.wild)
    let d := ofTrits (Trit.one :: List.replicate 38 Trit.wild ++ [Trit.zero])
    let z := ofTrits (Trit.conflict :: List.replicate 39 Trit.wild)
    d.bytes = p.bytes ∧ z.bytes = p.bytes ∧
      (ofTrits (Trit.one :: List.replicate 38 Trit.wild ++ [Trit.one])).cover = p.cover \ d.cover ∧
      p.cover = p.cover \ z.cover := by
  intro p d z
  have hd : d.bytes = p.bytes := by decide +kernel
  have hz : z.bytes = p.bytes := by decide +kernel
  obtain ⟨n, hn, hsub⟩ := subtractBit_exact hd
  obtain ⟨m, hm, hsub'⟩ := subtractBit_exact hz
  have hnarrowed : p.subtractBit d =
      .ok ⟨ofTrits (Trit.one :: List.replicate 38 Trit.wild ++ [Trit.one]), 1⟩ := by
    decide +kernel
  have hkept : p.subtractBit z = .ok ⟨p, 1⟩ := by decide +kernel
  obtain rfl := Except.ok.inj (hn.symm.trans hnarrowed)
  obtain rfl := Except.ok.inj (hm.symm.trans hkept)
  exact ⟨hd, hz, (hsub.difference rfl).2, (hsub'.difference rfl).2⟩

end HeaderFlow.Pattern
