import Mathlib.Algebra.BigOperators.Fin
import Mathlib.Algebra.Order.BigOperators.Group.Finset
import Mathlib.Data.Fintype.BigOperators
import HeaderFlow.Proofs.Pattern.Tritwise

/-!
# Volumes of patterns

The headers of a given width that match a pattern are finitely many, and their number is the
*volume* of the pattern (`box`). A pattern inside another one sets some of the positions that the
other leaves open, and **each position that it sets halves the volume** (`Part.card_box`); the
number of these positions is the excess that narrowing counts (`Part.excess_eq_card_fixed`).

So a few small patterns do not fill a large one. Patterns of excess two take a quarter each, so that
three of them always leave something. Four can fill the large pattern only if they are pairwise
disjoint, and then two of them **differ in one trit and could be merged**
(`exists_join_of_quarters`). Four patterns of which no two merge therefore leave something as well
(`exists_matches_of_few`). Five do not: `01x`, `x01`, `1x0`, `000` and `111` fill `xxx`, and no two
of them merge.
-/

namespace HeaderFlow

open Finset

/-- A tally over positions is a sum. -/
theorem tally_range (f : Nat → Nat) (n : Nat) : tally f (List.range n) = ∑ i ∈ range n, f i := by
  induction n with
  | zero => rfl
  | succ n ih =>
    rw [List.range_succ, tally_append, ih, Finset.sum_range_succ]
    rfl

/-- Of a set that four quarters fill, the quarters are disjoint and nothing is lacking. -/
theorem disjoint_of_quarters {α : Type} [DecidableEq α] {s a b c d : Finset α}
    (hs : s ⊆ a ∪ b ∪ (c ∪ d)) (ha : 4 * #a ≤ #s) (hb : 4 * #b ≤ #s) (hc : 4 * #c ≤ #s)
    (hd : 4 * #d ≤ #s) : Disjoint a b ∧ 4 * #a = #s := by
  have hle := card_le_card hs
  have hab := card_union_add_card_inter a b
  have hcd := card_union_le c d
  have hall := card_union_le (a ∪ b) (c ∪ d)
  refine ⟨disjoint_iff_inter_eq_empty.2 (card_eq_zero.1 ?_), ?_⟩ <;> omega

namespace Trit

variable {t u : Trit}

/-- A trit allows as many values as its size says. -/
theorem card_allows (t : Trit) : #{v | t.allows v = true} = t.size := by
  cases t <;> rfl

/-- What a trit gives up is all or nothing of one of two values. -/
theorem size_eq_of_inside (hu : u ≠ .conflict) (h : ∀ b, u.allows b = true → t.allows b = true) :
    t.size = 2 ^ (t.minus u).size * u.size ∧ (t.minus u).size = if t ≠ u then 1 else 0 := by
  have h₀ := h false
  have h₁ := h true
  revert hu h₀ h₁
  cases t <;> cases u <;> decide

/-- Trits that are inside one trit and have nothing in common are opposite, and differ from it. -/
theorem opposite_of_inside {v : Trit} (hu : u ≠ .conflict) (hv : v ≠ .conflict)
    (hut : ∀ b, u.allows b = true → t.allows b = true)
    (hvt : ∀ b, v.allows b = true → t.allows b = true)
    (hnone : ∀ b, (u.allows b && v.allows b) = false) : u.opposite v = true ∧ t ≠ u ∧ t ≠ v := by
  have h₀ := And.intro (hut false) (hvt false)
  have h₁ := And.intro (hut true) (hvt true)
  have hn₀ := hnone false
  have hn₁ := hnone true
  revert hu hv h₀ h₁ hn₀ hn₁
  cases t <;> cases u <;> cases v <;> decide

/-- Only one trit is opposite to another. -/
theorem eq_of_opposite {v : Trit} (hu : t.opposite u = true) (hv : t.opposite v = true) :
    u = v := by
  simp only [opposite, Bool.and_eq_true, beq_iff_eq] at hu hv
  rw [hu.2, hv.2]

end Trit

namespace Pattern

variable {f a b c d p q : Pattern} {w i : Nat}

/-! ### Boxes -/

/-- The headers of `w` bits that the pattern allows. -/
def box (w : Nat) (p : Pattern) : Finset (Fin w → Bool) :=
  Fintype.piFinset fun i ↦ {v | p.allows i v = true}

/-- A point of the box has an allowed value at each position. -/
theorem mem_box {x : Fin w → Bool} : x ∈ p.box w ↔ ∀ i : Fin w, p.allows i (x i) = true := by
  simp [box]

/-- **The volume is the product of the sizes of the trits.** -/
theorem card_box (w : Nat) (p : Pattern) : #(p.box w) = ∏ i ∈ range w, (p.trit i).size := by
  rw [box, Fintype.card_piFinset, prod_range]
  exact prod_congr rfl fun i _ ↦ (p.trit i).card_allows

/-- A point of the box is the start of a header that matches. -/
theorem matches_of_mem_box {x : Fin p.width → Bool} (hx : x ∈ p.box p.width) :
    p.Matches fun i ↦ if hi : i < p.width then x ⟨i, hi⟩ else false := fun i hi ↦ by
  dsimp only
  rw [dif_pos hi]
  exact mem_box.1 hx ⟨i, hi⟩

/-- A header that matches starts with a point of the box. -/
theorem mem_box_of_matches {h : Nat → Bool} (hm : p.Matches h) (w : Nat) :
    (fun i : Fin w ↦ h i) ∈ p.box w :=
  mem_box.2 fun i ↦ matches_iff.1 hm i

/-- A pattern without conflict has a volume. -/
theorem box_nonempty (hp : p.hasConflict = false) (w : Nat) : (p.box w).Nonempty :=
  (exists_matches_iff.2 hp).elim fun _ hm ↦ ⟨_, mem_box_of_matches hm w⟩

/-! ### Patterns inside a pattern -/

/-- A pattern without conflict, all of whose headers match the pattern `f`. -/
structure Part (f d : Pattern) : Prop where
  /-- Both have one length. -/
  bytes : d.bytes = f.bytes
  /-- The smaller pattern has no conflict. -/
  clean : d.hasConflict = false
  /-- The larger pattern allows more. -/
  allows : ∀ i v, d.allows i v = true → f.allows i v = true

/-- The positions at which `d` says more than `f`. -/
def fixed (f d : Pattern) : Finset Nat := {i ∈ range f.width | f.trit i ≠ d.trit i}

/-- A position is set where the trits differ. -/
theorem mem_fixed : i ∈ fixed f d ↔ i < f.width ∧ f.trit i ≠ d.trit i := by
  rw [fixed, mem_filter, mem_range]

/-- A part has no conflict. -/
theorem Part.trit_ne (hd : Part f d) (i : Nat) : d.trit i ≠ .conflict := fun h ↦ by
  have hnone := trit_eq_conflict.1 h
  rcases hasConflict_eq_false_iff.1 hd.clean i with hi | hi <;> rw [hnone] at hi <;> cases hi

/-- A part has the length of the pattern. -/
theorem Part.width (hd : Part f d) : d.width = f.width := by
  rw [Pattern.width, hd.bytes, ← Pattern.width]

/-- A trit of the pattern allows twice as much where the part sets it, and as much elsewhere. -/
theorem Part.size (hd : Part f d) (i : Nat) :
    (f.trit i).size = 2 ^ ((f.trit i).minus (d.trit i)).size * (d.trit i).size ∧
      ((f.trit i).minus (d.trit i)).size = if f.trit i ≠ d.trit i then 1 else 0 :=
  Trit.size_eq_of_inside (hd.trit_ne i) (hd.allows i)

/-- The positions that are set, as a sum. -/
theorem Part.card_fixed (hd : Part f d) :
    #(fixed f d) = ∑ i ∈ range f.width, ((f.trit i).minus (d.trit i)).size := by
  rw [fixed, card_filter]
  exact sum_congr rfl fun i _ ↦ (hd.size i).2.symm

/-- The excess counts the positions at which the pattern says more. -/
theorem Part.excess_eq_card_fixed (hd : Part f d) : (narrow f d).excess = #(fixed f d) := by
  rw [excess_eq hd.bytes, tally_range, hd.card_fixed]

/-- **Each position that is set halves the volume.** -/
theorem Part.card_box (hd : Part f d) : #(f.box f.width) = 2 ^ #(fixed f d) * #(d.box f.width) := by
  rw [Pattern.card_box, Pattern.card_box, hd.card_fixed, ← prod_pow_eq_pow_sum, ← prod_mul_distrib]
  exact prod_congr rfl fun i _ ↦ (hd.size i).1

/-- A part that sets two positions takes a quarter at most. -/
theorem Part.four_mul_card_le (hd : Part f d) (hloose : 2 ≤ #(fixed f d)) :
    4 * #(d.box f.width) ≤ #(f.box f.width) := by
  rw [hd.card_box]
  exact Nat.mul_le_mul_right _ (Nat.pow_le_pow_right Nat.two_pos hloose)

/-! ### Four quarters -/

/-- A pattern that takes a quarter of `f`, and so sets two positions. -/
structure Quarter (f d : Pattern) : Prop extends Part f d where
  two : #(fixed f d) = 2

/-- A part that takes a quarter sets two positions. -/
theorem Part.toQuarter (hd : Part f d) (hquarter : 4 * #(d.box f.width) = #(f.box f.width)) :
    Quarter f d := by
  have hpos : 0 < #(d.box f.width) := card_pos.2 (box_nonempty hd.clean _)
  have hpow : 2 ^ 2 = 2 ^ #(fixed f d) :=
    Nat.eq_of_mul_eq_mul_right hpos (hquarter.trans hd.card_box)
  exact ⟨hd, (Nat.pow_right_injective (le_refl 2) hpow).symm⟩

/-- At some position both patterns say more than `f`, and they say opposite things. -/
def Clash (f a b : Pattern) (i : Nat) : Prop :=
  i ∈ fixed f a ∧ i ∈ fixed f b ∧ (a.trit i).opposite (b.trit i) = true

/-- Disjoint patterns inside one clash. -/
theorem exists_clash (ha : Part f a) (hb : Part f b)
    (hdisjoint : Disjoint (a.box f.width) (b.box f.width)) : ∃ i, Clash f a b i := by
  have hbytes : a.bytes = b.bytes := ha.bytes.trans hb.bytes.symm
  -- a header that matches both would be in both boxes
  have hconflict : (meet a b).hasConflict = true := by
    by_contra hclean
    obtain ⟨h, hm⟩ := exists_matches_iff.2 (Bool.not_eq_true _ ▸ hclean)
    obtain ⟨hma, hmb⟩ := (matches_meet hbytes).1 hm
    exact disjoint_left.1 hdisjoint (mem_box_of_matches hma _) (mem_box_of_matches hmb _)
  obtain ⟨i, hi, hnone⟩ := hasConflict_iff_trit.1 hconflict
  rw [show (meet a b).width = f.width from ha.width] at hi
  obtain ⟨hopposite, hfa, hfb⟩ := Trit.opposite_of_inside (ha.trit_ne i) (hb.trit_ne i)
    (ha.allows i)
    (hb.allows i) fun v ↦ (allows_meet hbytes i v).symm.trans (trit_eq_conflict.1 hnone v)
  exact ⟨i, mem_fixed.2 ⟨hi, hfa⟩, mem_fixed.2 ⟨hi, hfb⟩, hopposite⟩

/-- **Quarters that set one position alike and clash at another merge**, since they say nothing
else. -/
theorem exists_join_of_alike {k : Nat} (ha : Quarter f a) (hb : Quarter f b) (hka : k ∈ fixed f a)
    (hkb : k ∈ fixed f b) (halike : a.trit k = b.trit k) (hclash : Clash f a b i) :
    ∃ m, join? a b = some m := by
  obtain ⟨hia, hib, hopposite⟩ := hclash
  have hne : k ≠ i := by
    rintro rfl
    rw [halike, Trit.not_opposite_self] at hopposite
    cases hopposite
  -- each of the two patterns says something at these positions and nowhere else
  have hpair : ∀ x, k ∈ fixed f x → i ∈ fixed f x → #(fixed f x) = 2 → {k, i} = fixed f x :=
    fun x hk hi hx ↦ eq_of_subset_of_card_le (insert_subset hk (singleton_subset_iff.2 hi))
      (by rw [hx, card_pair hne])
  have hrest : ∀ j < f.width, j ≠ i → a.trit j = b.trit j := by
    intro j hj hji
    rcases eq_or_ne j k with rfl | hjk
    · exact halike
    have hopen : ∀ x, {k, i} = fixed f x → f.trit j = x.trit j := by
      intro x hx
      by_contra hset
      have hmem := hx ▸ mem_fixed.2 ⟨hj, hset⟩
      rcases mem_insert.1 hmem with h | h
      · exact hjk h
      · exact hji (mem_singleton.1 h)
    rw [← hopen a (hpair a hka hia ha.two), ← hopen b (hpair b hkb hib hb.two)]
  refine (exists_join?_iff (hb.bytes.trans ha.bytes.symm)).2
    ⟨fun j hj ↦ ⟨ha.trit_ne j, hb.trit_ne j, ?_⟩, ?_⟩
  · rcases eq_or_ne j i with rfl | hji
    · exact .inr hopposite
    · exact .inl (hrest j (ha.width ▸ hj) hji)
  · rw [← tally_toNat, tally_range]
    refine (sum_le_sum (g := fun j ↦ if j = i then 1 else 0) fun j hj ↦ ?_).trans ?_
    · rcases eq_or_ne j i with rfl | hji
      · simp [Bool.toNat_le]
      · rw [hrest j (ha.width ▸ mem_range.1 hj) hji, Trit.not_opposite_self]
        exact Nat.zero_le _
    · rw [sum_ite_eq']
      split <;> decide

/-- Disjoint quarters that clash with a third pattern at one position merge. -/
theorem exists_join_of_clash (hb : Quarter f b) (hc : Quarter f c)
    (hbc : Disjoint (b.box f.width) (c.box f.width)) (hib : Clash f a b i) (hic : Clash f a c i) :
    ∃ m, join? b c = some m := by
  obtain ⟨j, hj⟩ := exists_clash hb.toPart hc.toPart hbc
  exact exists_join_of_alike hb hc hib.2.1 hic.2.1 (Trit.eq_of_opposite hib.2.2 hic.2.2) hj

/-- **Of four patterns that fill a pattern and take a quarter of it at most, two merge.** -/
theorem exists_join_of_quarters (ha : Part f a) (hb : Part f b) (hc : Part f c) (hd : Part f d)
    (hla : 2 ≤ #(fixed f a)) (hlb : 2 ≤ #(fixed f b)) (hlc : 2 ≤ #(fixed f c))
    (hld : 2 ≤ #(fixed f d)) (hfill : f.box f.width ⊆ a.box _ ∪ b.box _ ∪ (c.box _ ∪ d.box _)) :
    (∃ m, join? b c = some m) ∨ (∃ m, join? b d = some m) ∨ ∃ m, join? c d = some m := by
  have hqa := ha.four_mul_card_le hla
  have hqb := hb.four_mul_card_le hlb
  have hqc := hc.four_mul_card_le hlc
  have hqd := hd.four_mul_card_le hld
  -- each two of the four come first in some order of the union
  obtain ⟨hab, hfa⟩ := disjoint_of_quarters hfill hqa hqb hqc hqd
  obtain ⟨hac, -⟩ := disjoint_of_quarters (hfill.trans (by grind)) hqa hqc hqb hqd
  obtain ⟨had, -⟩ := disjoint_of_quarters (hfill.trans (by grind)) hqa hqd hqb hqc
  obtain ⟨hbc, hfb⟩ := disjoint_of_quarters (hfill.trans (by grind)) hqb hqc hqa hqd
  obtain ⟨hbd, -⟩ := disjoint_of_quarters (hfill.trans (by grind)) hqb hqd hqa hqc
  obtain ⟨hcd, hfc⟩ := disjoint_of_quarters (hfill.trans (by grind)) hqc hqd hqa hqb
  obtain ⟨-, hfd⟩ := disjoint_of_quarters (hfill.trans (by grind)) hqd hqc hqa hqb
  have hb' := hb.toQuarter hfb
  have hc' := hc.toQuarter hfc
  have hd' := hd.toQuarter hfd
  -- the first pattern sets two positions, and the other three each clash with it at one of them
  obtain ⟨k, l, -, hkl⟩ := card_eq_two.1 (ha.toQuarter hfa).two
  have hplace : ∀ x, (∃ i, Clash f a x i) → Clash f a x k ∨ Clash f a x l := by
    rintro x ⟨i, hi⟩
    have hmem := hkl ▸ hi.1
    rcases mem_insert.1 hmem with rfl | hmem
    · exact .inl hi
    · exact .inr (mem_singleton.1 hmem ▸ hi)
  rcases hplace b (exists_clash ha hb hab) with hbi | hbi <;>
    rcases hplace c (exists_clash ha hc hac) with hci | hci <;>
    rcases hplace d (exists_clash ha hd had) with hdi | hdi
  · exact .inl (exists_join_of_clash hb' hc' hbc hbi hci)
  · exact .inl (exists_join_of_clash hb' hc' hbc hbi hci)
  · exact .inr (.inl (exists_join_of_clash hb' hd' hbd hbi hdi))
  · exact .inr (.inr (exists_join_of_clash hc' hd' hcd hci hdi))
  · exact .inr (.inr (exists_join_of_clash hc' hd' hcd hci hdi))
  · exact .inr (.inl (exists_join_of_clash hb' hd' hbd hbi hdi))
  · exact .inl (exists_join_of_clash hb' hc' hbc hbi hci)
  · exact .inl (exists_join_of_clash hb' hc' hbc hbi hci)

/-- **Four patterns of which no two merge leave something of a pattern of which each leaves two bits
or more.** -/
theorem exists_matches_of_few {ds : List Pattern} (hf : f.hasConflict = false)
    (hds : ∀ d ∈ ds, Part f d) (hloose : ∀ d ∈ ds, 2 ≤ (narrow f d).excess)
    (hapart : ds.Pairwise fun a b ↦ join? a b = none) (hfew : ds.length ≤ 4) :
    ∃ h, f.Matches h ∧ ∀ d ∈ ds, ¬ d.Matches h := by
  by_contra hnone
  have hfixed : ∀ d ∈ ds, 2 ≤ #(fixed f d) := fun d hd ↦
    (hds d hd).excess_eq_card_fixed ▸ hloose d hd
  have hfill : f.box f.width ⊆ ds.toFinset.biUnion (box f.width) := by
    intro x hx
    by_contra hout
    refine hnone ⟨_, matches_of_mem_box hx, fun d hd hm ↦
      hout (mem_biUnion.2 ⟨d, List.mem_toFinset.2 hd, ?_⟩)⟩
    have hmem := mem_box_of_matches hm f.width
    simpa only [Fin.is_lt, dite_true] using hmem
  obtain ⟨x, hx⟩ := box_nonempty hf f.width
  have hpos : 0 < #(f.box f.width) := card_pos.2 ⟨x, hx⟩
  -- each pattern takes a quarter at most, so three are too few
  have hfour : ds.length = 4 := by
    have hsum := (card_le_card hfill).trans (card_biUnion_le_card_mul ds.toFinset (box f.width)
      (#(f.box f.width) / 4) fun d hd ↦ by
        have hquarter := (hds d (List.mem_toFinset.1 hd)).four_mul_card_le
          (hfixed d (List.mem_toFinset.1 hd))
        omega)
    have hlen := (Nat.mul_le_mul_right (#(f.box f.width) / 4) ds.toFinset_card_le)
    by_contra hne
    have hthree : ds.length * (#(f.box f.width) / 4) ≤ 3 * (#(f.box f.width) / 4) :=
      Nat.mul_le_mul_right _ (by omega)
    omega
  obtain ⟨a, b, c, d, rfl⟩ : ∃ a b c d, ds = [a, b, c, d] := by
    match ds, hfour with
    | [a, b, c, d], _ => exact ⟨a, b, c, d, rfl⟩
  simp only [List.forall_mem_cons] at hds hfixed
  obtain ⟨ha, hb, hc, hd, -⟩ := hds
  obtain ⟨hla, hlb, hlc, hld, -⟩ := hfixed
  have hunion : f.box f.width ⊆ a.box _ ∪ b.box _ ∪ (c.box _ ∪ d.box _) :=
    hfill.trans fun x hx ↦ by simpa [or_assoc] using hx
  simp only [List.pairwise_cons, List.forall_mem_cons] at hapart
  obtain ⟨-, ⟨hbc, hbd, -⟩, ⟨hcd, -⟩, -⟩ := hapart
  rcases exists_join_of_quarters ha hb hc hd hla hlb hlc hld hunion with ⟨m, hm⟩ | ⟨m, hm⟩ | ⟨m, hm⟩
  · cases hbc.symm.trans hm
  · cases hbd.symm.trans hm
  · cases hcd.symm.trans hm

end Pattern

end HeaderFlow
