import Mathlib.Data.Finset.Card
import Mathlib.Order.Interval.Finset.Nat
import HeaderFlow.Network.Basic

/-!
# Identifiers without some of them

Identifiers of sources and probes are given out one after another. If some of them are not given
out, those after them move up.
-/

namespace HeaderFlow

variable {D : Finset NodeId} {i j : NodeId}

/-- How many of the identifiers come before one. -/
def before (D : Finset NodeId) (i : NodeId) : Nat := (D.filter (· < i)).card

/-- What an identifier is if those in `D` are not given out. -/
def renumber (D : Finset NodeId) (i : NodeId) : NodeId := .ofNat (i.toNat - before D i)

/-- No more identifiers come before one than there are numbers before it. -/
theorem before_le : before D i ≤ i.toNat := by
  have hcard : (D.filter (· < i)).card ≤ (Finset.range i.toNat).card := by
    refine Finset.card_le_card_of_injOn UInt64.toNat (fun d hd ↦ ?_) fun d _ d' _ h ↦
      UInt64.toNat_inj.1 h
    have hlt : d < i := (Finset.mem_filter.1 hd).2
    exact Finset.mem_coe.2 (Finset.mem_range.2 (UInt64.lt_iff_toNat_lt.1 hlt))
  simpa [before] using hcard

/-- There are no more identifiers between two than there are numbers. -/
theorem before_le_add (hid : i ∉ D) (hlt : i.toNat < j.toNat) :
    before D j + i.toNat + 1 ≤ before D i + j.toNat := by
  have hsub : D.filter (· < j) ⊆ D.filter (· < i) ∪ (D.filter fun d ↦ i < d ∧ d < j) := by
    intro d hd
    obtain ⟨hd, hdlt⟩ := Finset.mem_filter.1 hd
    obtain hlt | heq | hgt := Nat.lt_trichotomy d.toNat i.toNat
    · exact Finset.mem_union_left _ (Finset.mem_filter.2 ⟨hd, UInt64.lt_iff_toNat_lt.2 hlt⟩)
    · exact absurd (UInt64.toNat_inj.1 heq ▸ hd) hid
    · exact Finset.mem_union_right _ (Finset.mem_filter.2 ⟨hd, UInt64.lt_iff_toNat_lt.2 hgt, hdlt⟩)
  have hbetween : (D.filter fun d ↦ i < d ∧ d < j).card ≤ (Finset.Ioo i.toNat j.toNat).card := by
    refine Finset.card_le_card_of_injOn UInt64.toNat (fun d hd ↦ ?_) fun d _ d' _ h ↦
      UInt64.toNat_inj.1 h
    obtain ⟨-, hlow, hhigh⟩ := Finset.mem_filter.1 hd
    exact Finset.mem_coe.2 (Finset.mem_Ioo.2
      ⟨UInt64.lt_iff_toNat_lt.1 hlow, UInt64.lt_iff_toNat_lt.1 hhigh⟩)
  have hcard := (Finset.card_le_card hsub).trans (Finset.card_union_le _ _)
  rw [Nat.card_Ioo] at hbetween
  simp only [before]
  omega

/-- The new identifier, as a number. -/
theorem toNat_renumber : (renumber D i).toNat = i.toNat - before D i := by
  have hlt := i.toNat_lt
  rw [renumber, UInt64.toNat_ofNat']
  exact Nat.mod_eq_of_lt (by omega)

/-- Identifiers only move down. -/
theorem renumber_le : (renumber D i).toNat ≤ i.toNat := by
  rw [toNat_renumber]
  exact Nat.sub_le _ _

/-- **Different identifiers stay different.** -/
theorem renumber_injective (hid : i ∉ D) (hid' : j ∉ D) (h : renumber D i = renumber D j) :
    i = j := by
  have hnat := congrArg UInt64.toNat h
  rw [toNat_renumber, toNat_renumber] at hnat
  have hle := before_le (D := D) (i := i)
  have hle' := before_le (D := D) (i := j)
  refine UInt64.toNat_inj.1 ?_
  obtain hlt | heq | hgt := Nat.lt_trichotomy i.toNat j.toNat
  · have := before_le_add hid hlt
    omega
  · exact heq
  · have := before_le_add hid' hgt
    omega

/-- The next identifier, as a number. -/
theorem toNat_succ (hid : i.toNat + 1 < 2 ^ 64) : (i + 1).toNat = i.toNat + 1 := by
  rw [UInt64.toNat_add]
  exact Nat.mod_eq_of_lt hid

/-- One identifier more comes before the next one, if it is not given out. -/
theorem before_succ (hid : i.toNat + 1 < 2 ^ 64) :
    before D (i + 1) = before D i + if i ∈ D then 1 else 0 := by
  have hlt : ∀ d : NodeId, d < i + 1 ↔ d < i ∨ d = i := fun d ↦ by
    rw [UInt64.lt_iff_toNat_lt, UInt64.lt_iff_toNat_lt, toNat_succ hid, ← UInt64.toNat_inj]
    omega
  have hsplit : D.filter (· < i + 1) = D.filter (· < i) ∪ D.filter (· = i) := by
    ext d
    simp only [Finset.mem_filter, Finset.mem_union, hlt]
    tauto
  have hdisjoint : Disjoint (D.filter (· < i)) (D.filter (· = i)) := by
    refine Finset.disjoint_filter.2 fun d _ hd heq ↦ ?_
    subst heq
    exact absurd (UInt64.lt_iff_toNat_lt.1 hd) (Nat.lt_irrefl _)
  rw [before, hsplit, Finset.card_union_of_disjoint hdisjoint, before, Finset.filter_eq']
  split <;> simp

/-- After an identifier that is given out comes the next one. -/
theorem renumber_succ (hid : i ∉ D) (hlt : i.toNat + 1 < 2 ^ 64) :
    renumber D (i + 1) = renumber D i + 1 := by
  have hle := before_le (D := D) (i := i)
  have hnat : (renumber D i).toNat = i.toNat - before D i := toNat_renumber
  refine UInt64.toNat_inj.1 ?_
  rw [toNat_succ (by omega), hnat, toNat_renumber, toNat_succ hlt, before_succ hlt, if_neg hid]
  omega

/-- In place of an identifier that is not given out comes the next one. -/
theorem renumber_succ_of_mem (hid : i ∈ D) (hlt : i.toNat + 1 < 2 ^ 64) :
    renumber D (i + 1) = renumber D i := by
  refine UInt64.toNat_inj.1 ?_
  rw [toNat_renumber, toNat_renumber, toNat_succ hlt, before_succ hlt, if_pos hid]
  omega

theorem renumber_one (hzero : 0 ∉ D) : renumber D 1 = 1 := by
  have hnone : before D 1 = 0 := by
    rw [before, Finset.card_eq_zero, Finset.filter_eq_empty_iff]
    intro d hd hlt
    have hd' : d = 0 := UInt64.toNat_inj.1 (Nat.lt_one_iff.1 (UInt64.lt_iff_toNat_lt.1 hlt))
    exact hzero (hd' ▸ hd)
  rw [renumber, hnone]
  rfl

end HeaderFlow
