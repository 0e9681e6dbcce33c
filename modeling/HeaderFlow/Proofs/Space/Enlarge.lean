import HeaderFlow.Proofs.Pattern.Overwrite
import HeaderFlow.Proofs.Space.Trim

/-!
# Widening

Headers have no end: a pattern says nothing about the bits past its last trit. So **widening with
wild trits changes no set of headers**, however deep its holes are nested, and neither does it
change how a space is built. A mask is widened with `0` instead, which overwrites nothing.
-/

namespace HeaderFlow

variable {bytes n : Nat} {x y : Nat → Bool}

namespace Pattern

variable {mask value : Pattern}

/-- The trits of a widened mask: those from before, and `0` up to the new length. -/
theorem trit_enlargeWith_zero {i : Nat} : (mask.enlargeWith bytes .zero).trit i =
    if mask.width ≤ i ∧ i < bytes * tritsPerByte then .zero else mask.trit i := by
  rw [trit_eq_ofAllowed, allows_enlargeWith, allows_enlargeWith]
  split
  · rfl
  · exact (trit_eq_ofAllowed mask i).symm

theorem width_enlargeWith {t : Trit} :
    (mask.enlargeWith bytes t).width = max mask.width (bytes * tritsPerByte) := by
  rw [width, width, bytes_enlargeWith]
  simp only [tritsPerByte]
  omega

/-- What is added to a mask is concrete. -/
theorem concrete_enlargeWith_zero : (mask.enlargeWith bytes .zero).Concrete ↔ mask.Concrete := by
  constructor
  · intro hc i hi
    have hi' : i < (mask.enlargeWith bytes .zero).width := by
      rw [width_enlargeWith]
      omega
    have := hc i hi'
    rwa [trit_enlargeWith_zero, if_neg (by omega)] at this
  · intro hc i hi
    rw [width_enlargeWith] at hi
    rw [trit_enlargeWith_zero]
    split
    · rfl
    · exact hc i (by omega)

/-- **A widened mask overwrites the same positions with the same bits.** -/
theorem turns_enlarge :
    (mask.enlargeWith bytes .zero).Turns (value.enlarge bytes) x y ↔ mask.Turns value x y := by
  have hpos : ∀ i, i < (mask.enlargeWith bytes .zero).width ∧
      (mask.enlargeWith bytes .zero).trit i = .one ↔ i < mask.width ∧ mask.trit i = .one := by
    intro i
    rw [width_enlargeWith, trit_enlargeWith_zero]
    split
    · simp only [reduceCtorEq, and_false, false_iff]
      omega
    · constructor
      · rintro ⟨hi, hone⟩
        exact ⟨by omega, hone⟩
      · rintro ⟨hi, hone⟩
        exact ⟨by omega, hone⟩
  simp only [Turns, hpos, allows_enlarge]

end Pattern

namespace Region

variable {r : Region} {rs : List Region}

/-- A region is widened in its frame and its holes. -/
theorem enlarge_mk {f : Pattern} {hs : List Region} :
    (mk f hs).enlarge bytes = mk (f.enlarge bytes) (enlargeList hs bytes) := by
  rw [enlarge]

/-- A list is widened member by member. -/
theorem enlargeList_eq_map : enlargeList rs bytes = rs.map fun r ↦ r.enlarge bytes := by
  induction rs with
  | nil => rw [enlargeList, List.map_nil]
  | cons r rs ih => rw [enlargeList, List.map_cons, ih]

/-- **Widening keeps the headers of a region.** -/
@[simp] theorem contains_enlarge : (r.enlarge bytes).Contains x ↔ r.Contains x := by
  induction r using Region.induction with
  | mk f hs ih =>
    rw [enlarge_mk, contains_mk, contains_mk, Pattern.matches_enlarge, enlargeList_eq_map,
      containsAny_iff, containsAny_iff]
    simp only [List.mem_map, exists_exists_and_eq_and]
    exact and_congr_right fun _ ↦ not_congr
      (exists_congr fun d ↦ and_congr_right fun hd ↦ ih d hd)

@[simp] theorem containsAny_enlargeList :
    ContainsAny (enlargeList rs bytes) x ↔ ContainsAny rs x := by
  simp [enlargeList_eq_map, containsAny_iff]

/-- Widening keeps how deep holes are nested. -/
theorem height_enlarge : (r.enlarge bytes).height = r.height := by
  induction r using Region.induction with
  | mk f hs ih =>
    rw [enlarge_mk, height, height]
    induction hs with
    | nil => rw [enlargeList]
    | cons d hs ihs =>
      rw [enlargeList, heightList, heightList, ih d List.mem_cons_self,
        ihs fun e he ↦ ih e (List.mem_cons_of_mem _ he)]

/-- Widening keeps how deep the holes of a list are nested. -/
theorem heightList_enlargeList : heightList (enlargeList rs bytes) = heightList rs := by
  induction rs with
  | nil => rw [enlargeList]
  | cons r rs ih => rw [enlargeList, heightList, heightList, height_enlarge, ih]

/-- Widened patterns have the new length and no conflict. -/
theorem every_enlarge (hr : r.Every (Pattern.Solid n)) :
    (r.enlarge bytes).Every (Pattern.Solid (max n bytes)) := by
  induction r using Region.induction with
  | mk f hs ih =>
    obtain ⟨hf, hhs⟩ := every_mk.1 hr
    rw [enlarge_mk, every_mk, enlargeList_eq_map, everyOf_iff]
    refine ⟨⟨by rw [Pattern.bytes_enlarge, hf.1], by rw [Pattern.hasConflict_enlarge, hf.2]⟩,
      fun e he ↦ ?_⟩
    obtain ⟨d, hd, rfl⟩ := List.mem_map.1 he
    exact ih d hd (everyOf_iff.1 hhs d hd)

/-- Holes still lie inside their frame. -/
theorem tight_enlarge (hr : r.Tight) : (r.enlarge bytes).Tight := by
  obtain ⟨f, hs⟩ := r
  intro h hh
  rw [enlarge_mk] at hh ⊢
  exact Pattern.matches_enlarge.2 (hr h (containsAny_enlargeList.1 hh))

end Region

namespace Space

open Region

variable {s : Space}

/-- **Widening keeps the headers of a space.** -/
@[simp] theorem contains_enlarge : (s.enlarge bytes).Contains x ↔ s.Contains x := by
  rw [enlarge]
  split
  · rfl
  · exact containsAny_enlargeList

theorem heightList_enlarge : heightList (s.enlarge bytes).regions = heightList s.regions := by
  rw [enlarge]
  split
  · rfl
  · exact heightList_enlargeList

/-- A widened space is still trim. -/
theorem trim_enlarge (hs : s.Trim n) : ∃ m, (s.enlarge bytes).Trim m := by
  rw [enlarge]
  split
  · exact ⟨n, hs⟩
  · refine ⟨max n bytes, everyOf_iff.2 fun e he ↦ ?_, fun e he ↦ ?_⟩
    · rw [enlargeList_eq_map] at he
      obtain ⟨r, hr, rfl⟩ := List.mem_map.1 he
      exact every_enlarge (everyOf_iff.1 hs.solid r hr)
    · rw [enlargeList_eq_map] at he
      obtain ⟨r, hr, rfl⟩ := List.mem_map.1 he
      exact tight_enlarge (hs.tight r hr)

end Space

end HeaderFlow
