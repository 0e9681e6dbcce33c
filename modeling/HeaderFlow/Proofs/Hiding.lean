import HeaderFlow.Proofs.Arena
import Mathlib.Data.Set.Insert

/-!
# Arenas without some of their values

A change that is broken off can leave a value in an arena that nothing points to. Nobody ever asks
for it, so it might as well not be there: `Arena.Hides` relates an arena to **the same arena without
the values that some handles name**. The slots of these are neither free nor occupied then, which
does no harm, since `Arena.Valid` asks only that free slots are vacant.

The two arenas give the same answers to handles that are live or past in the smaller one, and the
same operations on both keep them related.

For that the two must give out the same handles. A handle is a slot with its age, and the next one
is read off the free list and the ages of slots (`Arena.nextHandle_eq`), so it is enough that both
arenas agree on these two (`Arena.ages`). Hiding a value leaves them alone, as its slot is not
freed, and each operation does to them what does not depend on values.
-/

namespace HeaderFlow.Arena

variable {α : Type} {a b : Arena α} {g h : Handle} {v : α} {f : α → α} {G : Set Handle}

/-! ### The ages of the slots -/

/-- How often each slot was freed. -/
def ages (a : Arena α) : Array Nat := a.slots.map Slot.age

theorem size_ages : a.ages.size = a.slots.size := Array.size_map

/-- **The next handle is read off the free list and the ages.** -/
theorem nextHandle_eq : a.nextHandle = match a.free with
    | i :: _ => ⟨i, a.ages[i]?.getD 0⟩
    | [] => ⟨a.ages.size, 0⟩ := by
  cases hfree : a.free with
  | nil => simp only [nextHandle, hfree, size_ages]
  | cons i rest => simp only [nextHandle, hfree, ages, Array.getElem?_map]

/-- What is past is read off the ages. -/
theorem past_iff : a.Past h ↔ ∃ n, a.ages[h.index]? = some n ∧ h.age < n := by
  simp [Past, ages]

theorem ages_modify : (a.modify h f).ages = a.ages := by
  rw [modify]
  split
  · refine Array.ext_getElem? fun i ↦ ?_
    simp only [ages, Array.getElem?_map, getElem?_slots_modify]
    split <;> cases a.slots[i]? <;> rfl
  · rfl

/-- Erasing makes a slot older, if there was a value. -/
theorem ages_erase : (a.erase h).ages =
    if a.contains h then a.ages.modify h.index (· + 1) else a.ages := by
  rw [erase]
  split
  · refine Array.ext_getElem? fun i ↦ ?_
    simp only [ages, Array.getElem?_map, Array.getElem?_modify]
    split <;> cases a.slots[i]? <;> rfl
  · rfl

/-- Erasing frees a slot, if there was a value. -/
theorem free_erase : (a.erase h).free = if a.contains h then h.index :: a.free else a.free := by
  rw [erase]
  split <;> rfl

theorem free_modify : (a.modify h f).free = a.free := by
  rw [modify]
  split <;> rfl

/-- Storing makes a slot, if none is free. -/
theorem ages_insert : (a.insert v).ages = match a.free with
    | _ :: _ => a.ages
    | [] => a.ages.push 0 := by
  rw [insert]
  cases a.free with
  | nil => simp [ages]
  | cons i rest =>
    refine Array.ext_getElem? fun j ↦ ?_
    simp only [ages, Array.getElem?_map, Array.getElem?_modify]
    split <;> cases a.slots[j]? <;> rfl

/-- Storing uses up the first free slot. -/
theorem free_insert : (a.insert v).free = a.free.tail := by
  rw [insert]
  split <;> simp_all

theorem ages_map {k : Handle → α → α} : (a.map k).ages = a.ages := by
  refine Array.ext_getElem? fun i ↦ ?_
  simp only [ages, map, Array.getElem?_map, Array.getElem?_mapIdx]
  cases a.slots[i]? <;> rfl

/-! ### The count -/

/-- One value more is counted. -/
theorem size_insert : (a.insert v).size = a.size + 1 := by
  rw [insert]
  split <;> rfl

/-- One value less is counted, if there was one. -/
theorem size_erase : (a.erase h).size = if a.contains h then a.size - 1 else a.size := by
  rw [erase]
  split <;> rfl

theorem size_modify : (a.modify h f).size = a.size := by
  rw [modify]
  split <;> rfl

/-! ### Hiding -/

/-- The handle names a value, or did so once. -/
def Knows (a : Arena α) (h : Handle) : Prop := a.Past h ∨ ∃ v, a.find? h = some v

/-- The arena `b` is `a` without the values that the handles in `G` name. -/
structure Hides (G : Set Handle) (a b : Arena α) : Prop where
  valid : a.Valid
  ages : b.ages = a.ages
  free : b.free = a.free
  other : ∀ h, h ∉ G → b.find? h = a.find? h
  hidden : ∀ h ∈ G, b.find? h = none
  live : ∀ h ∈ G, ∃ v, a.find? h = some v

namespace Hides

/-- Nothing is hidden. -/
theorem refl (ha : a.Valid) : Hides ∅ a a :=
  ⟨ha, rfl, rfl, fun _ _ ↦ rfl, by simp, by simp⟩

theorem size (hH : Hides G a b) : b.slots.size = a.slots.size := by
  rw [← size_ages, ← size_ages, hH.ages]

/-- Both arenas give out the same handle. -/
theorem nextHandle (hH : Hides G a b) : b.nextHandle = a.nextHandle := by
  rw [nextHandle_eq, nextHandle_eq, hH.ages, hH.free]

/-- A handle that is live or past in the smaller arena is not hidden. -/
theorem not_mem (hH : Hides G a b) (hh : b.Knows h) : h ∉ G := by
  intro hG
  rcases hh with hp | ⟨v, hv⟩
  · obtain ⟨v, hv⟩ := hH.live h hG
    rw [past_iff, hH.ages, ← past_iff] at hp
    exact absurd (hp.find?_eq_none.symm.trans hv) (by simp)
  · exact absurd ((hH.hidden h hG).symm.trans hv) (by simp)

/-- Handles that are known in the smaller arena name the same in both. -/
theorem find_eq (hH : Hides G a b) (hh : b.Knows h) : a.find? h = b.find? h :=
  (hH.other h (hH.not_mem hh)).symm

/-- What is there in the smaller arena is there. -/
theorem find_some (hH : Hides G a b) (hv : b.find? h = some v) : a.find? h = some v :=
  (hH.find_eq (.inr ⟨v, hv⟩)).trans hv

/-- Handles that are not hidden name something in both arenas or in neither. -/
theorem contains_eq (hH : Hides G a b) (hh : h ∉ G) : b.contains h = a.contains h := by
  rw [contains, contains, hH.other h hh]

/-- The smaller arena is valid. -/
theorem valid_right (hH : Hides G a b) : b.Valid := by
  refine ⟨hH.free ▸ hH.valid.nodup, fun i hi ↦ ?_⟩
  obtain ⟨s, hs, hnone⟩ := hH.valid.vacant i (hH.free ▸ hi)
  have hlt : i < b.slots.size := hH.size ▸ (Array.getElem?_eq_some_iff.1 hs).1
  refine ⟨b.slots[i], Array.getElem?_eq_getElem hlt, ?_⟩
  -- a value in this slot would be there in the larger arena too
  by_contra hval
  obtain ⟨v, hv⟩ := Option.ne_none_iff_exists'.1 hval
  have hfound : b.find? ⟨i, b.slots[i].age⟩ = some v :=
    find?_eq_some_iff.2 ⟨_, Array.getElem?_eq_getElem hlt, rfl, hv⟩
  obtain ⟨t, ht, -, htv⟩ := find?_eq_some_iff.1 (hH.find_some hfound)
  obtain rfl := Option.some.inj (hs.symm.trans ht)
  exact absurd (hnone.symm.trans htv) (by simp)

/-- **Storing a value keeps the arenas related.** -/
theorem insert (hH : Hides G a b) (v : α) : Hides G (a.insert v) (b.insert v) := by
  have hnew : a.nextHandle ∉ G := fun hG ↦ by
    obtain ⟨w, hw⟩ := hH.live _ hG
    exact absurd ((find?_nextHandle hH.valid).symm.trans hw) (by simp)
  refine ⟨valid_insert hH.valid, ?_, ?_, fun h hh ↦ ?_, fun h hh ↦ ?_, fun h hh ↦ ?_⟩
  · rw [ages_insert, ages_insert, hH.free, hH.ages]
  · rw [free_insert, free_insert, hH.free]
  · rw [find?_insert hH.valid, find?_insert hH.valid_right, hH.nextHandle, hH.other h hh]
  · rw [find?_insert hH.valid_right, hH.nextHandle,
      if_neg (fun he : h = a.nextHandle ↦ hnew (he ▸ hh))]
    exact hH.hidden h hh
  · obtain ⟨w, hw⟩ := hH.live h hh
    exact ⟨w, find?_insert_of_some hH.valid hw⟩

/-- Changing a value that is not hidden keeps the arenas related. -/
theorem modify (hH : Hides G a b) (hh : h ∉ G) : Hides G (a.modify h f) (b.modify h f) := by
  have hne : ∀ g ∈ G, g ≠ h := fun g hg he ↦ hh (he ▸ hg)
  refine ⟨valid_modify hH.valid, ?_, ?_, fun g hg ↦ ?_, fun g hg ↦ ?_, fun g hg ↦ ?_⟩
  · rw [ages_modify, ages_modify, hH.ages]
  · rw [free_modify, free_modify, hH.free]
  · rw [find?_modify, find?_modify, hH.other g hg, hH.other h hh]
  · rw [find?_modify_of_ne (hne g hg)]
    exact hH.hidden g hg
  · rw [find?_modify_of_ne (hne g hg)]
    exact hH.live g hg

/-- **Erasing a value that is not hidden keeps the arenas related.** -/
theorem erase (hH : Hides G a b) (hh : h ∉ G) : Hides G (a.erase h) (b.erase h) := by
  have hne : ∀ g ∈ G, g ≠ h := fun g hg he ↦ hh (he ▸ hg)
  refine ⟨valid_erase hH.valid, ?_, ?_, fun g hg ↦ ?_, fun g hg ↦ ?_, fun g hg ↦ ?_⟩
  · rw [ages_erase, ages_erase, hH.ages, hH.contains_eq hh]
  · rw [free_erase, free_erase, hH.free, hH.contains_eq hh]
  · rw [find?_erase, find?_erase, hH.other g hg]
  · rw [find?_erase, if_neg (hne g hg)]
    exact hH.hidden g hg
  · rw [find?_erase, if_neg (hne g hg)]
    exact hH.live g hg

/-- Changing all values keeps the arenas related. -/
theorem map (hH : Hides G a b) (k : Handle → α → α) : Hides G (a.map k) (b.map k) := by
  refine ⟨valid_map hH.valid, ?_, hH.free, fun h hh ↦ ?_, fun h hh ↦ ?_, fun h hh ↦ ?_⟩
  · rw [ages_map, ages_map, hH.ages]
  · rw [find?_map, find?_map, hH.other h hh]
  · rw [find?_map, hH.hidden h hh]
    rfl
  · obtain ⟨v, hv⟩ := hH.live h hh
    exact ⟨k h v, by rw [find?_map, hv]; rfl⟩

end Hides

/-! ### Hiding one more value -/

/-- Takes a value out of its slot without freeing the slot. -/
def vacate (a : Arena α) (h : Handle) : Arena α :=
  { a with slots := a.slots.modify h.index fun s ↦ { s with value := none } }

/-- Taking a value out makes no slot older. -/
theorem ages_vacate : (a.vacate h).ages = a.ages := by
  refine Array.ext_getElem? fun i ↦ ?_
  simp only [ages, vacate, Array.getElem?_map, getElem?_slots_modify]
  split <;> cases a.slots[i]? <;> rfl

/-- What handles name after a value was taken out. -/
theorem find?_vacate (hv : a.find? h = some v) :
    (a.vacate h).find? g = if g = h then none else a.find? g := by
  obtain ⟨s, hs, -, -⟩ := find?_eq_some_iff.1 hv
  by_cases hg : g.index = h.index
  · have hvacant : (a.vacate h).find? g = none := by
      simp [vacate, find?, getElem?_slots_modify, hg, hs]
    rw [hvacant]
    split
    · rfl
    · rename_i hgh
      exact (Option.eq_none_iff_forall_ne_some.2 fun w hw ↦ hgh (eq_of_index_eq hw hv hg)).symm
  · have hgh : g ≠ h := fun he ↦ hg (he ▸ rfl)
    rw [if_neg hgh]
    simp [vacate, find?, getElem?_slots_modify, hg]

/-- An arena after taking a value out is one without it. -/
theorem lacks_vacate (hv : a.find? h = some v) : Lacks h a (a.vacate h) := by
  intro g w
  rw [find?_vacate hv]
  split <;> simp_all

/-- **One value more is hidden.** -/
theorem Hides.vacate (hH : Hides G a b) (hv : b.find? h = some v) :
    Hides (G ∪ {h}) a (b.vacate h) := by
  refine ⟨hH.valid, ?_, hH.free, fun g hg ↦ ?_, fun g hg ↦ ?_, fun g hg ↦ ?_⟩
  · rw [ages_vacate, hH.ages]
  · rw [Set.mem_union, not_or] at hg
    rw [find?_vacate hv, if_neg (fun he : g = h ↦ hg.2 he)]
    exact hH.other g hg.1
  · rw [find?_vacate hv]
    split
    · rfl
    · exact hH.hidden g (hg.resolve_right ‹_›)
  · rcases hg with hg | rfl
    · exact hH.live g hg
    · exact ⟨v, hH.find_some hv⟩

end HeaderFlow.Arena
