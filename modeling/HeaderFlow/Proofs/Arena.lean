import HeaderFlow.Arena
import Mathlib.Data.List.Nodup
import Mathlib.Data.List.Perm.Subperm

/-!
# Arenas as maps

An arena is understood through `Arena.find?`, and each operation has one law that says what it does
to this view: `find?_insert`, `find?_modify`, `find?_erase` and `find?_map`. Only the law of
`insert` asks for something, namely that the free list names vacant slots (`Arena.Valid`).

**A handle that has been erased is past**: its slot has grown older. Whatever is done later, it
stays past, and the handle of a new value is never past. So a list of handles that was read off
earlier may be worked through at leisure, since those in it that still resolve are the old values.

Three kinds of facts are kept up by every operation and have a lemma for each of them: the arena
stays valid (`valid_insert` and so on), what is past stays past (`Past.insert` and so on), and the
number of slots is known, which only an insertion changes. Nothing outside of these modules looks at
slots.
-/

namespace HeaderFlow.Arena

variable {α : Type} {a : Arena α} {g h : Handle} {v : α} {f : α → α}

/-- The free list names vacant slots, each once. -/
structure Valid (a : Arena α) : Prop where
  nodup : a.free.Nodup
  vacant : ∀ i ∈ a.free, ∃ s, a.slots[i]? = some s ∧ s.value = none

/-- The slot is older than the handle, so that the handle never resolves again. -/
def Past (a : Arena α) (h : Handle) : Prop := ∃ s, a.slots[h.index]? = some s ∧ h.age < s.age

/-! ### The view -/

/-- A handle names a value if its slot has it and is as old as the handle. -/
theorem find?_eq_some_iff :
    a.find? h = some v ↔ ∃ s, a.slots[h.index]? = some s ∧ s.age = h.age ∧ s.value = some v := by
  rw [find?]
  cases a.slots[h.index]? with
  | none => simp
  | some s => simp

/-- What is contained is what names a value. -/
theorem contains_iff : a.contains h = true ↔ ∃ v, a.find? h = some v := by
  rw [contains, Option.isSome_iff_exists]

/-- Only slots that exist hold values. -/
theorem index_lt (hv : a.find? h = some v) : h.index < a.slots.size := by
  obtain ⟨s, hs, -⟩ := find?_eq_some_iff.1 hv
  exact (Array.getElem?_eq_some_iff.1 hs).1

/-- **Two handles of one slot that both resolve are the same.** -/
theorem eq_of_index_eq {w : α} (hg : a.find? g = some v) (hh : a.find? h = some w)
    (hindex : g.index = h.index) : g = h := by
  obtain ⟨s, hs, hsg, -⟩ := find?_eq_some_iff.1 hg
  obtain ⟨t, ht, hth, -⟩ := find?_eq_some_iff.1 hh
  rw [hindex, ht] at hs
  obtain rfl := Option.some.inj hs
  cases g
  cases h
  simp_all

/-- Live handles that are all different are no more than the slots. -/
theorem length_le_of_live {l : List Handle} (hnodup : l.Nodup)
    (hlive : ∀ g ∈ l, ∃ v, a.find? g = some v) : l.length ≤ a.slots.size := by
  have hinj : (l.map Handle.index).Nodup := by
    refine List.Nodup.map_on (fun g hg g' hg' hindex ↦ ?_) hnodup
    obtain ⟨_, hv⟩ := hlive g hg
    obtain ⟨_, hv'⟩ := hlive g' hg'
    exact eq_of_index_eq hv hv' hindex
  have hsub : l.map Handle.index ⊆ List.range a.slots.size := by
    intro i hi
    obtain ⟨g, hg, rfl⟩ := List.mem_map.1 hi
    obtain ⟨_, hv⟩ := hlive g hg
    exact List.mem_range.2 (index_lt hv)
  simpa using (hinj.subperm hsub).length_le

/-- What is past names nothing. -/
theorem Past.find?_eq_none (hp : a.Past h) : a.find? h = none := by
  obtain ⟨s, hs, hlt⟩ := hp
  rw [find?, hs]
  exact if_neg (by omega)

/-! ### Changing a value -/

/-- Changing a value changes its slot only. -/
theorem getElem?_slots_modify {i : Nat} {k : Slot α → Slot α} :
    (a.slots.modify h.index k)[i]? = if i = h.index then a.slots[i]?.map k else a.slots[i]? := by
  rw [Array.getElem?_modify]
  simp only [eq_comm]

/-- **What handles name after a value was changed.** -/
theorem find?_modify :
    (a.modify h f).find? g = if g = h then (a.find? h).map f else a.find? g := by
  rw [modify]
  cases hc : a.contains h with
  | false =>
    have hnone : a.find? h = none := by simpa [contains] using hc
    split <;> simp_all
  | true =>
    obtain ⟨v, hv⟩ := contains_iff.1 hc
    obtain ⟨s, hs, hage, hval⟩ := find?_eq_some_iff.1 hv
    rw [if_pos rfl]
    by_cases hg : g.index = h.index
    · by_cases hgh : g = h
      · subst hgh
        simp [find?, getElem?_slots_modify, hs, hage, hval]
      · have hne : s.age ≠ g.age := fun he ↦ hgh (by cases g; cases h; simp_all)
        simp [find?, getElem?_slots_modify, hg, hs, hne, hgh]
    · have hgh : g ≠ h := fun he ↦ hg (he ▸ rfl)
      simp [find?, getElem?_slots_modify, hg, hgh]

theorem find?_modify_self (hv : a.find? h = some v) : (a.modify h f).find? h = some (f v) := by
  rw [find?_modify, if_pos rfl, hv]
  rfl

theorem find?_modify_of_ne (hgh : g ≠ h) : (a.modify h f).find? g = a.find? g := by
  rw [find?_modify, if_neg hgh]

@[simp] theorem size_slots_modify : (a.modify h f).slots.size = a.slots.size := by
  rw [modify]
  split <;> simp

/-- Changing a value frees no slot. -/
theorem valid_modify (ha : a.Valid) : (a.modify h f).Valid := by
  rw [modify]
  split
  · refine ⟨ha.nodup, fun i hi ↦ ?_⟩
    obtain ⟨s, hs, hnone⟩ := ha.vacant i hi
    simp only [getElem?_slots_modify, hs]
    split <;> simp [hnone]
  · exact ha

/-- Changing a value makes no slot older. -/
theorem past_modify : (a.modify h f).Past g ↔ a.Past g := by
  rw [modify]
  split
  · simp only [Past, getElem?_slots_modify]
    split
    · cases a.slots[g.index]? <;> simp
    · rfl
  · rfl

/-! ### Erasing a value -/

/-- **What handles name after a value was erased.** -/
theorem find?_erase : (a.erase h).find? g = if g = h then none else a.find? g := by
  rw [erase]
  cases hc : a.contains h with
  | false =>
    have hnone : a.find? h = none := by simpa [contains] using hc
    split <;> simp_all
  | true =>
    obtain ⟨v, hv⟩ := contains_iff.1 hc
    obtain ⟨s, hs, hage, hval⟩ := find?_eq_some_iff.1 hv
    rw [if_pos rfl]
    by_cases hg : g.index = h.index
    · have hvacant : (⟨a.slots.modify h.index fun s ↦ ⟨s.age + 1, none⟩, h.index :: a.free,
          a.size - 1⟩ : Arena α).find? g = none := by
        simp [find?, getElem?_slots_modify, hg, hs]
      rw [hvacant]
      split
      · rfl
      · rename_i hgh
        exact (Option.eq_none_iff_forall_ne_some.2 fun w hw ↦ hgh (eq_of_index_eq hw hv hg)).symm
    · have hgh : g ≠ h := fun he ↦ hg (he ▸ rfl)
      simp [find?, getElem?_slots_modify, hg, hgh]

/-- The arena `b` is `a` without the value of the handle. -/
def Lacks (h : Handle) (a b : Arena α) : Prop :=
  ∀ g v, b.find? g = some v ↔ g ≠ h ∧ a.find? g = some v

/-- An arena after erasing is one without the value. -/
theorem lacks_erase : Lacks h a (a.erase h) := by
  intro g v
  rw [find?_erase]
  split <;> simp_all

/-- The handle of an erased value is past. -/
theorem past_erase (hv : a.find? h = some v) : (a.erase h).Past h := by
  obtain ⟨s, hs, hage, -⟩ := find?_eq_some_iff.1 hv
  have hc : a.contains h = true := contains_iff.2 ⟨v, hv⟩
  rw [erase, if_pos hc]
  exact ⟨⟨s.age + 1, none⟩, by simp [getElem?_slots_modify, hs], by simp [hage]⟩

/-- What is past stays past when a value is erased. -/
theorem Past.erase (hp : a.Past g) : (a.erase h).Past g := by
  rw [Arena.erase]
  split
  · obtain ⟨s, hs, hlt⟩ := hp
    by_cases hg : g.index = h.index
    · exact ⟨⟨s.age + 1, none⟩, by simp [getElem?_slots_modify, hg ▸ hs, hg], by
        show g.age < s.age + 1
        omega⟩
    · exact ⟨s, by simp [getElem?_slots_modify, hg, hs], hlt⟩
  · exact hp

@[simp] theorem size_slots_erase : (a.erase h).slots.size = a.slots.size := by
  rw [erase]
  split <;> simp

/-- The slot that is freed is vacant. -/
theorem valid_erase (ha : a.Valid) : (a.erase h).Valid := by
  rw [erase]
  split
  · rename_i hc
    obtain ⟨v, hv⟩ := contains_iff.1 hc
    obtain ⟨s, hs, -, hval⟩ := find?_eq_some_iff.1 hv
    refine ⟨List.nodup_cons.2 ⟨fun hmem ↦ ?_, ha.nodup⟩, fun i hi ↦ ?_⟩
    · obtain ⟨t, ht, hnone⟩ := ha.vacant _ hmem
      rw [hs] at ht
      obtain rfl := Option.some.inj ht
      exact absurd (hval.symm.trans hnone) (by simp)
    · simp only [getElem?_slots_modify]
      split
      · rename_i hi
        exact ⟨⟨s.age + 1, none⟩, by rw [hi, hs]; rfl, rfl⟩
      · rename_i hne
        exact ha.vacant i ((List.mem_cons.1 hi).resolve_left hne)
  · exact ha

/-! ### Inserting a value -/

/-- Nothing is free in an empty arena. -/
theorem valid_empty : (empty : Arena α).Valid := ⟨List.nodup_nil, by simp [empty]⟩

theorem find?_empty_ne (h : Handle) (v : α) : (empty : Arena α).find? h ≠ some v := by
  simp [empty, find?]

/-- **The next handle names nothing yet.** -/
theorem find?_nextHandle (ha : a.Valid) : a.find? a.nextHandle = none := by
  rw [nextHandle]
  cases hfree : a.free with
  | nil => simp [find?]
  | cons i rest =>
    obtain ⟨s, hs, hnone⟩ := ha.vacant i (by simp [hfree])
    simp [find?, hs, hnone]

/-- **What handles name after a value was stored.** -/
theorem find?_insert (ha : a.Valid) :
    (a.insert v).find? g = if g = a.nextHandle then some v else a.find? g := by
  rw [insert, nextHandle]
  cases hfree : a.free with
  | nil =>
    simp only [find?, Array.getElem?_push]
    by_cases hg : g.index = a.slots.size
    · by_cases hage : g.age = 0
      · have hgh : g = ⟨a.slots.size, 0⟩ := by cases g; simp_all
        simp [hgh]
      · have hgh : g ≠ ⟨a.slots.size, 0⟩ := fun he ↦ hage (he ▸ rfl)
        simp [hg, hgh, Ne.symm hage]
    · have hgh : g ≠ ⟨a.slots.size, 0⟩ := fun he ↦ hg (he ▸ rfl)
      simp [hg, hgh]
  | cons i rest =>
    obtain ⟨s, hs, hnone⟩ := ha.vacant i (by simp [hfree])
    simp only [find?, Array.getElem?_modify, hs]
    by_cases hg : g.index = i
    · subst hg
      by_cases hage : s.age = g.age
      · have hgh : g = ⟨g.index, s.age⟩ := by rw [hage]
        simp [hs, hage]
      · have hgh : g ≠ ⟨g.index, s.age⟩ := fun he ↦ hage (by rw [he])
        simp [hs, hage, hgh]
    · have hgh : g ≠ ⟨i, s.age⟩ := fun he ↦ hg (he ▸ rfl)
      simp [Ne.symm hg, hgh]

theorem find?_insert_of_ne (ha : a.Valid) (hg : g ≠ a.nextHandle) :
    (a.insert v).find? g = a.find? g := by
  rw [find?_insert ha, if_neg hg]

theorem find?_insert_self (ha : a.Valid) : (a.insert v).find? a.nextHandle = some v := by
  rw [find?_insert ha, if_pos rfl]

/-- A value that was there stays where it is. -/
theorem find?_insert_of_some {w : α} (ha : a.Valid) (hw : a.find? g = some w) :
    (a.insert v).find? g = some w := by
  rw [find?_insert_of_ne ha, hw]
  rintro rfl
  rw [find?_nextHandle ha] at hw
  exact absurd hw (by simp)

/-- A value that is there is the new one, or it was there before. -/
theorem of_find?_insert {w : α} (ha : a.Valid) (hw : (a.insert v).find? g = some w) :
    g = a.nextHandle ∧ w = v ∨ g ≠ a.nextHandle ∧ a.find? g = some w := by
  rw [find?_insert ha] at hw
  split at hw
  · exact .inl ⟨‹_›, (Option.some.inj hw).symm⟩
  · exact .inr ⟨‹_›, hw⟩

/-- The slot that is used up is free no more. -/
theorem valid_insert (ha : a.Valid) : (a.insert v).Valid := by
  rw [insert]
  cases hfree : a.free with
  | nil => exact ⟨List.nodup_nil, by simp⟩
  | cons i rest =>
    have hnodup := List.nodup_cons.1 (hfree ▸ ha.nodup)
    refine ⟨hnodup.2, fun j hj ↦ ?_⟩
    have hne : i ≠ j := fun he ↦ hnodup.1 (he ▸ hj)
    obtain ⟨s, hs, hnone⟩ := ha.vacant j (by simp [hfree, hj])
    exact ⟨s, by simp [Array.getElem?_modify, hne, hs], hnone⟩

/-- What is past stays past when a value is stored. -/
theorem Past.insert (hp : a.Past g) : (a.insert v).Past g := by
  obtain ⟨s, hs, hlt⟩ := hp
  rw [Arena.insert]
  cases a.free with
  | nil =>
    have hne : g.index ≠ a.slots.size := by
      have := (Array.getElem?_eq_some_iff.1 hs).1
      omega
    exact ⟨s, by simp [Array.getElem?_push, hne, hs], hlt⟩
  | cons i rest =>
    simp only [Past, Array.getElem?_modify, hs]
    split <;> simp [hlt]

/-! ### Changing all values -/

/-- **What handles name after all values were changed.** -/
theorem find?_map {k : Handle → α → α} : (a.map k).find? h = (a.find? h).map (k h) := by
  simp only [find?, map, Array.getElem?_mapIdx]
  cases a.slots[h.index]? with
  | none => rfl
  | some s =>
    simp only [Option.map_some]
    split
    · rename_i hage
      rw [hage]
    · rfl

theorem past_map {k : Handle → α → α} : (a.map k).Past h ↔ a.Past h := by
  simp only [Past, map, Array.getElem?_mapIdx]
  cases a.slots[h.index]? <;> simp

theorem valid_map {k : Handle → α → α} (ha : a.Valid) : (a.map k).Valid := by
  refine ⟨ha.nodup, fun i hi ↦ ?_⟩
  obtain ⟨s, hs, hnone⟩ := ha.vacant i hi
  simp [map, hs, hnone]

end HeaderFlow.Arena
