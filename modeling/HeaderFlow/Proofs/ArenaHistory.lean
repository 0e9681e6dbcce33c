import HeaderFlow.Proofs.Pairs
import Mathlib.Data.List.Induction
import Mathlib.Data.List.Nodup
import Mathlib.Data.List.Perm.Basic

/-!
# What an arena has been used for

The state of an arena is determined by the uses that were made of it, and can be read off them
without knowing about slots: **a handle names what was stored under it, with all changes since,
until it is removed**. That stays true because no handle is given out twice (`Arena.nodup_issued`).

Slots are a stack. `Arena.FreedAt` says when a vacant slot was freed, and the free list names the
vacant slots in the order of these times, the latest first. An insertion takes the head of it.

The count of the values is kept by each use on its own, without a look at the slots. It is right
because every slot is either free or counted (`Arena.Counted`), and the free ones are the vacant
ones.

Ages are unbounded here. In a packed handle both numbers are words of 32 bits, which changes nothing
as long as they fit: then handles with the same words are the same (`Arena.eq_of_packed_eq`).

## From one use to all

Each property is shown of one use first, for any arena that has it, and then of all uses by
induction on their list. What a handle names is such a property as well: one use changes it as
`Use.write` says (`find?_use`), so that several do so one after the other (`find?_uses`), up to the
one that removes the value. `records_uses` puts all of it together.
-/

namespace HeaderFlow

/-- The two words that a handle is packed into. -/
def Handle.packed (h : Handle) : UInt32 × UInt32 := (h.index.toUInt32, h.generation)

/-- The packed form that is kept for no value at all. -/
def Handle.dangling : UInt32 × UInt32 := (0xffffffff, 0xffffffff)

namespace Arena

/-- A use of an arena that can change it. -/
inductive Use (α : Type) where
  | insert (v : α)
  | remove (h : Handle)
  /-- Changes the value that a handle names. -/
  | modify (h : Handle) (f : α → α)
  /-- Replaces the value that a handle names; a stale handle is a fault. -/
  | set (h : Handle) (v : α)
  /-- Changes every value. -/
  | map (f : Handle → α → α)

variable {α : Type} {a : Arena α} {g h : Handle} {i j : Nat} {u : Use α}
  {us us₁ us₂ : List (Use α)} {v w : α}

/-- The arena after a use. A fault leaves it as it is. -/
def use (a : Arena α) : Use α → Arena α
  | .insert v => a.insert v
  | .remove h => (a.remove h).2
  | .modify h f => a.modify h f
  | .set h v =>
    match a.set h v with
    | .ok b => b
    | .error _ => a
  | .map f => a.map f

/-- The arena after some uses, one after another. -/
def uses (a : Arena α) (us : List (Use α)) : Arena α := us.foldl use a

/-- What a use makes of a value that the handle names. -/
def Use.write (h : Handle) (v : α) : Use α → α
  | .modify g f => if h = g then f v else v
  | .set g w => if h = g then w else v
  | .map f => f h v
  | _ => v

/-- The handles that insertions answer, one after another. -/
def issued (a : Arena α) : List (Use α) → List Handle
  | [] => []
  | .insert v :: us => a.nextHandle :: issued (a.insert v) us
  | u :: us => issued (a.use u) us

/-- The slot exists and holds nothing. -/
def Vacant (a : Arena α) (i : Nat) : Prop := ∃ s, a.slots[i]? = some s ∧ s.value = none

/-- Use number `n` freed the slot, which has been vacant since. -/
def FreedAt (us : List (Use α)) (i n : Nat) : Prop :=
  ∃ h, us[n]? = some (.remove h) ∧ h.index = i ∧ (empty.uses (us.take n)).contains h = true ∧
    ∀ m, n < m → m ≤ us.length → (empty.uses (us.take m)).Vacant i

/-! ### Removing -/

/-- Removing answers what was there. -/
theorem remove_eq (a : Arena α) (h : Handle) : a.remove h = (a.find? h, a.erase h) := by
  rw [remove, erase, contains, find?]
  cases hs : a.slots[h.index]? with
  | none => simp
  | some s =>
    obtain ⟨age, value⟩ := s
    cases value with
    | none => simp
    | some v =>
      by_cases hage : age = h.age
      · have hslots : a.slots.modify h.index (fun s ↦ ⟨s.age + 1, none⟩) =
            a.slots.setIfInBounds h.index ⟨age + 1, none⟩ := by
          refine Array.ext_getElem? fun j ↦ ?_
          rw [Array.getElem?_modify, Array.getElem?_setIfInBounds]
          by_cases hj : h.index = j
          · subst hj
            simp [hs]
            exact (Array.getElem?_eq_some_iff.1 hs).1
          · simp [hj]
        simp [hage, hslots]
      · simp [hage]

/-- Replacing is refused under a handle that names nothing. -/
theorem set_eq (a : Arena α) (h : Handle) (v : α) :
    a.set h v = if (a.find? h).isSome then .ok (a.modify h fun _ ↦ v)
      else .error (.staleHandle h.index h.generation) := by
  rw [set, get]
  cases a.find? h <;> rfl

/-- Replacing is changing to a value that does not depend on the old one. -/
theorem use_set (a : Arena α) (h : Handle) (v : α) : a.use (.set h v) = a.modify h fun _ ↦ v := by
  rw [use, set_eq]
  cases hs : (a.find? h).isSome with
  | true => rfl
  | false =>
    have hc : a.contains h = false := hs
    simp [modify, hc]

/-- As a use, removing is erasing. -/
theorem use_remove (a : Arena α) (h : Handle) : a.use (.remove h) = a.erase h := by
  rw [use, remove_eq]

/-! ### One use -/

/-- An arena stays valid. -/
theorem valid_use (ha : a.Valid) : (a.use u).Valid := by
  cases u with
  | insert v => exact valid_insert ha
  | remove h => rw [use_remove]; exact valid_erase ha
  | modify h f => exact valid_modify ha
  | set h v => rw [use_set]; exact valid_modify ha
  | map f => exact valid_map ha

/-- **What a handle names after a use** is what it named before, as the use changed it, or what the
use stored. -/
theorem find?_use (ha : a.Valid) :
    (a.use u).find? h = some w ↔
      (∃ v, a.find? h = some v ∧ u ≠ .remove h ∧ u.write h v = w) ∨
      u = .insert w ∧ a.nextHandle = h := by
  have hmodify : ∀ g (f : α → α), (a.modify g f).find? h = some w ↔
      ∃ v, a.find? h = some v ∧ (if h = g then f v else v) = w := by
    intro g f
    rw [find?_modify]
    split
    · subst g
      rw [Option.map_eq_some_iff]
    · simp
  cases u with
  | insert v =>
    rw [use, find?_insert ha]
    split
    · subst h
      simp [find?_nextHandle ha]
    · rename_i hne
      simp [Use.write, Ne.symm hne]
  | remove g =>
    rw [use_remove, find?_erase]
    split
    · subst g
      simp
    · rename_i hne
      simp [Use.write, Ne.symm hne]
  | modify g f =>
    rw [use, hmodify]
    simp [Use.write]
  | set g v =>
    rw [use_set, hmodify]
    simp [Use.write]
  | map f =>
    rw [use, find?_map, Option.map_eq_some_iff]
    simp [Use.write]

/-- A handle that is known stays known. -/
theorem Knows.use (ha : a.Valid) (hh : a.Knows h) : (a.use u).Knows h := by
  cases u with
  | insert v => exact hh.insert ha
  | remove g => rw [use_remove]; exact hh.erase
  | modify g f => exact hh.modify
  | set g v => rw [use_set]; exact hh.modify
  | map f => exact hh.map

/-! ### All uses -/

@[simp] theorem uses_nil (a : Arena α) : a.uses [] = a := rfl

@[simp] theorem uses_cons (a : Arena α) (u : Use α) (us : List (Use α)) :
    a.uses (u :: us) = (a.use u).uses us := rfl

/-- Uses in two parts. -/
theorem uses_append (a : Arena α) (us₁ us₂ : List (Use α)) :
    a.uses (us₁ ++ us₂) = (a.uses us₁).uses us₂ :=
  List.foldl_append

/-- An arena stays valid, whatever it is used for. -/
theorem valid_uses (ha : a.Valid) : (a.uses us).Valid := by
  induction us generalizing a with
  | nil => exact ha
  | cons u us ih => exact ih (valid_use ha)

/-- The value was stored under the handle by some of these uses, and is now what they made of it. -/
def Stored (a : Arena α) (us : List (Use α)) (h : Handle) (w : α) : Prop :=
  ∃ us₁ v us₂, us = us₁ ++ .insert v :: us₂ ∧ (a.uses us₁).nextHandle = h ∧ .remove h ∉ us₂ ∧
    us₂.foldl (Use.write h) v = w

/-- What was stored by the first of some uses, or by the others. -/
theorem stored_cons : a.Stored (u :: us) h w ↔
    (∃ v, u = .insert v ∧ a.nextHandle = h ∧ .remove h ∉ us ∧ us.foldl (Use.write h) v = w) ∨
      (a.use u).Stored us h w := by
  constructor
  · rintro ⟨us₁, v, us₂, hus, hh, hkept, hw⟩
    rcases List.cons_eq_append_iff.1 hus with ⟨rfl, hcons⟩ | ⟨us₁', rfl, rfl⟩
    · obtain ⟨rfl, rfl⟩ := List.cons.inj hcons
      exact .inl ⟨v, rfl, hh, hkept, hw⟩
    · exact .inr ⟨us₁', v, us₂, rfl, hh, hkept, hw⟩
  · rintro (⟨v, rfl, hh, hkept, hw⟩ | ⟨us₁, v, us₂, rfl, hh, hkept, hw⟩)
    · exact ⟨[], v, us, rfl, hh, hkept, hw⟩
    · exact ⟨u :: us₁, v, us₂, rfl, hh, hkept, hw⟩

/-- **A handle names what it named before, with all changes since, unless it was removed, or what
was stored under it since.** -/
theorem find?_uses (ha : a.Valid) : (a.uses us).find? h = some w ↔
    (∃ v, a.find? h = some v ∧ .remove h ∉ us ∧ us.foldl (Use.write h) v = w) ∨
    a.Stored us h w := by
  induction us generalizing a with
  | nil => simp [Stored]
  | cons u us ih =>
    rw [uses_cons, ih (valid_use ha), stored_cons, ← or_assoc]
    refine or_congr_left ?_
    simp only [find?_use ha, List.mem_cons, not_or, List.foldl_cons]
    constructor
    · rintro ⟨w', ⟨v, hv, hu, rfl⟩ | ⟨rfl, hh⟩, hkept, hw⟩
      · exact .inl ⟨v, hv, ⟨fun he ↦ hu he.symm, hkept⟩, hw⟩
      · exact .inr ⟨w', rfl, hh, hkept, hw⟩
    · rintro (⟨v, hv, ⟨hu, hkept⟩, hw⟩ | ⟨v, rfl, hh, hkept, hw⟩)
      · exact ⟨_, .inl ⟨v, hv, fun he ↦ hu he.symm, rfl⟩, hkept, hw⟩
      · exact ⟨v, .inr ⟨rfl, hh⟩, hkept, hw⟩

/-- **No handle is given out twice**, nor one that was known before. -/
theorem nodup_issued (ha : a.Valid) : (a.issued us).Nodup ∧ ∀ h ∈ a.issued us, ¬ a.Knows h := by
  induction us generalizing a with
  | nil => exact ⟨List.nodup_nil, by rintro h ⟨⟩⟩
  | cons u us ih =>
    obtain ⟨hnodup, hnew⟩ := ih (a := a.use u) (valid_use ha)
    have hskip : ∀ h ∈ (a.use u).issued us, ¬ a.Knows h := fun h hh hk ↦ hnew h hh (hk.use ha)
    cases u with
    | insert v =>
      refine ⟨List.nodup_cons.2 ⟨fun hmem ↦ hnew _ hmem ?_, hnodup⟩, fun h hh ↦ ?_⟩
      · exact .inr ⟨v, find?_insert_self ha⟩
      · rcases List.mem_cons.1 hh with rfl | hh
        · exact not_knows_nextHandle ha
        · exact hskip h hh
    | remove | modify | set | map => exact ⟨hnodup, hskip⟩

/-- A handle that is known stays known, whatever the arena is used for. -/
theorem Knows.uses (ha : a.Valid) (hh : a.Knows h) : (a.uses us).Knows h := by
  induction us generalizing a with
  | nil => exact hh
  | cons u us ih => exact ih (valid_use ha) (hh.use ha)

/-- A handle that was given out is known from then on. -/
theorem knows_of_mem_issued (ha : a.Valid) (hh : h ∈ a.issued us) : (a.uses us).Knows h := by
  induction us generalizing a with
  | nil => cases hh
  | cons u us ih =>
    cases u with
    | insert v =>
      rcases List.mem_cons.1 hh with rfl | hh
      · have hnew : (a.insert v).Knows a.nextHandle := .inr ⟨v, find?_insert_self ha⟩
        exact Knows.uses (a := a.insert v) (valid_insert ha) hnew
      · exact ih (valid_insert ha) hh
    | remove | modify | set | map => exact ih (valid_use ha) hh

/-! ### Vacant slots -/

/-- The slot of the new value is vacant no more. -/
theorem vacant_insert (ha : a.Valid) :
    (a.insert v).Vacant j ↔ a.Vacant j ∧ j ≠ a.nextHandle.index := by
  rw [insert, nextHandle]
  cases hfree : a.free with
  | nil =>
    simp only [Vacant, Array.getElem?_push]
    by_cases hj : j = a.slots.size
    · simp [hj]
    · simp [hj]
  | cons i rest =>
    obtain ⟨s, hs, -⟩ := ha.vacant i (by simp [hfree])
    simp only [Vacant, Array.getElem?_modify]
    by_cases hj : i = j
    · subst hj
      simp [hs]
    · simp [hj, Ne.symm hj]

/-- The slot of an erased value is vacant. -/
theorem vacant_erase (hh : a.contains h = true) :
    (a.erase h).Vacant j ↔ j = h.index ∨ a.Vacant j := by
  obtain ⟨v, hv⟩ := contains_iff.1 hh
  obtain ⟨s, hs, -, -⟩ := find?_eq_some_iff.1 hv
  rw [erase, if_pos hh]
  simp only [Vacant, getElem?_slots_modify]
  by_cases hj : j = h.index
  · simp [hj, hs]
  · simp [hj]

/-- Changing a value leaves no slot vacant. -/
theorem vacant_modify {f : α → α} : (a.modify h f).Vacant j ↔ a.Vacant j := by
  rw [modify]
  split
  · simp only [Vacant, getElem?_slots_modify]
    split
    · cases a.slots[j]? <;> simp
    · rfl
  · rfl

/-- Changing all values leaves no slot vacant. -/
theorem vacant_map {f : Handle → α → α} : (a.map f).Vacant j ↔ a.Vacant j := by
  simp only [Vacant, map, Array.getElem?_mapIdx]
  cases a.slots[j]? <;> simp

/-- The free list names all vacant slots and no others. -/
def Accounts (a : Arena α) : Prop := ∀ i, i ∈ a.free ↔ a.Vacant i

theorem accounts_empty : (empty : Arena α).Accounts := fun i ↦ by simp [empty, Vacant]

/-- The next slot is the head of the free list, or a new one. -/
theorem index_nextHandle (a : Arena α) : a.nextHandle.index = a.free.head?.getD a.slots.size := by
  rw [nextHandle]
  cases a.free <;> rfl

/-- The other free slots are the other vacant ones. -/
theorem mem_tail_free (ha : a.Valid) (hacc : a.Accounts) :
    j ∈ a.free.tail ↔ a.Vacant j ∧ j ≠ a.nextHandle.index := by
  rw [← hacc j, index_nextHandle]
  have hnodup := ha.nodup
  cases hfree : a.free with
  | nil => simp
  | cons i rest =>
    rw [hfree, List.nodup_cons] at hnodup
    simp only [List.tail_cons, List.mem_cons, List.head?_cons, Option.getD_some]
    constructor
    · intro hj
      exact ⟨.inr hj, fun he ↦ hnodup.1 (he ▸ hj)⟩
    · rintro ⟨hj, hne⟩
      exact hj.resolve_left hne

/-- The free list goes on naming all vacant slots. -/
theorem Accounts.use (ha : a.Valid) (hacc : a.Accounts) : (a.use u).Accounts := by
  intro j
  cases u with
  | insert v => rw [Arena.use, free_insert, vacant_insert ha, mem_tail_free ha hacc]
  | remove h =>
    rw [use_remove]
    cases hh : a.contains h with
    | true => rw [free_erase, if_pos hh, vacant_erase hh, List.mem_cons, hacc j]
    | false => simpa [erase, hh] using hacc j
  | modify h f => rw [Arena.use, free_modify, vacant_modify, hacc j]
  | set h v => rw [use_set, free_modify, vacant_modify, hacc j]
  | map f => rw [Arena.use, vacant_map, ← hacc j]; rfl

/-- The free list names all vacant slots, whatever the arena is used for. -/
theorem Accounts.uses (ha : a.Valid) (hacc : a.Accounts) : (a.uses us).Accounts := by
  induction us generalizing a with
  | nil => exact hacc
  | cons u us ih => exact ih (valid_use ha) (hacc.use ha)

theorem accounts_uses : (empty.uses us).Accounts := accounts_empty.uses valid_empty

/-! ### The count -/

/-- Every slot is free or counted. -/
def Counted (a : Arena α) : Prop := a.size + a.free.length = a.slots.size

theorem counted_empty : (empty : Arena α).Counted := rfl

/-- A value that is stored is counted. -/
theorem counted_insert (hc : a.Counted) : (a.insert v).Counted := by
  unfold Counted at hc ⊢
  rw [insert]
  cases hfree : a.free with
  | nil =>
    rw [hfree] at hc
    simp only [Array.size_push, List.length_nil] at hc ⊢
    omega
  | cons i rest =>
    rw [hfree] at hc
    simp only [Array.size_modify, List.length_cons] at hc ⊢
    omega

/-- **Where there is a value, fewer slots are free than there are**, so that the count does not go
below zero. -/
theorem length_free_lt (ha : a.Valid) (hv : a.find? h = some v) : a.free.length < a.slots.size := by
  obtain ⟨s, hs, -, hval⟩ := find?_eq_some_iff.1 hv
  have hnot : h.index ∉ a.free := fun hmem ↦ by
    obtain ⟨t, ht, hnone⟩ := ha.vacant _ hmem
    obtain rfl := Option.some.inj (hs.symm.trans ht)
    cases hnone.symm.trans hval
  have hsub : h.index :: a.free ⊆ List.range a.slots.size := by
    refine List.cons_subset.2 ⟨List.mem_range.2 (index_lt hv), fun i hi ↦ List.mem_range.2 ?_⟩
    obtain ⟨t, ht, -⟩ := ha.vacant i hi
    exact (Array.getElem?_eq_some_iff.1 ht).1
  simpa [Nat.succ_le_iff] using ((List.nodup_cons.2 ⟨hnot, ha.nodup⟩).subperm hsub).length_le

/-- A value that is erased is counted no more. -/
theorem counted_erase (ha : a.Valid) (hc : a.Counted) : (a.erase h).Counted := by
  cases hh : a.contains h with
  | false => simpa [erase, hh] using hc
  | true =>
    obtain ⟨v, hv⟩ := contains_iff.1 hh
    have hlt := length_free_lt ha hv
    unfold Counted at hc ⊢
    rw [size_erase, free_erase, size_slots_erase, if_pos hh, if_pos hh, List.length_cons]
    omega

theorem counted_modify {f : α → α} (hc : a.Counted) : (a.modify h f).Counted := by
  unfold Counted at hc ⊢
  rwa [size_modify, free_modify, size_slots_modify]

/-- Each use keeps the count right. -/
theorem Counted.use (ha : a.Valid) (hc : a.Counted) : (a.use u).Counted := by
  cases u with
  | insert v => exact counted_insert hc
  | remove h => rw [use_remove]; exact counted_erase ha hc
  | modify h f => exact counted_modify hc
  | set h v => rw [use_set]; exact counted_modify hc
  | map f => simpa [Arena.use, map, Counted] using hc

/-- The count is right, whatever the arena is used for. -/
theorem Counted.uses (ha : a.Valid) (hc : a.Counted) : (a.uses us).Counted := by
  induction us generalizing a with
  | nil => exact hc
  | cons u us ih => exact ih (valid_use ha) (hc.use ha)

/-! ### The order in which slots were freed -/

/-- Slots were freed by uses that were made. -/
theorem FreedAt.lt {n : Nat} (h : FreedAt us i n) : n < us.length := by
  obtain ⟨g, hg, -⟩ := h
  exact (List.getElem?_eq_some_iff.1 hg).1

/-- A slot that is still vacant was freed when it was. -/
theorem FreedAt.snoc {n : Nat} (h : FreedAt us i n) (hi : (empty.uses (us ++ [u])).Vacant i) :
    FreedAt (us ++ [u]) i n := by
  have hlt : n < us.length := h.lt
  obtain ⟨g, hg, hindex, hlive, hvacant⟩ := h
  refine ⟨g, by rw [List.getElem?_append_left hlt, hg], hindex, ?_, fun m hm hle ↦ ?_⟩
  · rwa [List.take_append_of_le_length hlt.le]
  · rcases Nat.lt_or_ge us.length m with hend | hin
    · rwa [List.take_of_length_le (by rw [List.length_append, List.length_singleton]; omega)]
    · rw [List.take_append_of_le_length hin]
      exact hvacant m hm hin

/-- A removal frees its slot now. -/
theorem freedAt_remove (hh : (empty.uses us).contains h = true) :
    FreedAt (us ++ [Use.remove h]) h.index us.length := by
  refine ⟨h, List.getElem?_concat_length, rfl, by rwa [List.take_left], fun m hm hle ↦ ?_⟩
  have hend : m = (us ++ [Use.remove h]).length := by
    rw [List.length_append, List.length_singleton] at *
    omega
  rw [hend, List.take_length, uses_append, uses_cons, uses_nil, use_remove]
  exact (vacant_erase hh).2 (.inl rfl)

theorem lt_of_freedAt {is ts : List Nat} (h : List.Forall₂ (FreedAt us) is ts) :
    ∀ t ∈ ts, t < us.length := by
  induction h with
  | nil => rintro t ⟨⟩
  | cons hi _ ih => exact List.forall_mem_cons.2 ⟨hi.lt, ih⟩

/-- **The free list names slots by the times when they were freed, the latest first.** -/
theorem exists_times (us : List (Use α)) :
    ∃ ts, List.Forall₂ (FreedAt us) (empty.uses us).free ts ∧ ts.Pairwise (· > ·) := by
  induction us using List.reverseRecOn with
  | nil => exact ⟨[], .nil, .nil⟩
  | append_singleton us u ih =>
    obtain ⟨ts, hts, hsorted⟩ := ih
    have hlast : empty.uses (us ++ [u]) = (empty.uses us).use u := by rw [uses_append]; rfl
    -- Slots that stay free were freed when they were.
    have hkeep : ∀ {is : List Nat} {ts : List Nat}, List.Forall₂ (FreedAt us) is ts →
        (∀ i ∈ is, i ∈ (empty.uses (us ++ [u])).free) →
        List.Forall₂ (FreedAt (us ++ [u])) is ts := by
      intro is ts h his
      induction h with
      | nil => exact .nil
      | cons hi _ ih =>
        obtain ⟨hmem, his⟩ := List.forall_mem_cons.1 his
        exact .cons (hi.snoc ((accounts_uses _).1 hmem)) (ih his)
    have hsame : ((empty.uses us).use u).free = (empty.uses us).free →
        ∃ ts, List.Forall₂ (FreedAt (us ++ [u])) ((empty.uses us).use u).free ts ∧
          ts.Pairwise (· > ·) :=
      fun hfree ↦ ⟨ts, hfree ▸ hkeep hts fun i hi ↦ by rwa [hlast, hfree], hsorted⟩
    rw [hlast]
    cases u with
    -- The slot that was freed last is used up.
    | insert v =>
      have hfree : ((empty.uses us).use (.insert v)).free = (empty.uses us).free.tail := free_insert
      refine ⟨ts.tail, ?_, hsorted.tail⟩
      rw [hfree]
      refine hkeep ?_ fun i hi ↦ by rwa [hlast, hfree]
      revert hts
      generalize (empty.uses us).free = is
      rintro (_ | ⟨-, hrest⟩)
      · exact .nil
      · exact hrest
    -- The slot that is freed now comes first.
    | remove h =>
      cases hh : (empty.uses us).contains h with
      | true =>
        have hfree : ((empty.uses us).use (.remove h)).free = h.index :: (empty.uses us).free := by
          rw [use_remove, free_erase, if_pos hh]
        rw [hfree]
        refine ⟨us.length :: ts, .cons (freedAt_remove hh) (hkeep hts fun i hi ↦ ?_),
          List.pairwise_cons.2 ⟨lt_of_freedAt hts, hsorted⟩⟩
        rw [hlast, hfree]
        exact List.mem_cons_of_mem _ hi
      | false => exact hsame (by rw [use_remove, free_erase, hh]; rfl)
    | modify h f => exact hsame free_modify
    | set h v => exact hsame (by rw [use_set]; exact free_modify)
    | map f => exact hsame rfl

/-! ### Listing what is there -/

/-- The values are listed by slots. -/
theorem toList_eq (a : Arena α) : a.toList = (List.range a.slots.size).filterMap fun i ↦
    a.slots[i]?.bind fun s ↦ s.value.map fun v ↦ (⟨i, s.age⟩, v) := by
  have hslots : (a.slots.toList.mapIdx fun i s ↦ s.value.map fun v ↦ ((⟨i, s.age⟩ : Handle), v)) =
      (List.range a.slots.size).map fun i ↦
        a.slots[i]?.bind fun s ↦ s.value.map fun v ↦ (⟨i, s.age⟩, v) := by
    refine List.ext_getElem (by simp) fun i hi hi' ↦ ?_
    have hlt : i < a.slots.size := by simpa using hi
    simp [hlt]
  rw [toList, hslots, List.filterMap_map]
  rfl

/-- What is listed is what handles name. -/
theorem mem_toList {e : Handle × α} : e ∈ a.toList ↔ a.find? e.1 = some e.2 := by
  obtain ⟨h, v⟩ := e
  rw [toList_eq, List.mem_filterMap, find?_eq_some_iff]
  constructor
  · rintro ⟨i, -, hi⟩
    obtain ⟨s, hs, hv⟩ := Option.bind_eq_some_iff.1 hi
    obtain ⟨v', hv', he⟩ := Option.map_eq_some_iff.1 hv
    obtain ⟨rfl, rfl⟩ := Prod.mk.inj he
    exact ⟨s, hs, rfl, hv'⟩
  · rintro ⟨s, hs, hage, hv⟩
    have hlt : h.index < a.slots.size := (Array.getElem?_eq_some_iff.1 hs).1
    refine ⟨h.index, List.mem_range.2 hlt, Option.bind_eq_some_iff.2 ⟨s, hs, ?_⟩⟩
    rw [hv, hage]
    rfl

/-- The slots of the values, as they are listed. -/
theorem indexes_toList (a : Arena α) : a.toList.map (·.1.index) =
    (List.range a.slots.size).filter fun i ↦ (a.slots[i]?.bind Slot.value).isSome := by
  rw [toList_eq, List.map_filterMap, ← List.filterMap_eq_filter]
  refine List.filterMap_congr fun i _ ↦ ?_
  cases hi : a.slots[i]? with
  | none => simp [Option.guard, hi]
  | some s =>
    cases hs : s.value with
    | none => simp [Option.guard, hi, hs]
    | some v => simp [Option.guard, hi, hs]

/-- No slot is listed twice. -/
theorem pairwise_toList (a : Arena α) : (a.toList.map (·.1.index)).Pairwise (· < ·) := by
  rw [indexes_toList]
  exact List.pairwise_lt_range.filter _

/-- **The count is the number of values**: the slots that are not free are those of the values. -/
theorem size_eq (ha : a.Valid) (hacc : a.Accounts) (hc : a.Counted) : a.size = a.toList.length := by
  have hperm : a.free.Perm ((List.range a.slots.size).filter fun i ↦
      !(a.slots[i]?.bind Slot.value).isSome) := by
    refine (List.perm_ext_iff_of_nodup ha.nodup (List.nodup_range.filter _)).2 fun i ↦ ?_
    rw [hacc i, List.mem_filter, List.mem_range, Vacant]
    constructor
    · rintro ⟨s, hs, hnone⟩
      exact ⟨(Array.getElem?_eq_some_iff.1 hs).1, by simp [hs, hnone]⟩
    · rintro ⟨hlt, hnone⟩
      exact ⟨a.slots[i], Array.getElem?_eq_getElem hlt, by simpa [hlt] using hnone⟩
  have hall := List.length_eq_length_filter_add (l := List.range a.slots.size) fun i ↦
    (a.slots[i]?.bind Slot.value).isSome
  rw [List.length_range, ← indexes_toList, List.length_map, ← hperm.length_eq] at hall
  unfold Counted at hc
  omega

/-! ### Packed handles -/

/-- Slots and ages fit into words, and no slot has the number that is kept for no value. -/
def Fits (a : Arena α) : Prop :=
  a.slots.size < UInt32.size - 1 ∧ ∀ (i : Nat) (s : Slot α), a.slots[i]? = some s →
    s.age < UInt32.size

/-- A known handle has a slot, and is no older than it. -/
theorem Knows.bounds (hh : a.Knows h) : ∃ s, a.slots[h.index]? = some s ∧ h.age ≤ s.age := by
  rcases hh with ⟨s, hs, hlt⟩ | ⟨v, hv⟩
  · exact ⟨s, hs, hlt.le⟩
  · obtain ⟨s, hs, hage, -⟩ := find?_eq_some_iff.1 hv
    exact ⟨s, hs, hage.ge⟩

/-- Both numbers of a known handle fit into words. -/
theorem Knows.toNat_packed (ha : a.Fits) (hh : a.Knows h) :
    h.packed.1.toNat = h.index ∧ h.packed.2.toNat = h.age ∧ h.index < UInt32.size - 1 := by
  obtain ⟨s, hs, hle⟩ := hh.bounds
  have hindex : h.index < a.slots.size := (Array.getElem?_eq_some_iff.1 hs).1
  have hage := ha.2 _ _ hs
  have hsize := ha.1
  refine ⟨UInt32.toNat_ofNat_of_lt' ?_, UInt32.toNat_ofNat_of_lt' ?_, by omega⟩ <;>
    omega

/-- **Handles with the same words are the same.** -/
theorem eq_of_packed_eq (ha : a.Fits) (hg : a.Knows g) (hh : a.Knows h)
    (hgh : g.packed = h.packed) : g = h := by
  obtain ⟨hindex, hage, -⟩ := hg.toNat_packed ha
  obtain ⟨hindex', hage', -⟩ := hh.toNat_packed ha
  rw [hgh] at hindex hage
  cases g
  cases h
  simp_all

/-- No handle is packed like the one that is kept for no value. -/
theorem packed_ne_dangling (ha : a.Fits) (hh : a.Knows h) : h.packed ≠ Handle.dangling := by
  intro he
  obtain ⟨hindex, -, hlt⟩ := hh.toNat_packed ha
  rw [he] at hindex
  have hmax : Handle.dangling.1.toNat = UInt32.size - 1 := rfl
  omega

/-! ### The whole history -/

/-- The arena is the one that its uses made, and a map whose keys are never used again. -/
structure Records (us : List (Use α)) (a : Arena α) : Prop where
  /-- No insertion answers a handle that one before it answered. -/
  fresh : (empty.issued us).Nodup
  /-- A handle names what an insertion stored under it, with all changes since, until it is
  removed. -/
  find? : ∀ h w, a.find? h = some w ↔ ∃ us₁ v us₂, us = us₁ ++ .insert v :: us₂ ∧
    (empty.uses us₁).nextHandle = h ∧ .remove h ∉ us₂ ∧ us₂.foldl (Use.write h) v = w
  /-- Reading and replacing a value through a handle that names none is a fault. -/
  get : ∀ h v, a.get h = .ok v ↔ a.find? h = some v
  set : ∀ h v, a.set h v = if (a.find? h).isSome then .ok (a.modify h fun _ ↦ v)
    else .error (.staleHandle h.index h.generation)
  /-- Removing answers what the handle named, and concerns no other handle. -/
  removed : ∀ h, (a.remove h).1 = a.find? h
  remove : ∀ h g, (a.remove h).2.find? g = if g = h then none else a.find? g
  /-- The free list names the vacant slots, each once, by the times when they were freed, the latest
  first. -/
  nodup : a.free.Nodup
  vacant : ∀ i, i ∈ a.free ↔ a.Vacant i
  times : ∃ ts, List.Forall₂ (FreedAt us) a.free ts ∧ ts.Pairwise (· > ·)
  /-- An insertion takes the slot that was freed last, or a new one if none is free. -/
  reuse : a.nextHandle.index = a.free.head?.getD a.slots.size
  /-- What is listed are the values, each once, by increasing slot, and their number is the one
  counted. -/
  listed : ∀ h v, (h, v) ∈ a.toList ↔ a.find? h = some v
  sorted : (a.handles.map Handle.index).Pairwise (· < ·)
  size : a.size = a.handles.length
  /-- In words of 32 bits, handles that were answered stay different from each other and from the
  one that is kept for no value. -/
  packed : a.Fits → ((empty.issued us).map Handle.packed).Nodup ∧
    Handle.dangling ∉ (empty.issued us).map Handle.packed

/-- **An arena is a map whose keys are never used again**, whatever it was used for. -/
theorem records_uses (us : List (Use α)) : Records us (empty.uses us) := by
  have hvalid : (empty.uses us).Valid := valid_uses valid_empty
  have hacc : (empty.uses us).Accounts := accounts_uses
  have hknown : ∀ h ∈ (empty : Arena α).issued us, (empty.uses us).Knows h := fun h hh ↦
    knows_of_mem_issued valid_empty hh
  have hfresh : ((empty : Arena α).issued us).Nodup := (nodup_issued valid_empty).1
  refine ⟨hfresh, fun h w ↦ ?_, fun h v ↦ ?_, fun h v ↦ set_eq _ h v, fun h ↦ by rw [remove_eq],
    fun h g ↦ by rw [remove_eq, find?_erase], hvalid.nodup, hacc, exists_times us,
    index_nextHandle _, fun h v ↦ mem_toList, ?_, ?_, fun hfits ↦ ⟨?_, fun hmem ↦ ?_⟩⟩
  · rw [find?_uses valid_empty]
    exact or_iff_right fun ⟨v, hv, _⟩ ↦ find?_empty_ne h v hv
  · rw [Arena.get]
    cases (empty.uses us).find? h <;> simp
  · rw [handles, List.map_map]
    exact pairwise_toList _
  · rw [size_eq hvalid hacc (counted_empty.uses valid_empty), handles, List.length_map]
  · exact List.Nodup.map_on (fun g hg h hh he ↦
      eq_of_packed_eq hfits (hknown g hg) (hknown h hh) he) hfresh
  · obtain ⟨h, hh, he⟩ := List.mem_map.1 hmem
    exact packed_ne_dangling hfits (hknown h hh) he

end Arena

end HeaderFlow
