import HeaderFlow.Proofs.Space.Comparison
import HeaderFlow.Proofs.Space.Enlarge
import HeaderFlow.Proofs.Space.Overwrite

/-!
# Spaces over headers of one length

A space is *over* headers of `n` bytes if it says so itself and all its patterns, at every depth,
have that length. **No operation breaks a precondition where all its arguments are over one
length**, and what it answers is over that length again. What the answer has for headers is of no
account here.
-/

namespace HeaderFlow

open Checked

namespace Pattern

variable {p q : Pattern} {n : Nat}

/-- Patterns of one length can be intersected. -/
theorem gives_intersect (hp : p.bytes = n) (hq : q.bytes = n) :
    Gives (p.intersect q) fun o ↦ ∀ m, o = some m → m.bytes = n := by
  refine ⟨_, intersect_eq (hp.trans hq.symm), fun m hm ↦ ?_⟩
  exact (solid_of_meet?_eq_some hm).1.trans hp

end Pattern

namespace Region

variable {r : Region} {rs : List Region} {mask value : Pattern} {n bytes : Nat}

/-- A list can be overwritten if each member can. -/
theorem gives_overwriteList {lost : Nat}
    (hrs : ∀ r ∈ rs, Gives (r.overwrite mask value) fun o ↦ o.1.Every (·.bytes = n)) :
    Gives (overwriteList rs mask value lost) (EveryOf (·.bytes = n)) := by
  induction rs with
  | nil => exact gives_ok everyOf_nil
  | cons r rs ih =>
    refine (hrs r List.mem_cons_self).bind fun o ho ↦
      (ih fun d hd ↦ hrs d (List.mem_cons_of_mem _ hd)).bind fun ds hds ↦ gives_ok ?_
    split
    · exact everyOf_cons.2 ⟨ho, hds⟩
    · exact hds

/-- Regions of one length can be overwritten. -/
theorem gives_overwrite (hr : r.Every (·.bytes = n)) (hmask : mask.bytes = n)
    (hvalue : value.bytes = n) :
    Gives (r.overwrite mask value) fun o ↦ o.1.Every (·.bytes = n) := by
  induction r using Region.induction with
  | mk f hs ih =>
    obtain ⟨hf, hhs⟩ := every_mk.1 hr
    have hframe : f.overwrite mask value = .ok (f.replaceMasked mask value) := by
      simp [Pattern.overwrite, Pattern.checkWidth, hf, hmask, hvalue]
    rw [overwrite, hframe]
    refine (gives_overwriteList fun d hd ↦ ih d hd (everyOf_iff.1 hhs d hd)).bind fun ds hds ↦ ?_
    exact gives_ok (every_mk.2 ⟨hf, hds⟩)

/-- A widened region has the new length everywhere. -/
theorem bytes_enlarge (hr : r.Every (·.bytes = n)) (hle : n ≤ bytes) :
    (r.enlarge bytes).Every (·.bytes = bytes) := by
  induction r using Region.induction with
  | mk f hs ih =>
    obtain ⟨hf, hhs⟩ := every_mk.1 hr
    rw [enlarge_mk, every_mk, enlargeList_eq_map, everyOf_iff]
    refine ⟨by rw [Pattern.bytes_enlarge, hf, Nat.max_eq_right hle], fun e he ↦ ?_⟩
    obtain ⟨d, hd, rfl⟩ := List.mem_map.1 he
    exact ih d hd (everyOf_iff.1 hhs d hd)

end Region

namespace Space

open Region

variable {s t : Space} {p mask value : Pattern} {n : Nat} {x : Checked Space}

/-- The space has headers of `n` bytes, and so have all its patterns. -/
def Over (s : Space) (n : Nat) : Prop := s.bytes = n ∧ s.Uniform

theorem over_ofPattern (hp : p.bytes = n) : (ofPattern p).Over n := ⟨hp, uniform_ofPattern p⟩

theorem over_empty (n : Nat) : (empty n).Over n := ⟨rfl, everyOf_nil⟩

/-- A computation that yields a set gives a space over one length. -/
theorem Yields.gives {set : (Nat → Bool) → Prop} (hx : Yields x n set) : Gives x (·.Over n) := by
  obtain ⟨u, hu, hbytes, huniform, -⟩ := hx
  exact ⟨u, hu, hbytes, huniform⟩

/-- A computation that decides something has an answer. -/
theorem Decides.gives {x : Checked Bool} {P : Prop} (hx : Decides x P) : Gives x fun _ ↦ True := by
  obtain ⟨b, hb, -⟩ := hx
  exact ⟨b, hb, trivial⟩

namespace Over

theorem cut (hs : s.Over n) (hp : p.bytes = n) : Gives (s.cut p) (·.Over n) := by
  obtain ⟨rfl, hs⟩ := hs
  exact (cut_yields hs hp).gives

theorem clip (hs : s.Over n) (hp : p.bytes = n) : Gives (s.clip p) (·.Over n) := by
  obtain ⟨rfl, hs⟩ := hs
  exact (clip_yields hs hp).gives

theorem addPattern (hs : s.Over n) (hp : p.bytes = n) : Gives (s.addPattern p) (·.Over n) := by
  obtain ⟨rfl, hs⟩ := hs
  exact (addPattern_yields hs hp).gives

theorem simplify (hs : s.Over n) : Gives s.simplify (·.Over n) := by
  obtain ⟨rfl, hs⟩ := hs
  exact (simplify_yields hs).gives

theorem compact (hs : s.Over n) (mask : Option Pattern) : Gives (s.compact mask) (·.Over n) := by
  obtain ⟨rfl, hs⟩ := hs
  obtain ⟨u, hu, hbytes, hkeeps, -⟩ := compact_keeps mask hs
  exact ⟨u, hu, hbytes, Keeps.uniform hbytes hkeeps hs⟩

theorem overwrite (hs : s.Over n) (hmask : mask.bytes = n) (hvalue : value.bytes = n) :
    Gives (s.overwrite mask value) (·.Over n) := by
  obtain ⟨rfl, hs⟩ := hs
  have hall : ∀ r ∈ s.regions, Gives (do return (← r.overwrite mask value).1)
      fun c : Region ↦ c.Every (·.bytes = s.bytes) := fun r hr ↦
    (gives_overwrite (everyOf_iff.1 hs r hr) hmask hvalue).bind fun o ho ↦ gives_ok ho
  exact (gives_mapM hall).bind fun rs hrs ↦ gives_ok ⟨rfl, everyOf_iff.2 hrs⟩

theorem isSubset (hs : s.Over n) (ht : t.Over n) : Gives (s.isSubset t) fun _ ↦ True :=
  (isSubset_decides hs.2 ht.2 (ht.1.trans hs.1.symm)).gives

theorem isStrictSubset (hs : s.Over n) (ht : t.Over n) :
    Gives (s.isStrictSubset t) fun _ ↦ True :=
  (isStrictSubset_decides hs.2 ht.2 (ht.1.trans hs.1.symm)).gives

theorem isEqual (hs : s.Over n) (ht : t.Over n) : Gives (s.isEqual t) fun _ ↦ True :=
  (isEqual_decides hs.2 ht.2 (ht.1.trans hs.1.symm)).gives

theorem enlarge {bytes : Nat} (hs : s.Over n) (hle : n ≤ bytes) : (s.enlarge bytes).Over bytes := by
  obtain ⟨rfl, hs⟩ := hs
  rw [Space.enlarge]
  split
  · obtain rfl : bytes = s.bytes := by omega
    exact ⟨rfl, hs⟩
  · refine ⟨rfl, everyOf_iff.2 fun e he ↦ ?_⟩
    rw [enlargeList_eq_map] at he
    obtain ⟨r, hr, rfl⟩ := List.mem_map.1 he
    exact Region.bytes_enlarge (everyOf_iff.1 hs r hr) hle

end Over

end Space

end HeaderFlow
