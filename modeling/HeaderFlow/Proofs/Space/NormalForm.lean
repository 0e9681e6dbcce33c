import HeaderFlow.Proofs.Region.NormalForm
import HeaderFlow.Proofs.Region.Termination
import HeaderFlow.Proofs.Space.SetAlgebra

/-!
# Compacting answers an exact normal form

The three results on compacting a region together: its rounds **come to an end**, what they leave
**has the same headers**, and it **is in normal form** at every depth, so that compacting once more
changes nothing. A region is dropped only if it contains nothing. A space is compacted region by
region, and is left without regions exactly if all of them were dropped.
-/

namespace HeaderFlow

namespace Region

variable {r : Region} {rs qs : List Region} {n : Nat} {mask : Option Pattern}

/-- What compacting achieves: the loops stop without any bound, nothing is answered only for a
region without headers, and otherwise a normal form with the same headers, which is left as it is by
compacting again. -/
structure Compacted (mask : Option Pattern) (r : Region) (o : Option Region) : Prop where
  /-- This is where the loops stop. -/
  stops : Compacts mask r o
  /-- A region is found empty only if it is. -/
  empty : o = none → ∀ h, ¬ r.Contains h
  /-- A normal form has the same headers. -/
  cover : ∀ q ∈ o, ∀ h, q.Contains h ↔ r.Contains h
  /-- What is left is in normal form at every depth. -/
  normal : ∀ q ∈ o, q.Normal mask
  /-- Compacting again changes nothing. -/
  again : ∀ q ∈ o, q.compact mask = .ok (some q)

/-- **Compacting ends in a normal form with the same headers.** -/
theorem exists_compacted (mask : Option Pattern) (hr : r.Every (·.bytes = n)) :
    ∃ o, r.compact mask = .ok o ∧ Compacted mask r o := by
  obtain ⟨o, ho, hsettles⟩ := compact_settles mask hr
  have hcover := hsettles.cover
  have hstable : ∀ q ∈ o, q.height ≤ r.height ∧ q.Every (·.bytes = n) ∧
      compactAt mask r.height q = .ok (some q) := by
    intro q hq
    obtain rfl := Option.mem_def.1 hq
    have hlow := hsettles.height_le
    have hbytes := hsettles.bytes n (everyOf_cons.2 ⟨hr, everyOf_nil⟩)
    simp only [Option.toList_some, heightList_cons, heightList_nil] at hlow
    exact ⟨by omega, (everyOf_cons.1 hbytes).1, (settled_compactAt r.height r q ho).2⟩
  refine ⟨o, ho, compacts_compactAt hr (Nat.le_refl _) ho, ?_, fun q hq h ↦ ?_, fun q hq ↦ ?_,
    fun q hq ↦ ?_⟩
  · rintro rfl h hh
    exact not_containsAny_nil ((hcover h).2 (containsAny_cons.2 (.inl hh)))
  · obtain rfl := Option.mem_def.1 hq
    simpa using hcover h
  · obtain ⟨hlow, hbytes, hfixed⟩ := hstable q hq
    exact normal_of_compactAt_eq_self hbytes hlow hfixed
  · obtain ⟨hlow, -, hfixed⟩ := hstable q hq
    exact compactAt_of_compactAt_eq_self hlow hfixed _

/-- The regions that are left are those that were not found empty. -/
theorem mem_compactEach {compact : Region → Checked (Option Region)}
    (hqs : compactEach compact rs = .ok qs) {q : Region} :
    q ∈ qs ↔ ∃ r ∈ rs, compact r = .ok (some q) := by
  induction rs generalizing qs with
  | nil =>
    obtain rfl := Except.ok.inj hqs
    simp
  | cons r rs ih =>
    obtain ⟨o, ho, hqs⟩ := Checked.bind_eq_ok.1 hqs
    obtain ⟨rest, hrest, hqs⟩ := Checked.bind_eq_ok.1 hqs
    obtain rfl := Except.ok.inj hqs
    simp [ih hrest, ho, Option.mem_toList]

end Region

namespace Space

open Region

variable {s u : Space} {mask : Option Pattern}

/-- A region that is left is what compacting made of one that was there. -/
theorem mem_regions_of_compact (hu : s.compact mask = .ok u) {q : Region} :
    q ∈ u.regions ↔ ∃ r ∈ s.regions, r.compact mask = .ok (some q) := by
  obtain ⟨rs, hrs, hu⟩ := Checked.bind_eq_ok.1 hu
  obtain rfl := Except.ok.inj hu
  exact mem_compactEach hrs

/-- Compacting again would change nothing. -/
def Normalized (s : Space) : Prop := ∀ r ∈ s.regions, r.compact none = .ok (some r)

/-- **What compacting leaves is in normal form.** -/
theorem normalized_of_compact {n : Nat} (hs : EveryOf (·.bytes = n) s.regions)
    (hu : s.compact none = .ok u) : u.Normalized := by
  intro q hq
  obtain ⟨r, hr, hq⟩ := (mem_regions_of_compact hu).1 hq
  obtain ⟨o, ho, hcompacted⟩ := exists_compacted none (everyOf_iff.1 hs r hr)
  obtain rfl := Except.ok.inj (hq.symm.trans ho)
  exact hcompacted.again q rfl

/-- The regions of a space that is normalized are in normal form. -/
theorem Normalized.normal {n : Nat} (hnormal : s.Normalized)
    (hs : EveryOf (·.bytes = n) s.regions) :
    ∀ r ∈ s.regions, r.Normal none := fun r hr ↦
  normal_of_compactAt_eq_self (everyOf_iff.1 hs r hr) (Nat.le_refl _) (hnormal r hr)

/-- **Compacting ends in an exact normal form.** For every region over headers of one length, with
holes that may reach out of their frames and patterns that may have conflicts, and for every mask,
the loops of compacting stop. If nothing is left, the region was empty. Otherwise the normal form
has the same headers, and compacting it again changes nothing. A space is left with the normal forms
of its regions, and with none exactly if every region was found empty. -/
theorem compact_exact (mask : Option Pattern) {r : Region} {n : Nat} (hr : r.Every (·.bytes = n))
    (hs : s.Uniform) :
    (∃ o, r.compact mask = .ok o ∧ Compacted mask r o) ∧
      ∃ u, s.compact mask = .ok u ∧
        (∀ q, q ∈ u.regions ↔ ∃ r ∈ s.regions, r.compact mask = .ok (some q)) ∧
        (u.isEmpty = true ↔ ∀ r ∈ s.regions, r.compact mask = .ok none) := by
  refine ⟨exists_compacted mask hr, ?_⟩
  obtain ⟨u, hu, -⟩ := compact_keeps mask hs
  refine ⟨u, hu, fun q ↦ mem_regions_of_compact hu, ?_⟩
  rw [isEmpty, List.isEmpty_iff, List.eq_nil_iff_forall_not_mem]
  constructor
  · intro hnone d hd
    obtain ⟨o, ho, -⟩ := exists_compacted mask (everyOf_iff.1 hs d hd)
    cases o with
    | none => exact ho
    | some q => exact absurd ((mem_regions_of_compact hu).2 ⟨d, hd, ho⟩) (hnone q)
  · intro hnone q hq
    obtain ⟨d, hd, ho⟩ := (mem_regions_of_compact hu).1 hq
    cases (hnone d hd).symm.trans ho

/-- Of the first region, one hole has a hole with a conflict and then halves the frame, and the
other reaches out of the frame. The second region is covered by its holes. -/
theorem compact_exact_halved :
    let z : Pattern := .fill 1 .zero
    let r : Region := .mk (z.put 7 .wild)
      [.mk (z.put 7 .one) [.plain (.fill 1 .conflict)], .plain (z.put 6 .one)]
    let s : Space := ⟨1, [r, .mk z [.plain (z.put 6 .one), .plain z]]⟩
    r.Every (·.bytes = 1) ∧ s.Uniform ∧ (∃ o, r.compact none = .ok o ∧ Compacted none r o) ∧
      ∃ u, s.compact none = .ok u ∧
        (∀ q, q ∈ u.regions ↔ ∃ r ∈ s.regions, r.compact none = .ok (some q)) ∧
        (u.isEmpty = true ↔ ∀ r ∈ s.regions, r.compact none = .ok none) := by
  intro z r s
  have hr : r.Every (·.bytes = 1) := by
    simp [r, z, plain, Pattern.fill, Pattern.put]
  have hs : s.Uniform := by
    simp [s, Uniform, r, z, plain, Pattern.fill, Pattern.put]
  exact ⟨hr, hs, compact_exact none hr hs⟩

end Space

end HeaderFlow
