import HeaderFlow.Proofs.Pattern.Volume
import HeaderFlow.Proofs.Space.NormalForm
import HeaderFlow.Proofs.Space.Trim

/-!
# Normal forms with few holes

A normal form may have holes that jointly fill its frame, since compacting compares holes two at a
time. **With four holes or fewer it contains a header** (`Region.exists_contains_of_sparse`): its
holes leave two bits of the frame or more each, no two of them merge, and there are too few of them
to fill the frame. Both bounds are needed. A fifth hole may complete a cover of which no two parts
merge, and a hole with a hole may leave just what another one takes.
-/

namespace HeaderFlow

namespace Pattern

variable {a b f d : Pattern}

/-- Patterns that stay side by side cannot be merged. -/
theorem Apart.join?_eq_none (h : Apart none a b) : join? a b = none := by
  obtain ⟨-, -, hboth⟩ := Checked.map_eq_ok.1 h.1
  rw [combine] at hboth
  cases ha : a.hasConflict <;> cases hb : b.hasConflict <;> simp only [ha, hb] at hboth
  all_goals try cases hboth
  split at hboth
  · cases hboth
  split at hboth
  · cases hboth
  rw [Option.any_none, if_neg Bool.false_ne_true] at hboth
  cases hjoin : join? a b with
  | none => rfl
  | some m =>
    rw [hjoin] at hboth
    cases hboth

end Pattern

namespace Region

variable {r : Region} {n : Nat}

/-- The region has four holes at most, and they have none. -/
def Sparse (r : Region) : Prop := r.holes.length ≤ 4 ∧ ∀ d ∈ r.holes, d.isPlain = true

instance (r : Region) : Decidable r.Sparse := inferInstanceAs (Decidable (_ ∧ _))

/-- A plain hole lies inside the frame. -/
theorem Tight.part (ht : r.Tight) (hr : r.Every (Pattern.Solid n)) {d : Region} (hd : d ∈ r.holes)
    (hplain : d.isPlain = true) : Pattern.Part r.frame d.frame := by
  obtain ⟨f, hs⟩ := r
  obtain ⟨⟨hbytes, -⟩, hhs⟩ := every_mk.1 hr
  obtain ⟨g, ds⟩ := d
  obtain ⟨⟨hbytes', hclean⟩, -⟩ := every_mk.1 (everyOf_iff.1 hhs _ hd)
  refine ⟨hbytes'.trans hbytes.symm, hclean, fun i v hv ↦ ?_⟩
  refine Pattern.allows_of_forall_matches hclean
    (fun h hm ↦ ht h (containsAny_iff.2 ⟨_, hd, ?_⟩)) hv
  exact (contains_of_isPlain hplain).2 hm

/-- **A normal form with few holes contains a header.** -/
theorem exists_contains_of_sparse (hr : r.Every (Pattern.Solid n)) (ht : r.Tight)
    (hnormal : r.Normal none) (hsparse : r.Sparse) : ∃ h, r.Contains h := by
  obtain ⟨f, hs⟩ := r
  obtain ⟨hfew, hplain⟩ := hsparse
  obtain ⟨⟨-, hclean⟩, -⟩ := every_mk.1 hr
  obtain ⟨hholes, -⟩ := normal_mk.1 hnormal
  have hparts : ∀ p ∈ hs.map frame, Pattern.Part f p := by
    intro p hp
    obtain ⟨d, hd, rfl⟩ := List.mem_map.1 hp
    exact ht.part hr hd (hplain d hd)
  have hloose : ∀ p ∈ hs.map frame, 2 ≤ (Pattern.narrow f p).excess := by
    intro p hp
    obtain ⟨d, hd, rfl⟩ := List.mem_map.1 hp
    obtain ⟨m, hm, hexcess⟩ := hholes.loose d hd (hplain d hd)
    obtain ⟨-, -, rfl⟩ := Checked.map_eq_ok.1 hm
    exact hexcess
  have hapart : (hs.map frame).Pairwise fun a b ↦ Pattern.join? a b = none := by
    rw [List.pairwise_map]
    exact hholes.apart.imp_of_mem fun hd he h ↦ (h (hplain _ hd) (hplain _ he)).join?_eq_none
  obtain ⟨h, hm, hout⟩ :=
    Pattern.exists_matches_of_few hclean hparts hloose hapart (by rwa [List.length_map])
  refine ⟨h, contains_mk.2 ⟨hm, fun hany ↦ ?_⟩⟩
  obtain ⟨d, hd, hc⟩ := containsAny_iff.1 hany
  exact hout d.frame (List.mem_map_of_mem hd) ((contains_of_isPlain (hplain d hd)).1 hc)

/-- Five holes that fill their frame are left as they are. -/
example :
    let x : Pattern := .allWild 1
    let r : Region :=
      .mk x [.plain ((x.put 0 .zero).put 1 .one), .plain ((x.put 1 .zero).put 2 .one),
      .plain ((x.put 0 .one).put 2 .zero), .plain (((x.put 0 .zero).put 1 .zero).put 2 .zero),
      .plain (((x.put 0 .one).put 1 .one).put 2 .one)]
    r.compact none = .ok (some r) ∧ ((⟨1, [r]⟩ : Space).unroll.map Space.isEmpty) = .ok true := by
  decide +kernel

/-- So is a hole with a hole that another hole fills. -/
example :
    let x : Pattern := .allWild 1
    let p : Pattern := (x.put 0 .one).put 1 .one
    let r : Region := .mk x [.plain p, .mk x [.plain p]]
    r.compact none = .ok (some r) ∧ ((⟨1, [r]⟩ : Space).unroll.map Space.isEmpty) = .ok true := by
  decide +kernel

end Region

/-- **Headers that were compacted and have a region with few holes are not empty.** -/
theorem Space.Normalized.exists_contains {s : Space} {n : Nat} (hnormal : s.Normalized)
    (hs : s.Trim n) {r : Region} (hr : r ∈ s.regions) (hsparse : r.Sparse) : ∃ h, s.Contains h := by
  obtain ⟨h, hh⟩ := Region.exists_contains_of_sparse (Region.everyOf_iff.1 hs.solid r hr)
    (hs.tight r hr) (hnormal.normal hs.bytes r hr) hsparse
  exact ⟨h, Region.containsAny_iff.2 ⟨r, hr, hh⟩⟩

end HeaderFlow
