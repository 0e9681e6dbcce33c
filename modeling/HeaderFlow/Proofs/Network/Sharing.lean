import HeaderFlow.Network.Priority
import HeaderFlow.Proofs.Checked
import HeaderFlow.Proofs.PortSet

/-!
# Rules that share a port

Ports are kept as increasing lists, and the questions about them are answered by walks along these
lists: one port is searched for, two lists are walked side by side, or the ports of one are searched
for in the other. All of them answer what the same question about **finite sets of ports** does
(`ActsAsSets`).

Which rules have to do with a new one is asked in two of these ways. Influences are recorded with
the rules for which the common ports are not empty, and the rules that may cover it are those of
which some port is found. **Both are the same rules**: no influence is missed if they are selected
in the second way (`influencesWith_filter`), and nothing of a cover if they are selected in the
first (`coverageAbove_eq`).
-/

namespace HeaderFlow

open PortSet (ofList searchHalves)

/-! ### The two ways of selecting -/

namespace Network

/-- Rules that share no port are passed over when a cover is gathered. -/
theorem gather_filter (p : Pattern) (ports : PortSet) (acc : Space) (others : List Node) :
    gather p ports acc (others.filter fun m ↦ m.inPorts.intersects ports) =
      gather p ports acc others := by
  induction others generalizing acc with
  | nil => rfl
  | cons m others ih =>
    rw [List.filter_cons]
    split
    · rw [gather, gather]
      simp only [ih]
    · rename_i hnone
      rw [ih, gather]
      cases m.accepts with
      | none => rfl
      | some q => exact (if_neg hnone).symm

/-- Rules that share no port do not matter to a cover. -/
theorem coverage_filter (net : Network) (n : Node) (others : List Node) :
    net.coverage n (others.filter fun m ↦ m.inPorts.intersects n.inPorts) =
      net.coverage n others := by
  rw [coverage, coverage]
  simp only [gather_filter]

/-- **The rules selected by common ports have the cover of all above.** -/
theorem coverageAbove_eq (n : Node) (index : UInt32) (others : List (UInt32 × Node))
    (net : Network) :
    Engine.coverageAbove n index others net =
      if net.settings.checkShadow then net.coverage n
        ((others.filter fun e ↦ e.1 < index).map Prod.snd)
      else .ok {} := by
  have hselect :
      ((others.filter fun e ↦ e.1 < index && !(e.2.inPorts.inter n.inPorts).isEmpty).map Prod.snd) =
      ((others.filter fun e ↦ e.1 < index).map Prod.snd).filter fun m ↦
        m.inPorts.intersects n.inPorts := by
    simp only [List.filter_map, List.filter_filter, PortSet.intersects_eq_not_isEmpty_inter,
      Function.comp_def, Bool.and_comm]
  rw [Engine.coverageAbove]
  dsimp only
  rw [hselect, coverage_filter]

/-- **The rules selected for covers have all influences.** -/
theorem influencesWith_filter (n : Node) (index : UInt32) (p : Pattern)
    (others : List (UInt32 × Node)) :
    influencesWith n index p (others.filter fun e ↦ e.2.inPorts.intersects n.inPorts) =
      influencesWith n index p others := by
  induction others with
  | nil => rfl
  | cons e others ih =>
    obtain ⟨i, m⟩ := e
    rw [List.filter_cons]
    split
    · rw [influencesWith, influencesWith, ih]
    · rename_i hnone
      have hempty : (m.inPorts.inter n.inPorts).isEmpty = true := by
        simpa [PortSet.intersects_eq_not_isEmpty_inter] using hnone
      rw [ih, influencesWith, shared, if_pos hempty, Checked.ok_bind]
      cases influencesWith n index p others <;> rfl

end Network

/-! ### Sets of ports -/

/-- The sets of the ports of two lists answer every question as finite sets do. -/
structure ActsAsSets (ps qs : List Port) : Prop where
  /-- The members are listed in strictly increasing order. -/
  increasing : (ofList ps).toList.Pairwise (· < ·)
  /-- They are those of the list. -/
  mem : ∀ p, p ∈ (ofList ps).toList ↔ p ∈ ps
  /-- The search for a port decides membership. -/
  contains : ∀ p, (ofList ps).contains p = true ↔ p ∈ ps
  /-- A search by halves finds the same. -/
  halves : ∀ p, searchHalves p (ofList ps).toList = (ofList ps).contains p
  /-- The intersection is listed in strictly increasing order. -/
  inter_increasing : ((ofList ps).inter (ofList qs)).toList.Pairwise (· < ·)
  /-- Its members are the common ones. -/
  mem_inter : ∀ p, p ∈ ((ofList ps).inter (ofList qs)).toList ↔ p ∈ ps ∧ p ∈ qs
  /-- The sets intersect exactly if the intersection is not empty. -/
  intersects : (ofList ps).intersects (ofList qs) = true ↔
    ((ofList ps).inter (ofList qs)).toList ≠ []
  /-- Inclusion. -/
  subset : (ofList ps).isSubset (ofList qs) = true ↔ ∀ p ∈ ps, p ∈ qs
  /-- Sets are equal exactly if they have the same members. -/
  eq : ofList ps = ofList qs ↔ ∀ p, p ∈ ps ↔ p ∈ qs

/-- **Ports are sets**, question by question. -/
theorem actsAsSets (ps qs : List Port) : ActsAsSets ps qs where
  increasing := (ofList ps).sorted
  mem _ := PortSet.mem_ofList
  contains _ := PortSet.contains_iff.trans PortSet.mem_ofList
  halves p := by
    rw [Bool.eq_iff_iff, PortSet.searchHalves_iff (ofList ps).sorted, PortSet.contains_iff]
  inter_increasing := ((ofList ps).inter (ofList qs)).sorted
  mem_inter _ := by rw [PortSet.mem_inter, PortSet.mem_ofList, PortSet.mem_ofList]
  intersects := by
    rw [PortSet.intersects_eq_not_isEmpty_inter, Bool.not_eq_true', ← Bool.not_eq_true,
      PortSet.isEmpty, List.isEmpty_iff]
  subset := by
    rw [PortSet.isSubset_iff, List.subset_def]
    simp only [PortSet.mem_ofList]
  eq := by
    rw [PortSet.ext_iff_mem]
    simp only [PortSet.mem_ofList]

/-- **Sets of ports are exact finite sets**, and so the influences of a rule and the search for
rules that cover it have to do with the same rules: a rule passes one test on its ports exactly if
it passes the other, the influences are those with the rules that pass the second, and the cover
from above, which is computed for those that pass the first, is that of all rules above. -/
theorem ports_exact (ps qs : List Port) : ActsAsSets ps qs ∧
    ∀ (net : Network) (n : Node) (index : UInt32) (p : Pattern) (others : List (UInt32 × Node)),
      (∀ e ∈ others, e.2.inPorts.intersects n.inPorts = true ↔
        (e.2.inPorts.inter n.inPorts).isEmpty = false) ∧
      Network.influencesWith n index p (others.filter fun e ↦ e.2.inPorts.intersects n.inPorts) =
        Network.influencesWith n index p others ∧
      Engine.coverageAbove n index others net =
        if net.settings.checkShadow then net.coverage n
          ((others.filter fun e ↦ e.1 < index).map Prod.snd)
        else .ok {} := by
  refine ⟨actsAsSets ps qs, fun net n index p others ↦ ⟨fun e _ ↦ ?_,
    Network.influencesWith_filter n index p others, Network.coverageAbove_eq n index others net⟩⟩
  rw [PortSet.intersects_eq_not_isEmpty_inter, Bool.not_eq_true']

end HeaderFlow
