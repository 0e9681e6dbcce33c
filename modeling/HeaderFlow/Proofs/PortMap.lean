import Mathlib.Data.List.Nodup
import HeaderFlow.PortMap
import HeaderFlow.Proofs.PortSet

/-!
# What there is at ports

A map of ports is read by what it lists at each port, and it keeps nothing for a port at which it
lists nothing (`PortMap.Solid`). Putting and taking is described by what it does to the lists, so
that **nothing further needs to know how the map is stored**.
-/

namespace HeaderFlow.PortMap

variable {α : Type} {m m' : PortMap α} {port q : Port} {ports : PortSet} {a : α}

/-- No list that is kept is empty. -/
def Solid (m : PortMap α) : Prop := ∀ port : Port, m.entries[port]? ≠ some []

/-- What is listed at a port that is not kept is nothing. -/
theorem listed_eq : m.listed port = m.entries[port]?.getD [] := by
  rw [listed, Std.ExtTreeMap.getD_eq_getD_getElem?]

theorem listed_empty : (empty : PortMap α).listed port = [] := by
  rw [listed_eq, empty, Std.ExtTreeMap.getElem?_empty, Option.getD_none]

/-- The empty map keeps no list. -/
theorem solid_empty : (empty : PortMap α).Solid := fun port ↦ by
  rw [empty, Std.ExtTreeMap.getElem?_empty]
  nofun

/-! ### The ports at which there is something -/

/-- Ports are listed in increasing order. -/
theorem ports_increasing : m.ports.Pairwise (· < ·) := by
  have hkeys : m.ports.Pairwise fun p q ↦ compare p q = .lt := Std.ExtTreeMap.ordered_keys
  exact hkeys.imp fun h ↦ compareOfLessAndEq_eq_lt.1 h

/-- The ports of a map are those at which something is listed. -/
theorem Solid.mem_ports_iff (hm : m.Solid) : port ∈ m.ports ↔ m.listed port ≠ [] := by
  rw [ports, Std.ExtTreeMap.mem_keys, Std.ExtTreeMap.mem_iff_isSome_getElem?, listed_eq]
  have hport := hm port
  cases he : m.entries[port]? with
  | none => simp
  | some as =>
    rw [he] at hport
    simpa using hport

/-- **Ports at which there is nothing do not matter**: what there is at all ports is what there is
at any ports that include those of the map. -/
theorem Solid.flatMap_ports {β : Type} (hm : m.Solid) {qs : List Port} (hqs : qs.Pairwise (· < ·))
    (hall : ∀ q, m.listed q ≠ [] → q ∈ qs) (f : Port → α → β) :
    m.ports.flatMap (fun q ↦ (m.listed q).map (f q)) = qs.flatMap fun q ↦
      (m.listed q).map (f q) := by
  have hports : m.ports = qs.filter fun q ↦ m.listed q ≠ [] := by
    refine PortSet.eq_of_mem_iff ports_increasing (hqs.filter _) fun q ↦ ?_
    rw [hm.mem_ports_iff, List.mem_filter, decide_eq_true_eq]
    exact ⟨fun hq ↦ ⟨hall q hq, hq⟩, And.right⟩
  rw [hports]
  clear hports hqs hall
  induction qs with
  | nil => rfl
  | cons q qs ih =>
    rw [List.filter_cons, List.flatMap_cons]
    split
    · rw [List.flatMap_cons, ih]
    · rename_i hq
      rw [ih, not_not.1 (mt decide_eq_true hq), List.map_nil, List.nil_append]

/-! ### Putting -/

theorem getElem?_push : (m.push port a).entries[q]? =
    if port = q then some (m.listed port ++ [a]) else m.entries[q]? := by
  rw [push, Std.ExtTreeMap.getElem?_alter, listed_eq]
  simp only [Std.compare_eq_iff_eq]

/-- **What is put at a port stands at its end.** -/
theorem listed_push : (m.push port a).listed q = if port = q then m.listed q ++ [a]
      else m.listed q := by
  rw [listed_eq, getElem?_push]
  split
  · rename_i h
    rw [h, Option.getD_some]
  · rw [listed_eq]

theorem mem_listed_push {b : α} : b ∈ (m.push port a).listed q ↔ b ∈ m.listed q ∨
    port = q ∧ b = a := by
  rw [listed_push]
  split <;> simp_all

/-- Lists without repetitions stay so, if what is put there is new. -/
theorem nodup_push (hm : ∀ q, (m.listed q).Nodup) (ha : a ∉ m.listed port) (q : Port) :
    ((m.push port a).listed q).Nodup := by
  rw [listed_push]
  split
  · rename_i hq
    exact List.concat_eq_append ▸ (hm q).concat (hq ▸ ha)
  · exact hm q

/-- Putting keeps no empty list. -/
theorem Solid.push (hm : m.Solid) : (m.push port a).Solid := fun q ↦ by
  rw [getElem?_push]
  split
  · simp
  · exact hm q

/-- The last that is put at a port stands at its end, **once, however many other ports there
are**. -/
theorem listed_pushAll : (m.pushAll ports a).listed q =
    if q ∈ ports.toList then m.listed q ++ [a] else m.listed q := by
  rw [pushAll]
  have hnodup : ports.toList.Nodup := ports.sorted.imp fun h ↦ UInt32.ne_of_lt h
  generalize ports.toList = ps at hnodup
  induction ps generalizing m with
  | nil => simp
  | cons p ps ih =>
    obtain ⟨hp, hps⟩ := List.nodup_cons.1 hnodup
    rw [List.foldl_cons, ih hps, listed_push]
    by_cases hq : p = q
    · subst hq
      simp [hp]
    · simp [hq, Ne.symm hq]

/-- Putting at several ports keeps no empty list. -/
theorem Solid.pushAll (hm : m.Solid) : (m.pushAll ports a).Solid := by
  rw [PortMap.pushAll]
  induction ports.toList generalizing m with
  | nil => exact hm
  | cons p ps ih => exact ih hm.push

/-! ### Taking -/

variable [DecidableEq α]

theorem getElem?_retract : (m.retract port a).entries[q]? =
    if port = q then (m.entries[q]?.map (·.filter (· ≠ a))).filter (· ≠ []) else m.entries[q]? := by
  rw [retract, Std.ExtTreeMap.getElem?_alter]
  simp only [Std.compare_eq_iff_eq]
  split
  · rename_i h
    rw [h]
  · rfl

/-- **What is taken from a port is listed there no more.** -/
theorem listed_retract : (m.retract port a).listed q =
    if port = q then (m.listed q).filter (· ≠ a) else m.listed q := by
  rw [listed_eq, getElem?_retract, listed_eq]
  split
  · cases m.entries[q]? with
    | none => rfl
    | some as =>
      rw [Option.map_some, Option.getD_some, Option.filter_some]
      split
      · rfl
      · rename_i h
        exact (not_not.1 (mt decide_eq_true h)).symm
  · rfl

/-- Taking something from a port filters all lists. -/
theorem listed_retract_eq_filter :
    (m.retract port a).listed q = (m.listed q).filter fun b ↦ ¬ (port = q ∧ b = a) := by
  rw [listed_retract]
  split <;> simp_all

theorem mem_listed_retract {b : α} :
    b ∈ (m.retract port a).listed q ↔ b ∈ m.listed q ∧ ¬ (port = q ∧ b = a) := by
  rw [listed_retract]
  split <;> simp_all

/-- Taking makes no repetitions. -/
theorem nodup_retract (hm : ∀ q, (m.listed q).Nodup) (q : Port) :
    ((m.retract port a).listed q).Nodup := by
  rw [listed_retract]
  split
  · exact (hm q).filter _
  · exact hm q

/-- Taking keeps no empty list. -/
theorem Solid.retract (hm : m.Solid) : (m.retract port a).Solid := fun q ↦ by
  rw [getElem?_retract]
  split
  · intro h
    simpa using Option.filter_eq_some_iff.1 h
  · exact hm q

/-- What is taken from several ports is listed at none of them. -/
theorem listed_retractAll : (m.retractAll ports a).listed q =
    if q ∈ ports.toList then (m.listed q).filter (· ≠ a) else m.listed q := by
  rw [retractAll]
  induction ports.toList generalizing m with
  | nil => simp
  | cons p ps ih =>
    rw [List.foldl_cons, ih, listed_retract]
    by_cases hq : p = q
    · subst hq
      simp
    · simp [hq, Ne.symm hq]

/-- Taking from several ports keeps no empty list. -/
theorem Solid.retractAll (hm : m.Solid) : (m.retractAll ports a).Solid := by
  rw [PortMap.retractAll]
  induction ports.toList generalizing m with
  | nil => exact hm
  | cons p ps ih => exact ih hm.retract

end HeaderFlow.PortMap
