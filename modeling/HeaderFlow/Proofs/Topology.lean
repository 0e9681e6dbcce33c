import HeaderFlow.Network.Basic
import HeaderFlow.Proofs.PortMap

/-!
# The two records of a link

A link is entered at the port from which it leads and at the port to which it leads. Headers are
sent on by the one record and a new node finds the nodes before it by the other, so pipes depend on
both. `Topology.Mirrored` says that **the two records tell the same**, that none tells of a link
twice, and that nothing is left of a link that is gone. Adding and removing a link write the records
one after the other, and keep that up.

Whoever asks for the links themselves reads the first record (`Topology.mem_links`).
-/

namespace HeaderFlow.Topology

variable {t : Topology} {l k : Link}

/-- Both records of the links tell the same, every link once. -/
structure Mirrored (t : Topology) : Prop where
  mirror : ∀ q p, p ∈ t.targets.listed q ↔ q ∈ t.origins.listed p
  nodupTargets : ∀ q, (t.targets.listed q).Nodup
  nodupOrigins : ∀ p, (t.origins.listed p).Nodup
  solidTargets : t.targets.Solid
  solidOrigins : t.origins.Solid

/-- The links are those of the first record. -/
theorem mem_links : l ∈ t.links ↔ l.target ∈ t.targets.listed l.source := by
  simp only [links, List.mem_flatMap, List.mem_map]
  constructor
  · rintro ⟨q, -, p, hp, rfl⟩
    exact hp
  · intro hl
    refine ⟨l.source, ?_, l.target, hl, rfl⟩
    rw [PortMap.ports, Std.ExtTreeMap.mem_keys, Std.ExtTreeMap.mem_iff_isSome_getElem?]
    rw [PortMap.listed_eq] at hl
    cases he : t.targets.entries[l.source]? with
    | none => simp [he] at hl
    | some ps => rfl

/-- The second record tells of the same links. -/
theorem Mirrored.mem_origins (ht : t.Mirrored) :
    l.source ∈ t.origins.listed l.target ↔ l ∈ t.links :=
  (ht.mirror _ _).symm.trans mem_links.symm

/-- No link is told of twice. -/
theorem Mirrored.nodup_links (ht : t.Mirrored) : t.links.Nodup := by
  rw [links, List.nodup_flatMap]
  refine ⟨fun q _ ↦ (ht.nodupTargets q).map fun p p' he ↦ (Link.mk.inj he).2, ?_⟩
  refine PortMap.ports_increasing.imp fun {q q'} hlt ↦ List.disjoint_left.2 ?_
  intro l hl hl'
  obtain ⟨p, -, rfl⟩ := List.mem_map.1 hl
  obtain ⟨p', -, he⟩ := List.mem_map.1 hl'
  exact UInt32.ne_of_lt hlt (Link.mk.inj he).1.symm

/-! ### Links that come and go -/

/-- Empty records tell the same. -/
theorem mirrored_empty : empty.Mirrored where
  mirror _ _ := by simp only [empty, PortMap.listed_empty, List.not_mem_nil]
  nodupTargets _ := PortMap.listed_empty ▸ List.nodup_nil
  nodupOrigins _ := PortMap.listed_empty ▸ List.nodup_nil
  solidTargets := PortMap.solid_empty
  solidOrigins := PortMap.solid_empty

/-- Which links there are when one was added. -/
theorem mem_links_join : k ∈ (t.join l).links ↔ k ∈ t.links ∨ k = l := by
  rw [mem_links, mem_links, join, PortMap.mem_listed_push]
  obtain ⟨q, p⟩ := k
  obtain ⟨q', p'⟩ := l
  simp [eq_comm]

/-- **Adding a link keeps the records in step.** -/
theorem Mirrored.join (ht : t.Mirrored) (hl : l ∉ t.links) : (t.join l).Mirrored where
  mirror q p := by
    simp only [Topology.join, PortMap.mem_listed_push, ht.mirror]
    tauto
  nodupTargets := PortMap.nodup_push ht.nodupTargets fun hmem ↦ hl (mem_links.2 hmem)
  nodupOrigins := PortMap.nodup_push ht.nodupOrigins fun hmem ↦ hl (ht.mem_origins.1 hmem)
  solidTargets := ht.solidTargets.push
  solidOrigins := ht.solidOrigins.push

/-- **Removing a link keeps the records in step.** -/
theorem Mirrored.cut (ht : t.Mirrored) : (t.cut l).Mirrored where
  mirror q p := by
    simp only [Topology.cut, PortMap.mem_listed_retract, ht.mirror]
    tauto
  nodupTargets := PortMap.nodup_retract ht.nodupTargets
  nodupOrigins := PortMap.nodup_retract ht.nodupOrigins
  solidTargets := ht.solidTargets.retract
  solidOrigins := ht.solidOrigins.retract

/-- **A link that is removed leaves the other links in their order.** -/
theorem Mirrored.links_cut (ht : t.Mirrored) : (t.cut l).links = t.links.filter (· ≠ l) := by
  have hall : ∀ q, (t.cut l).targets.listed q ≠ [] → q ∈ t.targets.ports := fun q hq ↦ by
    obtain ⟨p, hp⟩ := List.exists_mem_of_ne_nil _ hq
    exact ht.solidTargets.mem_ports_iff.2 (List.ne_nil_of_mem (PortMap.mem_listed_retract.1 hp).1)
  rw [links, ht.cut.solidTargets.flatMap_ports PortMap.ports_increasing hall, links,
    List.filter_flatMap]
  refine List.flatMap_congr fun q _ ↦ ?_
  rw [Topology.cut, PortMap.listed_retract, List.filter_map]
  split
  · rename_i hq
    subst hq
    refine congrArg _ (List.filter_congr fun p _ ↦ ?_)
    obtain ⟨q, p'⟩ := l
    simp
  · rename_i hq
    refine congrArg _ (List.filter_eq_self.2 fun p _ ↦ ?_).symm
    simpa using fun he ↦ hq (congrArg Link.source he).symm

end HeaderFlow.Topology
