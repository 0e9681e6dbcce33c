import HeaderFlow.Network.Query
import HeaderFlow.Proofs.Network.SafeMutation

/-!
# No change breaks a precondition

`Network.Arises` is the relation of all networks that there can be: any changes lead to them, also
such that were refused or broken off, as long as what is given with a change is coherent. **In such
a network no change and no question has a fault** (`Arises.no_fault`). The reasons are part of the
statement: every handle that can be reached from a node is live, every key in the directory and in a
table is that of a node that belongs there, and everything has the length of the headers. That
changes must be coherent cannot be left out: a probe that asks about longer headers is not refused
(`fault_longQuestion`).

That a change was broken off may leave a flow in the arena that is listed nowhere, and which
outlives the flow that it came from. So what is said about flows is said about those that are
listed.

## The invariant behind it

`Network.Stands` is kept by every step, wherever it stops, and `Network.Live` is what it says of
handles and keys without the set of flows that are hidden. The directory and the tables are kept
apart from the nodes and updated by every change, so that they agree with the nodes is a part of the
invariant and not of a definition.

The closed statements are about a network in which a change has been broken off. It has a flow whose
node does not list it, and still no question has a fault there.
-/

namespace HeaderFlow

variable {net : Network} {n : Nat} {G : Set Handle} {F : Arena Flow} {h : Handle} {f : Flow}

namespace Network

/-- Some changes led to the network. Whether they came to their end is of no account. -/
inductive Arises : Network → Prop
  | new (bytes : Nat) (settings : Settings) (clock : Clock := .still) :
    Arises (.new bytes settings clock)
  | apply {net : Network} (m : Mutation) :
    Arises net → net.Coherent m → Arises (net.apply m).network

/-- The flow is listed at a node. -/
def Lists (net : Network) (h : Handle) : Prop := ∃ m ∈ net.nodes, h ∈ m.flows

/-- What can be reached from the nodes is there, and so is what the directory and the tables
name. -/
structure Live (net : Network) : Prop where
  /-- The flows at a node. -/
  flows : ∀ m ∈ net.nodes, ∀ h ∈ m.flows, ∃ f, net.flows.find? h = some f ∧ f.node = m.key
  /-- What a flow came from and what came from it. -/
  kin : ∀ h f, net.Lists h → net.flows.find? h = some f →
    (∀ p, f.parent = some p → net.Lists p) ∧ ∀ c ∈ f.children, net.Lists c
  /-- The pipes of a node, their other sides, and the nodes there. -/
  pipes : ∀ m ∈ net.nodes, ∀ h ∈ m.next ++ m.prev, ∃ a b k, net.pipes.find? h = some a ∧
    a.node = m.key ∧ net.pipes.find? a.reverse = some b ∧ b.reverse = h ∧
    net.nodeAt? b.node = some k
  /-- The influences of a rule, and the two rules of each. -/
  influences : ∀ m ∈ net.nodes, ∀ k ∈ m.lost ++ m.won, ∃ i s t, net.influences.find? k = some i ∧
    net.nodeAt? i.influencer = some s ∧ net.nodeAt? i.influenced = some t
  /-- The node that goes by an identifier. -/
  ids : ∀ (id : NodeId) key, net.directory.ids[id]? = some key →
    ∃ m, net.nodeAt? key = some m ∧ m.id = id
  /-- The nodes that headers can enter by a port. -/
  entrances : ∀ port, ∀ key ∈ net.directory.entrances.listed port, ∃ m, net.nodeAt? key = some m ∧
    port ∈ m.inPorts.toList
  /-- The nodes that headers can leave by a port. -/
  exits : ∀ port, ∀ key ∈ net.directory.exits.listed port, ∃ m, net.nodeAt? key = some m ∧
    port ∈ m.outPorts.toList
  /-- The rules of a table. -/
  rules : ∀ t ∈ net.tables, ∀ (index : UInt32) key, t.rules[index]? = some key → ∃ m r,
    net.nodeAt? key = some m ∧ m.rule? = some r ∧ r.table = t.id ∧ r.index = index
  /-- The sources and the probes. -/
  plain : (∀ key ∈ net.directory.sources, ∃ m, net.nodeAt? key = some m ∧ m.type = .source) ∧
    ∀ key ∈ net.directory.probes, ∃ m, net.nodeAt? key = some m ∧ m.type = .sourceProbe

/-! ### Networks that stand are live -/

/-- In a firm network every flow is listed. -/
theorem Firm.lists (hfirm : net.Firm) (hf : net.flows.find? h = some f) : net.Lists h := by
  obtain ⟨c, hc⟩ := hfirm.inv.core hf
  obtain ⟨m, hm, -⟩ := Engine.exists_nodeAt? hc
  obtain ⟨-, hall⟩ := Engine.at_of_mem_flows hfirm.inv hm
  exact ⟨m, (Engine.nodeAt?_eq_some hm).1, hall h f hf rfl⟩

/-- What is kept to find nodes leads to nodes that are there. -/
theorem there_of_mem_map (hL : net.layout.WellFormed) {P : Core → Prop} [DecidablePred P]
    {key : NodeKey} (hkey : key ∈ (net.layout.cores.filter P).map Core.key) :
    ∃ m, net.nodeAt? key = some m ∧ P m.core := by
  obtain ⟨c, hc, rfl⟩ := List.mem_map.1 hkey
  obtain ⟨hc, hP⟩ := List.mem_filter.1 hc
  obtain ⟨m, hm, rfl⟩ := Engine.exists_nodeAt? (Layout.core?_of_mem hL.nodup hc)
  exact ⟨m, hm, of_decide_eq_true hP⟩

/-- In a firm network all handles that can be reached are live. -/
theorem Firm.live (hfirm : net.Firm) : net.Live := by
  have hL := hfirm.inv.layout
  have hat : ∀ m ∈ net.nodes, net.nodeAt? m.key = some m := fun _ hm ↦
    nodeAt?_of_mem (map_key_cores net ▸ hL.nodup) hm
  have hthere : ∀ {key c}, net.layout.core? key = some c → ∃ m, net.nodeAt? key = some m :=
    fun hc ↦ (Engine.exists_nodeAt? hc).imp fun _ hm ↦ hm.1
  refine ⟨fun m hm h hh ↦ ?_, fun h f _ hf ↦ ⟨fun p hp ↦ ?_, fun c hc ↦ ?_⟩, fun m hm h hh ↦ ?_,
    fun m hm k hk ↦ ?_, fun id key hkey ↦ ?_, fun port key hkey ↦ ?_, fun port key hkey ↦ ?_,
    fun t ht index key hkey ↦ ?_, fun key hkey ↦ ?_, fun key hkey ↦ ?_⟩
  · have hroster : net.roster m.key = m.flows := tied_of_nodeAt? (hat m hm)
    exact hfirm.inv.listed.only m.key h (hroster ▸ hh)
  · obtain ⟨g, hg⟩ := hfirm.inv.forest.parent_live hf hp
    exact hfirm.lists hg
  · obtain ⟨g, hg, -⟩ := hfirm.inv.forest.children h f c hf hc
    exact hfirm.lists hg
  · have hnext : net.layout.next m.key = m.next := tied_of_nodeAt? (hat m hm)
    have hprev : net.layout.prev m.key = m.prev := tied_of_nodeAt? (hat m hm)
    rcases List.mem_append.1 hh with hh | hh
    · obtain ⟨_, a, b, _, _, hj, hnode⟩ := hfirm.inv.layout.next m.key h (hnext ▸ hh)
      obtain ⟨k, hk⟩ := hthere hj.receiver
      exact ⟨a, b, k, hj.front, hnode, hj.reverse ▸ hj.rear, hj.obverse, hk⟩
    · obtain ⟨_, a, b, _, _, hj, hnode⟩ := hfirm.inv.layout.prev m.key h (hprev ▸ hh)
      obtain ⟨k, hk⟩ := hthere hj.sender
      exact ⟨b, a, k, hj.rear, hnode, hj.obverse ▸ hj.front, hj.reverse, hk⟩
  · have hlost : net.layout.lost m.key = m.lost := tied_of_nodeAt? (hat m hm)
    have hwon : net.layout.won m.key = m.won := tied_of_nodeAt? (hat m hm)
    have hranks : ∃ i, net.influences.find? k = some i ∧ ∃ c d, net.layout.Ranks k i c d := by
      rcases List.mem_append.1 hk with hk | hk
      · obtain ⟨i, hi, -, hranks⟩ := hfirm.ordered.lost m.key k (hlost ▸ hk)
        exact ⟨i, hi, hranks (Set.notMem_empty k)⟩
      · obtain ⟨i, hi, -, hranks⟩ := hfirm.ordered.won m.key k (hwon ▸ hk)
        exact ⟨i, hi, hranks (Set.notMem_empty k)⟩
    obtain ⟨i, hi, c, d, hranks⟩ := hranks
    obtain ⟨s, hs⟩ := hthere hranks.influencer
    obtain ⟨t, ht⟩ := hthere hranks.influenced
    exact ⟨i, s, t, hi, hs, ht⟩
  · obtain ⟨c, hc, rfl, hid⟩ := hL.found.of_id hkey
    obtain ⟨m, hm, rfl⟩ := Engine.exists_nodeAt? (Layout.core?_of_mem hL.nodup hc)
    exact ⟨m, hm, hid⟩
  · exact there_of_mem_map hL (hL.found.entrances.listed port ▸ hkey)
  · exact there_of_mem_map hL (hL.found.exits.listed port ▸ hkey)
  · obtain ⟨c, hc, rfl, w, hw⟩ := (hL.found.rules t ht index key).1 hkey
    obtain ⟨m, hm, rfl⟩ := Engine.exists_nodeAt? (Layout.core?_of_mem hL.nodup hc)
    obtain ⟨r, hr⟩ := rule?_of_kind hw
    exact ⟨m, r, hm, hr⟩
  · obtain ⟨m, hm, htype⟩ :=
      there_of_mem_map (P := (·.kind.type = .source)) hL (hL.found.sources ▸ hkey)
    exact ⟨m, hm, m.type_core ▸ htype⟩
  · obtain ⟨m, hm, htype⟩ :=
      there_of_mem_map (P := (·.kind.type = .sourceProbe)) hL (hL.found.probes ▸ hkey)
    exact ⟨m, hm, m.type_core ▸ htype⟩

/-- Hidden flows are not listed. -/
theorem Live.withFlows (hlive : net.Live) (hH : net.Hides n G F) : (net.withFlows F).Live where
  flows m hm h hh := by
    obtain ⟨f, hf, hnode⟩ := hlive.flows m hm h hh
    exact ⟨f, hH.flows.find_some hf, hnode⟩
  kin h f hlists hf := by
    obtain ⟨m, hm, hh⟩ := id hlists
    obtain ⟨g, hg, -⟩ := hlive.flows m hm h hh
    obtain rfl := Option.some.inj (hf.symm.trans (hH.flows.find_some hg))
    exact hlive.kin h f hlists hg
  pipes := hlive.pipes
  influences := hlive.influences
  ids := hlive.ids
  entrances := hlive.entrances
  exits := hlive.exits
  rules := hlive.rules
  plain := hlive.plain

/-- **In a network that stands all handles that can be reached are live**, hidden flows being out of
reach. -/
theorem Stands.live (hs : net.Stands) : net.Live := by
  obtain ⟨G, core, hfirm, hH, hnet⟩ := hs
  exact hnet ▸ hfirm.live.withFlows hH

/-! ### All networks -/

/-- There is nothing in a new network that could be dead. -/
theorem new_stands (bytes : Nat) (settings : Settings) (clock : Clock) :
    (Network.new bytes settings clock).Stands := by
  refine (new_atRest bytes settings clock).firm.stands (G := ∅) ⟨rfl, .refl Arena.valid_empty, ?_⟩
  refine ⟨by rintro m ⟨⟩, fun h p hp ↦ ?_, fun k i hi ↦ ?_, fun h f hf ↦ ?_⟩
  · exact absurd hp (Arena.find?_empty_ne h p)
  · exact absurd hi (Arena.find?_empty_ne k i)
  · exact absurd hf (Arena.find?_empty_ne h f)

/-- **Every network that can arise stands.** -/
theorem Arises.stands (ha : Arises net) : net.Stands := by
  induction ha with
  | new bytes settings clock => exact new_stands bytes settings clock
  | @apply net m _ hm ih =>
    by_cases hid : net.Identifies m
    · exact (apply_stands ih hm hid).1
    · exact (apply_of_exhausted hid).1.symm ▸ ih

/-- A node that the directory names is there. -/
theorem faultless_require (hL : net.layout.WellFormed) (id : NodeId) : Faultless (net.require id) :=
  fun f hf ↦ (unbroken_require hL id _ hf).1 f rfl

/-- **No change and no question has a fault**, because all handles and keys that it follows are live
and all headers that it compares have one length. Only when all identifiers have been given is there
none for what a change adds, which then leaves the network as it is. -/
theorem Arises.no_fault (ha : Arises net) : net.Live ∧ net.Fit ∧
    (∀ m, net.Coherent m → ∀ f, (net.apply m).result = .error (.fault f) →
      f = .identifiersExhausted ∧ ¬ net.Identifies m ∧ (net.apply m).network = net) ∧
    ∀ id, Faultless (net.pipeStats id) ∧ Faultless (net.flowStats id) ∧
      Faultless (net.flowsAt id) ∧ Faultless (net.requireProbe id) := by
  have hs := ha.stands
  refine ⟨hs.live, hs.fit, fun m hm f hf ↦ ?_, fun id ↦ ?_⟩
  · have hid : ¬ net.Identifies m := fun hid ↦ (apply_stands hs hm hid).2 f hf
    exact ⟨(apply_of_exhausted hid).2 f hf, hid, (apply_of_exhausted hid).1⟩
  have hrequire := faultless_require hs.wellFormed id
  refine ⟨hrequire.bind fun _ ↦ faultless_ok, hrequire.bind fun _ ↦ faultless_ok,
    hrequire.bind fun _ ↦ faultless_ok, hrequire.bind fun m ↦ ?_⟩
  cases m.probe? with
  | none => exact fun _ he ↦ by cases he
  | some p => exact faultless_ok

/-- Nested visits are not allowed here, so a source cannot send its headers on to a rule. -/
def brokenOff : Network :=
  [.addTable 1 [11, 12], .addLink ⟨1, 11⟩,
    .addRule { table := 1, index := 1, inPorts := [], outPorts := [12], accepts := .allWild 1 },
    .addSourcePattern (.allWild 1) [1]].foldl (fun net m ↦ (net.apply m).network)
    (.new 1 { Settings.default with maxDepth := 1 })

/-- The flow that was on its way to the rule is listed nowhere. -/
theorem no_fault_brokenOff : brokenOff.consistent = false ∧
    ((brokenOff.flows.find? ⟨1, 0⟩).isSome ∧ ∀ m ∈ brokenOff.nodes, ⟨1, 0⟩ ∉ m.flows) ∧
    brokenOff.Live ∧ Faultless (brokenOff.apply (.removeTable 1)).result := by
  have harises : Arises brokenOff := .apply _ (.apply _ (.apply _ (.apply _ (.new _ _) trivial)
    trivial) trivial) trivial
  obtain ⟨hlive, -, hchanges, -⟩ := harises.no_fault
  exact ⟨by decide +kernel, by decide +kernel, hlive,
    fun f hf ↦ (hchanges (.removeTable 1) trivial f hf).2.1 trivial⟩

/-- A probe of a network with headers of one byte asks about a header of two bytes, and is not
refused. -/
def longQuestion : Network × (NodeKey → Option Space) :=
  (replay [.addProbe {
      mode := .existential, filter := .always, ports := [21]
      test := .header (.ofPattern ((Pattern.allWild 2).put 8 .one)) },
    .addLink ⟨1, 21⟩] (.new 1 .default, fun _ ↦ none)).get (by decide +kernel)

/-- **What a probe asks about has to be coherent**: the change that sends a flow to this one has a
fault. -/
theorem fault_longQuestion :
    (longQuestion.1.apply (.addSourcePattern (.allWild 1) [1])).result =
      .error (.fault (.widthMismatch 2 1)) := by
  have hmap : (longQuestion.1.apply (.addSourcePattern (.allWild 1) [1])).result.map (fun _ ↦ ()) =
      .error (.fault (.widthMismatch 2 1)) := by
    decide +kernel
  cases hresult : (longQuestion.1.apply (.addSourcePattern (.allWild 1) [1])).result with
  | error e => rw [hresult] at hmap; exact congrArg _ (Except.error.inj hmap)
  | ok reply => rw [hresult] at hmap; cases hmap

end Network

end HeaderFlow
