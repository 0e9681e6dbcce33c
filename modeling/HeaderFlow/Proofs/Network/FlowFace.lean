import HeaderFlow.Proofs.Faults
import HeaderFlow.Proofs.Network.Upkeep

/-!
# Steps beside the flows

Pipes, influences and the lists that nodes keep of them change a good deal, and much of what is
known of a network does not depend on them. The *face* of a network is the rest: its flows, and of
each node what it is, its probe and the flows that it lists. `Engine.Aside` says of a computation
that it leaves the face as it is, wherever it stops, and that no count is short in it.

**Wiring and influences stand aside**, up to the points where flows are sent, dropped or refreshed
on account of them. So does everything that is only asked on the way. Whatever depends on the face
alone is kept by all of these, and needs to be followed through the other steps only.

## What uses it

Two invariants depend on the face alone: that listed flows and counts agree (`Network.Books`), and
what probes know of the flows at their nodes. Both are followed through propagation by hand and
through everything else by `Aside.ends`. The steps of this module are therefore all of those that
are neither a visit nor a change of a flow, of a list of flows, or of a probe.
-/

namespace HeaderFlow

open Engine Checked

variable {α β : Type} {net net' : Network} {key : NodeKey} {m n : Node}

/-- What the node is, its probe, and the flows that it lists. -/
def Node.face (n : Node) : Core × Option Probe × List Handle := (n.core, n.probe?, n.flows)

/-- The faces of the nodes, the flows, and the key of the next node. -/
def Network.face (net : Network) :
    List (Core × Option Probe × List Handle) × Arena Flow × NodeKey :=
  (net.nodes.map Node.face, net.flows, net.nextKey)

namespace Node

/-- What a node is can be read off its face. -/
theorem core_of_face (hface : m.face = n.face) : m.core = n.core := congrArg Prod.fst hface

theorem key_of_face (hface : m.face = n.face) : m.key = n.key := congrArg (·.1.key) hface

/-- The probe of a node can be read off its face. -/
theorem probe?_of_face (hface : m.face = n.face) : m.probe? = n.probe? := congrArg (·.2.1) hface

theorem flows_of_face (hface : m.face = n.face) : m.flows = n.flows := congrArg (·.2.2) hface

end Node

namespace Network

theorem flows_of_face (hface : net'.face = net.face) : net'.flows = net.flows :=
  congrArg (·.2.1) hface

theorem nextKey_of_face (hface : net'.face = net.face) : net'.nextKey = net.nextKey :=
  congrArg (·.2.2) hface

theorem nodes_of_face (hface : net'.face = net.face) :
    net'.nodes.map Node.face = net.nodes.map Node.face :=
  congrArg Prod.fst hface

/-- Networks with the same face have the same nodes, by key. -/
theorem keys_of_face (hface : net'.face = net.face) :
    net'.nodes.map Node.key = net.nodes.map Node.key := by
  have hkeys := congrArg (List.map (·.1.key)) (nodes_of_face hface)
  rwa [List.map_map, List.map_map] at hkeys

/-- Every node was there before, with the same face. -/
theorem exists_of_face (hface : net'.face = net.face) (hn : n ∈ net'.nodes) :
    ∃ m ∈ net.nodes, m.face = n.face :=
  List.mem_map.1 (nodes_of_face hface ▸ List.mem_map_of_mem hn)

/-- A node has changed, but not its face. -/
theorem face_withNode {e : Node → Node} (he : ∀ n, (e n).face = n.face) :
    (withNode net key e).face = net.face := by
  have hnodes : (withNode net key e).nodes.map Node.face = net.nodes.map Node.face := by
    rw [withNode, List.map_map]
    refine List.map_congr_left fun n _ ↦ ?_
    rw [Function.comp_apply]
    split
    · exact he n
    · rfl
  exact Prod.ext hnodes rfl

end Network

namespace Engine

variable {p : Progress} {x : Engine α} {k : α → Engine β} {P : Network → Prop}

/-- **The computation leaves the face as it is**, wherever it stops, and is not halted because a
count is short. -/
def Aside (x : Engine α) : Prop :=
  ∀ p, Stops x p (fun e p' ↦ p'.network.face = p.network.face ∧ ∀ f, e = .fault f → f.NotCount)
    fun _ p' ↦ p'.network.face = p.network.face

/-- What depends on the face alone is kept. -/
theorem Aside.ends (hx : Aside x) (hP : ∀ net', net'.face = net.face → P net') :
    Ends x net P fun _ ↦ P := by
  intro reports
  have hstops := hx ⟨net, reports⟩
  rw [Stops] at hstops
  split <;> simp_all

/-- The face after a computation that stands aside is the one before. -/
theorem Aside.leads {a : α} (hx : Aside x) (hl : Leads x net a net') : net'.face = net.face := by
  obtain ⟨reports, reports', hrun⟩ := hl
  have hstops := hx ⟨net, reports⟩
  rwa [Stops, hrun] at hstops

theorem aside_pure {a : α} : Aside (pure a : Engine α) := fun _ ↦ rfl

/-- A sequence stands aside if its parts do. -/
theorem Aside.bind (hx : Aside x) (hk : ∀ a, Aside (k a)) : Aside (x >>= k) := fun p ↦
  (hx p).bind fun a p' hface ↦ (hk a p').mono (fun _ _ hend ↦ ⟨hend.1.trans hface, hend.2⟩)
    fun _ _ hend ↦ hend.trans hface

/-- A walk along a list stands aside if its steps do. -/
theorem Aside.forM {body : α → Engine Unit} (hbody : ∀ a, Aside (body a)) :
    ∀ l : List α, Aside (l.forM body)
  | [] => aside_pure
  | a :: l => Aside.bind (k := fun _ ↦ l.forM body) (hbody a) fun _ ↦ Aside.forM hbody l

theorem Aside.discard (hx : Aside x) : Aside (discard x) := by
  change Aside ((fun _ ↦ ()) <$> x)
  rw [map_eq_pure_bind]
  exact hx.bind fun _ ↦ aside_pure

/-! ### Asking and reporting -/

/-! ### Elementary steps

Reading, reporting, and updates that leave the face alone. -/

theorem aside_network : Aside network := fun _ ↦ rfl

/-- A question stands aside unless it is about a count. -/
theorem aside_ask {q : Network → Checked α} (hq : ∀ net, Faults Fault.NotCount (q net)) :
    Aside (ask q) := by
  intro p
  rw [← bind_pure (ask q)]
  exact Stops.ask_bind (fun f hf ↦ ⟨rfl, fun _ heq ↦ Halt.fault.inj heq ▸ hq _ f hf⟩) fun _ _ ↦ rfl

theorem aside_check {c : Checked α} (hc : Faults Fault.NotCount c) : Aside (check c) :=
  aside_ask fun _ ↦ hc

theorem aside_node (key : NodeKey) : Aside (node key) := aside_ask fun net ↦ net.faults_node key

theorem aside_pipe? (h : Handle) : Aside (pipe? h) := aside_network.bind fun _ ↦ aside_pure

theorem aside_event : Aside event := aside_network.bind fun _ ↦ aside_pure

theorem aside_report (r : Report) : Aside (report r) := fun _ ↦ rfl

/-- What influences take is read off the network. -/
theorem aside_subtractInfluences (port : Port) :
    ∀ (ks : List Handle) (s : Space), Aside (subtractInfluences port ks s)
  | [], _ => aside_pure
  | k :: ks, s => by
    refine (aside_ask fun net ↦ net.influences.faults_get k).bind fun i ↦ ?_
    split
    · exact (aside_check (s.faults_cut _).notCount).bind fun s' ↦
        aside_subtractInfluences port ks s'
    · exact aside_subtractInfluences port ks s

theorem aside_blocked (key : NodeKey) (h : Handle) (port : Port) : Aside (blocked key h port) := by
  refine (aside_node key).bind fun n ↦ ?_
  split
  · exact aside_pure
  · exact aside_ask fun net ↦ net.faults_enteredBy _ _

theorem aside_reportLost (key : NodeKey) (h : Handle) (side back : Pipe) (processed out : Space)
    (measure : Measure) : Aside (reportLost key h side back processed out measure) := by
  refine aside_network.bind fun net ↦ ?_
  split
  · exact aside_pure
  · refine (aside_check ?_).bind fun lost ↦ ?_
    · split <;> exact (Space.faults_isStrictSubset _ _).notCount
    · split
      · exact (aside_node _).bind fun _ ↦ (aside_node _).bind fun _ ↦ aside_event.bind fun _ ↦
          aside_report _
      · exact aside_pure

/-! ### Updating -/

theorem aside_update {e : Network → Network} (he : ∀ net, (e net).face = net.face) :
    Aside (update e) :=
  fun p ↦ he p.network

/-- A node may be updated as long as its face stays. -/
theorem aside_updateNode (key : NodeKey) {e : Node → Node} (he : ∀ n, (e n).face = n.face) :
    Aside (updateNode key e) := aside_update fun _ ↦ Network.face_withNode he

theorem aside_alterNode (key : NodeKey) {e : Node → Node} (he : ∀ n, (e n).face = n.face) :
    Aside (alterNode key e) := (aside_node key).bind fun _ ↦ aside_updateNode key he

theorem aside_setEvent (e : Event) : Aside (setEvent e) := aside_update fun _ ↦ rfl

/-! ### Wiring -/

/-! ### Wiring and influences

One lemma for each of the steps of the engine, in the order in which the engine has them. -/

theorem aside_addPipe (w : Wire) : Aside (addPipe w) :=
  aside_network.bind fun _ ↦ (aside_update (by exact fun _ ↦ rfl)).bind fun _ ↦
    aside_network.bind fun _ ↦ (aside_update (by exact fun _ ↦ rfl)).bind fun _ ↦
      (aside_alterNode _ (by exact fun _ ↦ rfl)).bind fun _ ↦
        (aside_alterNode _ (by exact fun _ ↦ rfl)).bind fun _ ↦ aside_pure

theorem aside_removeSide (h : Handle) (side : Pipe) : Aside (removeSide h side) :=
  (aside_update (by exact fun _ ↦ rfl)).bind fun _ ↦ aside_updateNode _ (by exact fun _ ↦ rfl)

theorem aside_removePipe (h : Handle) : Aside (removePipe h) := by
  refine (aside_pipe? h).bind fun o ↦ ?_
  split
  · refine (aside_removeSide _ _).bind fun _ ↦ (aside_pipe? _).bind fun o ↦ ?_
    split
    · exact aside_removeSide _ _
    · exact aside_pure
  · exact aside_pure

/-- **Connecting stands aside**: pipes are no part of the face. -/
theorem aside_connect (key : NodeKey) : Aside (connect key) :=
  (aside_node key).bind fun _ ↦ (aside_ask fun net ↦ net.faults_wiresOf _).bind fun ws ↦
    .forM (fun w ↦ (aside_addPipe w).discard) ws

/-- **Disconnecting stands aside**, once the flows that came by the pipes are gone. -/
theorem aside_disconnect (key : NodeKey) : Aside (disconnect key) :=
  (aside_node key).bind fun _ ↦ .forM aside_removePipe _

/-! ### Influences -/

/-- The influences that a rule lists may change. -/
theorem aside_mapRule (key : NodeKey) {c : Rule → Rule} (hc : ∀ r, (c r).table = r.table ∧
    (c r).index = r.index ∧ (c r).overwrite = r.overwrite) :
    Aside (updateNode key (Node.mapRule c)) := by
  refine aside_updateNode key fun n ↦ ?_
  have hrest : (n.mapRule c).probe? = n.probe? ∧ (n.mapRule c).flows = n.flows := by
    cases hrole : n.role <;> simp [Node.mapRule, Node.probe?, hrole]
  rw [Node.face, Node.core_mapRule hc, hrest.1, hrest.2, Node.face]

theorem aside_addInfluence (i : Influence) : Aside (addInfluence i) :=
  aside_network.bind fun _ ↦ (aside_update (by exact fun _ ↦ rfl)).bind fun _ ↦
    ((aside_node _).bind fun _ ↦ aside_mapRule _ (by exact fun _ ↦ ⟨rfl, rfl, rfl⟩)).bind fun _ ↦
      (aside_node _).bind fun _ ↦ aside_mapRule _ (by exact fun _ ↦ ⟨rfl, rfl, rfl⟩)

theorem aside_reportCoverage (id : NodeId) (c : Coverage) : Aside (reportCoverage id c) := by
  rw [reportCoverage]
  split
  · exact aside_event.bind fun _ ↦ aside_report _
  · split
    · exact aside_event.bind fun _ ↦ aside_report _
    · exact aside_pure

/-- **Relating a rule stands aside**: influences are no part of the face. -/
theorem aside_relate (key : NodeKey) : Aside (relate key) := by
  refine (aside_node key).bind fun n ↦ ?_
  split
  · split
    · exact (aside_ask fun net ↦ net.faults_rulesOf _).bind fun _ ↦
        (aside_check (Network.faults_influencesWith _ _ _ _)).bind fun _ ↦
        (aside_ask fun net ↦ net.faults_coverageAbove _ _ _).bind fun _ ↦
          (Aside.forM aside_addInfluence _).bind fun _ ↦ aside_reportCoverage _ _
    · exact aside_pure
  · exact aside_pure

theorem aside_removeInfluence (k : Handle) : Aside (removeInfluence k) :=
  aside_network.bind fun _ ↦ (aside_update (by exact fun _ ↦ rfl)).bind fun _ ↦ aside_pure

theorem aside_dropLost (k : Handle) : Aside (dropLost k) := by
  refine (aside_removeInfluence k).bind fun o ↦ ?_
  split
  · exact (aside_node _).bind fun _ ↦ aside_mapRule _ (by exact fun _ ↦ ⟨rfl, rfl, rfl⟩)
  · exact aside_pure

theorem aside_dropWon : ∀ ks : List Handle, Aside (dropWon ks)
  | [] => aside_pure
  | k :: ks => by
    refine (aside_removeInfluence k).bind fun o ↦ ?_
    split
    · exact aside_dropWon ks
    · exact (aside_node _).bind fun _ ↦
        (aside_mapRule _ (by exact fun _ ↦ ⟨rfl, rfl, rfl⟩)).bind fun _ ↦
        (aside_dropWon ks).bind fun _ ↦ aside_pure

end Engine

end HeaderFlow
