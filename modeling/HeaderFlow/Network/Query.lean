import HeaderFlow.Network.Report

/-!
# Questions about a network

What can be asked about a network without changing it: numbers of pipes and of headers, the flows at
a node, the state of a probe. `Network.snapshot` exports tables, links, sources with their trees of
flows, and probes as one document.
-/

namespace HeaderFlow

open Document (Value)

/-- The numbers of pipes and influences at a node. -/
structure PipeStats where
  /-- Pipes that leave. -/
  forward : Nat
  /-- Pipes that lead here. -/
  backward : Nat
  /-- Rules of lower priority that this rule takes headers from. -/
  effects : Nat
  /-- Rules of higher priority that take headers from this rule. -/
  influences : Nat
  deriving DecidableEq

/-- The numbers of regions and holes in what leaves a node. -/
structure FlowStats where
  included : Nat
  excluded : Nat
  deriving DecidableEq

namespace Network

/-- The node with an identifier, if there is one; what the directory says must be there. -/
def require (net : Network) (id : NodeId) : Except NetworkError Node :=
  match net.directory.ids[id]? with
  | some key => (net.node key).mapError .fault
  | none => .error (.nodeNotFound id)

/-- The probe with an identifier. -/
def requireProbe (net : Network) (id : NodeId) : Except NetworkError Probe := do
  match (← net.require id).probe? with
  | some p => return p
  | none => throw (.wrongNodeType id .probe)

/-- The numbers of pipes and influences at a node. -/
def pipeStats (net : Network) (id : NodeId) : Except NetworkError PipeStats := do
  let n ← net.require id
  let r := n.rule?
  return ⟨n.next.length, n.prev.length, (r.map (·.effectOn.length)).getD 0,
    (r.map (·.influencedBy.length)).getD 0⟩

/-- What leaves a node, flow by flow. -/
def processedAt (net : Network) (n : Node) : List Space :=
  n.flows.filterMap fun h ↦ (net.flows.find? h).bind Flow.processed

/-- The numbers of regions and holes in what leaves a node. -/
def flowStats (net : Network) (id : NodeId) : Except NetworkError FlowStats := do
  let spaces := net.processedAt (← net.require id)
  return ⟨tally Space.count spaces, tally Space.countHoles spaces⟩

/-- The flows at a node, in the order in which they arrived. -/
def flowsAt (net : Network) (id : NodeId) : Except NetworkError (List Handle) :=
  (net.require id).map Node.flows

/-- The node at which a flow is. -/
def flowNode? (net : Network) (h : Handle) : Option NodeId := do
  let f ← net.flows.find? h
  let n ← net.nodeAt? f.node
  return n.id

/-- The identifiers of all nodes, by increasing number. -/
def nodeIds (net : Network) : List NodeId := net.directory.ids.keys

/-- The identifiers of the sources, in the order in which they were added. -/
def sourceIds (net : Network) : List NodeId :=
  (net.directory.sources.filterMap net.nodeAt?).map Node.id

/-- The identifiers of the probes, in the order in which they were added. -/
def probeIds (net : Network) : List NodeId :=
  (net.directory.probes.filterMap net.nodeAt?).map Node.id

/-- The numbers of the tables, in increasing order. -/
def tableIds (net : Network) : List TableId := net.tables.map Table.id

/-- The ports of a table. -/
def tablePorts? (net : Network) (id : TableId) : Option PortSet := (net.table? id).map Table.ports

/-- The rules of a table, by decreasing priority. -/
def tableRules? (net : Network) (id : TableId) : Option (List NodeId) :=
  (net.table? id).map fun t ↦ (t.rules.values.filterMap net.nodeAt?).map Node.id

/-- All links, by increasing ports. -/
def sortedLinks (net : Network) : List Link :=
  net.links.mergeSort fun a b ↦
    a.source < b.source || (a.source == b.source && a.target ≤ b.target)

/-! ### Export -/

/-- The members of a set of ports. -/
def portsValue (s : PortSet) : Value := .seq (s.toList.map fun p ↦ .nat p.toNat)

/-- The written form of an identifier. -/
def idValue (id : NodeId) : Value := .string (Text.hex id.toNat)

/-- The written form of a pattern. -/
def patternValue (p : Pattern) : Value := .string p.text

/-- A flow and what came from it, down to a depth that no tree of flows exceeds. -/
def flowTree (net : Network) : (fuel : Nat) → Handle → Value
  | 0, _ => .null
  | fuel + 1, h =>
    match net.flows.find? h with
    | none => .null
    | some f => .record [
        ("node", .option idValue ((net.nodeAt? f.node).map Node.id)),
        ("in_port", .nat f.port.toNat),
        ("processed", .option Space.toValue f.processed),
        ("looped", .bool f.looped),
        ("children", .seq (f.children.map (net.flowTree fuel)))]

/-- A rule at its place in a table. -/
def ruleValue (index : UInt32) (n : Node) : Value :=
  let w := n.rule?.bind Rule.overwrite
  .record [("id", idValue n.id), ("index", .nat index.toNat), ("in_ports", portsValue n.inPorts),
    ("out_ports", portsValue n.outPorts), ("match", .option patternValue n.accepts),
    ("mask", .option patternValue (w.map Overwrite.mask)),
    ("rewrite", .option patternValue (w.map Overwrite.value))]

/-- A table with its rules. -/
def tableValue (net : Network) (t : Table) : Value :=
  .record [("id", .nat t.id.toNat), ("ports", portsValue t.ports),
    ("rules", .seq (t.rules.toList.filterMap fun (index, key) ↦
      (net.nodeAt? key).map (ruleValue index)))]

/-- A source with its flows. -/
def sourceValue (net : Network) (n : Node) : Value :=
  .record [("id", .nat n.id.toNat), ("ports", portsValue n.outPorts),
    ("flows", .seq (n.flows.map (net.flowTree net.flows.slots.size)))]

/-- A probe with its verdict. -/
def probeValue (n : Node) (p : Probe) : Value :=
  .record [("id", .nat n.id.toNat), ("ports", portsValue n.inPorts),
    ("match", .option patternValue n.accepts), ("mode", .string p.mode.name),
    ("state", .string p.state.name), ("holds", .bool p.holds), ("filter", p.filter.toValue),
    ("test", p.test.toValue)]

/-- The whole network as a document. -/
def snapshot (net : Network) : Value :=
  .record [("length", .nat net.bytes), ("consistent", .bool net.consistent),
    ("tables", .seq (net.tables.map net.tableValue)),
    ("links", .seq (net.sortedLinks.map fun l ↦ .seq [.nat l.source.toNat, .nat l.target.toNat])),
    ("sources", .seq ((net.directory.sources.filterMap net.nodeAt?).map net.sourceValue)),
    ("probes", .seq (net.directory.probes.filterMap fun key ↦ do
      let n ← net.nodeAt? key
      return probeValue n (← n.probe?)))]

end Network

end HeaderFlow
