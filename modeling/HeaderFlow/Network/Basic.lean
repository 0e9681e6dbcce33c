import HeaderFlow.Budget
import HeaderFlow.Event
import HeaderFlow.PortMap
import HeaderFlow.Probe.Basic

/-!
# Networks

A network consists of *tables* of prioritised *rules*, *links* between ports, *sources* that inject
headers and *probes* that watch them arrive. Rules, sources and probes are the nodes of a graph
whose edges are *pipes*: where a port of one node is linked to a port of another, the pipe carries
the headers that the first can send and the second accepts.

Headers move through the graph as *flows*. A flow says which headers reached a node by a certain
way; it points to the flow it came from, so the flows of a source form a tree with the source's own
flow at its root.

Every node gets a *key* when it is added, which no other node ever has. Its identifier is what it is
called by from outside. Changes do not search the nodes: the keys of the nodes at a port, of the
rules of a table, of sources and of probes, and the key that goes with an identifier, are kept in a
*directory* and in the tables, and **each is brought up to date whenever a node comes or goes**. A
key that is found there is followed, and it is a fault if the node is gone. In the same way a link
is kept twice, at either of its ports. That all of this agrees is not built in; it is proved of
every network that can arise.
-/

namespace HeaderFlow

/-! ### Parts of a network -/

/-- The name of a node within a network. -/
abbrev NodeKey : Type := Nat

/-- One side of a pipe. The forward side belongs to the sending node and has the port by which
headers leave, the backward side to the receiving node and has the port by which they enter. -/
structure Pipe where
  node : NodeKey
  port : Port
  /-- The headers that pass. -/
  pattern : Pattern
  /-- The other side. -/
  reverse : Handle
  deriving DecidableEq

/-- Two rules of one table that share headers and ports of entry, of which the first wins. -/
structure Influence where
  /-- The rule of higher priority. -/
  influencer : NodeKey
  /-- The rule of lower priority. -/
  influenced : NodeKey
  /-- The headers that match both rules. -/
  common : Pattern
  /-- The ports by which headers can enter both rules. -/
  ports : PortSet
  deriving DecidableEq

/-- Headers that reached a node by a certain way. -/
structure Flow where
  node : NodeKey
  /-- The root of the tree. -/
  source : Handle
  /-- The headers that arrived. -/
  input : Space
  /-- The headers that leave, if the node lets any through. -/
  processed : Option Space
  /-- The port of entry. -/
  port : Port
  /-- The forward side of the pipe by which the flow came. -/
  pipe : Option Handle
  /-- The flow it came from. -/
  parent : Option Handle
  /-- The flows that came from it, in the order in which they did. -/
  children : List Handle
  /-- The flow came back to a place where it had been; it goes no further. -/
  looped : Bool
  deriving DecidableEq

namespace Flow

/-- The flow of a source itself. -/
def root (node : NodeKey) (self : Handle) (space : Space) : Flow where
  node := node
  source := self
  input := space
  processed := some space
  port := 0
  pipe := none
  parent := none
  children := []
  looped := false

/-- The flow has headers that leave. -/
def isAlive (f : Flow) : Bool := f.processed.any fun s ↦ !s.isEmpty

/-- The flow is that of a source itself. -/
def isRoot (f : Flow) : Bool := f.parent.isNone

end Flow

/-- What a rule writes into the headers it forwards. -/
structure Overwrite where
  /-- The positions that are overwritten. -/
  mask : Pattern
  /-- What is written there. -/
  value : Pattern
  deriving DecidableEq

/-- What only rules have. -/
structure Rule where
  table : TableId
  /-- The place in the table; **smaller places have higher priority**. -/
  index : UInt32
  overwrite : Option Overwrite
  /-- The influences in which this rule loses. -/
  influencedBy : List Handle
  /-- The influences in which this rule wins. -/
  effectOn : List Handle
  deriving DecidableEq

/-- The positions that a rule overwrites. -/
def Rule.mask? (r : Rule) : Option Pattern := r.overwrite.map Overwrite.mask

/-- What becomes of headers that a rule forwards. -/
def Rule.rewrite (r : Rule) (s : Space) : Checked Space :=
  match r.overwrite with
  | some w => s.overwrite w.mask w.value
  | none => .ok s

/-- What a node does. -/
inductive Role where
  | rule (rule : Rule)
  | source
  | probe (probe : Probe)

/-- A rule, a source or a probe. -/
structure Node where
  key : NodeKey
  id : NodeId
  role : Role
  /-- The headers that are accepted; a source accepts none. -/
  accepts : Option Pattern
  /-- The headers that can be sent. -/
  sends : Pattern
  inPorts : PortSet
  outPorts : PortSet
  /-- The node takes headers in at the boundary of its table. -/
  inputLayer : Bool
  /-- The node sends headers out at the boundary of its table. -/
  outputLayer : Bool
  /-- The forward sides of pipes that belong to the node. -/
  next : List Handle
  /-- The backward sides of pipes that belong to the node. -/
  prev : List Handle
  /-- The flows at the node, in the order in which they arrived. -/
  flows : List Handle

namespace Node

/-- The type of a node. -/
def type (n : Node) : NodeType :=
  match n.role with
  | .rule _ => .rule
  | .source => .source
  | .probe _ => .sourceProbe

/-- The rule, if the node is one. -/
def rule? (n : Node) : Option Rule :=
  match n.role with
  | .rule r => some r
  | _ => none

/-- The probe, if the node is one. -/
def probe? (n : Node) : Option Probe :=
  match n.role with
  | .probe p => some p
  | _ => none

/-- The table of a rule. -/
def table? (n : Node) : Option TableId := n.rule?.map Rule.table

/-- Changes the rule, if the node is one. -/
def mapRule (f : Rule → Rule) (n : Node) : Node :=
  match n.role with
  | .rule r => { n with role := .rule (f r) }
  | _ => n

/-- Grows all patterns to `bytes` bytes: the new positions are wild, **and are not overwritten**. -/
def enlarge (bytes : Nat) (n : Node) : Node :=
  { n with
    accepts := n.accepts.map fun p ↦ p.enlarge bytes
    sends := n.sends.enlarge bytes
    role := match n.role with
      | .rule r => .rule { r with
          overwrite := r.overwrite.map fun w ↦
            ⟨w.mask.enlargeWith bytes .zero, w.value.enlarge bytes⟩ }
      | .source => .source
      | .probe p => .probe (p.enlarge bytes) }

/-- A node that is not connected yet. -/
def unconnected (key : NodeKey) (id : NodeId) (role : Role) (accepts : Option Pattern)
    (sends : Pattern) (inPorts outPorts : PortSet) (inputLayer outputLayer : Bool) : Node where
  key := key
  id := id
  role := role
  accepts := accepts
  sends := sends
  inPorts := inPorts
  outPorts := outPorts
  inputLayer := inputLayer
  outputLayer := outputLayer
  next := []
  prev := []
  flows := []

end Node

/-- The identifier of the rule at a place of a table. -/
def ruleId (table : TableId) (index : UInt32) : NodeId :=
  (table.toUInt64 <<< 32) + index.toUInt64

/-- A table, with the ports at its boundary. -/
structure Table where
  id : TableId
  ports : PortSet
  /-- The rules by their places. -/
  rules : Std.ExtTreeMap UInt32 NodeKey

namespace Table

/-- A rule of the table takes its place in it. -/
def enrol (n : Node) (t : Table) : Table :=
  match n.rule? with
  | some r => if t.id = r.table then { t with rules := t.rules.insert r.index n.key } else t
  | none => t

/-- A rule leaves the table, if it is at its place. -/
def strike (n : Node) (t : Table) : Table :=
  match n.rule? with
  | some r =>
    if t.id = r.table ∧ t.rules[r.index]? = some n.key then
      { t with rules := t.rules.erase r.index }
    else t
  | none => t

end Table

/-- Where nodes are found. -/
structure Directory where
  /-- The node with an identifier. -/
  ids : Std.ExtTreeMap NodeId NodeKey
  /-- The nodes that headers can enter by a port. -/
  entrances : PortMap NodeKey
  /-- The nodes that headers can leave by a port. -/
  exits : PortMap NodeKey
  /-- The sources, in the order in which they were added. -/
  sources : List NodeKey
  /-- The probes, in the order in which they were added. -/
  probes : List NodeKey

namespace Directory

def empty : Directory := ⟨∅, .empty, .empty, [], []⟩

/-- Enters a new node. -/
def enrol (n : Node) (d : Directory) : Directory where
  ids := d.ids.insert n.id n.key
  entrances := d.entrances.pushAll n.inPorts n.key
  exits := d.exits.pushAll n.outPorts n.key
  sources := if n.type = .source then d.sources ++ [n.key] else d.sources
  probes := if n.type = .sourceProbe then d.probes ++ [n.key] else d.probes

/-- Strikes out a node. **Its identifier is struck out, even if another node goes by it now.** -/
def strike (n : Node) (d : Directory) : Directory where
  ids := d.ids.erase n.id
  entrances := d.entrances.retractAll n.inPorts n.key
  exits := d.exits.retractAll n.outPorts n.key
  sources := d.sources.filter (· ≠ n.key)
  probes := d.probes.filter (· ≠ n.key)

end Directory

/-- Headers that leave by one port enter by the other. -/
structure Link where
  source : Port
  target : Port
  deriving DecidableEq, Repr

/-- Which ports are linked. -/
structure Topology where
  /-- The ports to which a port is linked. -/
  targets : PortMap Port
  /-- The ports that are linked to a port. -/
  origins : PortMap Port

namespace Topology

def empty : Topology := ⟨.empty, .empty⟩

/-- Adds a link. -/
def join (l : Link) (t : Topology) : Topology where
  targets := t.targets.push l.source l.target
  origins := t.origins.push l.target l.source

/-- Removes a link. -/
def cut (l : Link) (t : Topology) : Topology where
  targets := t.targets.retract l.source l.target
  origins := t.origins.retract l.target l.source

/-- All links, by increasing first ports. -/
def links (t : Topology) : List Link :=
  t.targets.ports.flatMap fun source ↦ (t.targets.listed source).map fun target ↦ ⟨source, target⟩

end Topology

/-- Tables, nodes and links, with the pipes and flows that follow from them. -/
structure Network where
  /-- The length of the headers. -/
  bytes : Nat
  settings : Settings
  /-- The tables, by increasing number. -/
  tables : List Table
  /-- The nodes, in the order in which they were added. -/
  nodes : List Node
  /-- Where nodes are found. -/
  directory : Directory
  /-- Which ports are linked. -/
  topology : Topology
  pipes : Arena Pipe
  influences : Arena Influence
  flows : Arena Flow
  /-- The key of the next node. -/
  nextKey : NodeKey
  /-- The identifier of the next source or probe. -/
  nextId : NodeId
  /-- The latest change. -/
  lastEvent : Option Event
  /-- No change was broken off. -/
  consistent : Bool
  budget : Budget

namespace Network

/-- A network without nodes, whose changes are timed by a clock. -/
def new (bytes : Nat) (settings : Settings) (clock : Clock := .still) : Network where
  bytes := bytes
  settings := settings
  tables := []
  nodes := []
  directory := .empty
  topology := .empty
  pipes := .empty
  influences := .empty
  flows := .empty
  nextKey := 0
  nextId := 1
  lastEvent := none
  consistent := true
  budget := .new settings clock

/-- Adds a node. -/
def enrol (net : Network) (n : Node) : Network :=
  { net with
    tables := net.tables.map (Table.enrol n)
    nodes := net.nodes ++ [n]
    directory := net.directory.enrol n
    nextKey := net.nextKey + 1 }

/-- Removes a node. -/
def strike (net : Network) (n : Node) : Network :=
  { net with
    tables := net.tables.map (Table.strike n)
    nodes := net.nodes.filter (·.key ≠ n.key)
    directory := net.directory.strike n }

/-! ### Looking things up -/

/-- The node with a key. -/
def nodeAt? (net : Network) (key : NodeKey) : Option Node := net.nodes.find? (·.key == key)

/-- The node with a key, which must be there. -/
def node (net : Network) (key : NodeKey) : Checked Node :=
  match net.nodeAt? key with
  | some n => .ok n
  | none => .error (.missingNode key)

/-- The nodes with given keys, which must be there. -/
def nodesAt (net : Network) (keys : List NodeKey) : Checked (List Node) := keys.mapM net.node

/-- The node with an identifier. -/
def node? (net : Network) (id : NodeId) : Option Node := net.directory.ids[id]?.bind net.nodeAt?

/-- The table with a number. -/
def table? (net : Network) (id : TableId) : Option Table := net.tables.find? (·.id == id)

/-- The key of the rule at a place of a table. -/
def ruleAt? (net : Network) (table : TableId) (index : UInt32) : Option NodeKey :=
  (net.table? table).bind fun t ↦ t.rules[index]?

/-- The keys of the rules of a table with their places, by decreasing priority. -/
def ranking (net : Network) (table : TableId) : List (UInt32 × NodeKey) :=
  (net.table? table).elim [] fun t ↦ t.rules.toList

/-- The rules of a table with their places, by decreasing priority; all of them must be there. -/
def rulesOf (net : Network) (table : TableId) : Checked (List (UInt32 × Node)) :=
  (net.ranking table).mapM fun (index, key) ↦ return (index, ← net.node key)

/-- The links. -/
def links (net : Network) : List Link := net.topology.links

/-- The ports to which a port is linked. -/
def targets (net : Network) (port : Port) : List Port := net.topology.targets.listed port

/-- The ports that are linked to a port. -/
def origins (net : Network) (port : Port) : List Port := net.topology.origins.listed port

/-- The nodes that headers can enter by a port, which must be there. -/
def receivers (net : Network) (port : Port) : Checked (List Node) :=
  net.nodesAt (net.directory.entrances.listed port)

/-- The nodes that headers can leave by a port, which must be there. -/
def senders (net : Network) (port : Port) : Checked (List Node) :=
  net.nodesAt (net.directory.exits.listed port)

/-! ### The way of a flow -/

/-- The flow named by `start` and those it came from, up to the root or to a flow that is gone. A
chain of flows is no longer than the arena, which is the fuel. -/
def ancestry (flows : Arena Flow) : (fuel : Nat) → (start : Option Handle) → List Flow
  | 0, _ => []
  | _, none => []
  | fuel + 1, some h =>
    match flows.find? h with
    | none => []
    | some f => f :: ancestry flows fuel f.parent

/-- The flow named by `start` and those it came from. -/
def lineage (net : Network) (start : Option Handle) : List Flow :=
  ancestry net.flows net.flows.slots.size start

/-- The first of the rules where the flows are whose key is `key`; a node that is no rule ends the
search. -/
def revisited (net : Network) (key : UInt64) : List Flow → Checked (Option NodeId)
  | [] => .ok none
  | f :: rest => do
    let n ← net.node f.node
    match n.rule? with
    | none => return none
    | some _ =>
      if n.id &&& net.settings.loopDetection.keyMask == key then return some n.id
      else revisited net key rest

/-- The rule to which a flow has come back, if it has. -/
def loopOf (net : Network) (flow : Handle) : Checked (Option NodeId) := do
  let f ← net.flows.get flow
  let n ← net.node f.node
  net.revisited (n.id &&& net.settings.loopDetection.keyMask) (net.lineage f.parent)

/-- The port by which the headers of a flow last entered the boundary of a table is `port`. -/
def enteredBy (net : Network) (port : Port) : List Flow → Checked Bool
  | [] => .ok false
  | f :: rest => do
    let n ← net.node f.node
    if n.inputLayer then return f.port == port else enteredBy net port rest

/-- The stops at which flows are. -/
def hops (net : Network) : List Flow → Checked (List Hop)
  | [] => .ok []
  | f :: rest => do
    let n ← net.node f.node
    let more ← hops net rest
    return ⟨n.id, n.type, n.table?, f.port, n.inputLayer⟩ :: more

/-- The way of a flow, with the headers that leave it. -/
def chainOf (net : Network) (flow : Handle) : Checked Chain := do
  return ⟨(net.flows.find? flow).bind Flow.processed, ← net.hops (net.lineage (some flow))⟩

end Network

end HeaderFlow
