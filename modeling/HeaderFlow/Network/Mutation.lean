import HeaderFlow.Network.Priority
import HeaderFlow.Network.Query
import HeaderFlow.Network.Wiring

/-!
# Changes of a network

Everything that can be done to a network. Each change **looks at its arguments first** and is
refused if they do not fit; then it is carried out under a fresh budget, and all flows are up to
date when it ends. `Network.apply` is the one entry point, and `Mutation` the type of all changes.
-/

namespace HeaderFlow

/-- The rule that is to be added at a place of a table. -/
structure RuleSpec where
  table : TableId
  index : UInt32
  /-- The ports of entry; none stands for all ports of the table. -/
  inPorts : List Port
  outPorts : List Port
  accepts : Pattern
  /-- The positions that the rule overwrites. -/
  mask : Option Pattern := none
  /-- What the rule writes there. -/
  value : Option Pattern := none

/-- The probe that is to be added. -/
structure ProbeSpec where
  mode : ProbeMode
  filter : Condition
  test : Condition
  ports : List Port
  /-- The headers that reach the probe; by default all. -/
  accepts : Option Pattern := none

namespace Engine

/-- Adds a node, not yet connected, under a new key, and answers the key. -/
def addNode (n : NodeKey → Node) : Engine NodeKey := do
  let key := (← network).nextKey
  update fun net ↦ net.enrol (n key)
  return key

/-- Takes a node, which must be there, out of the network. -/
def eraseNode (key : NodeKey) : Engine Unit := do
  let n ← node key
  update fun net ↦ net.strike n

/-- Removes the flows of a node. -/
def removeFlows (key : NodeKey) : Engine Unit := do
  (← node key).flows.forM removeFlow

/-- Removes a rule. -/
def removeRuleNode (key : NodeKey) : Engine Unit := do
  removeFlows key
  disconnect key
  release key
  eraseNode key

/-- Removes a source or a probe. -/
def removePlainNode (key : NodeKey) : Engine Unit := do
  removeFlows key
  disconnect key
  eraseNode key

/-- The flows of a node that have headers, with the way each came. -/
def liveChains (net : Network) : List Handle → Checked (List (Handle × Chain))
  | [] => .ok []
  | h :: hs => do
    if (net.flows.find? h).any Flow.isAlive then
      let c ← net.chainOf h
      let more ← liveChains net hs
      return (h, c) :: more
    else liveChains net hs

/-- Starts a probe on the flows that are there. -/
def startProbe (key : NodeKey) : Engine Unit := do
  let n ← node key
  setEvent { kind := .startProbe, first := n.id.toNat }
  let flows ← ask fun net ↦ liveChains net n.flows
  let some p := n.probe? | return
  let (p, ts) ← check (p.start flows)
  updateNode key fun n ↦ { n with role := .probe p }
  ts.forM fun (flow, t) ↦ do report (.probe n.id flow t (← event))

/-- Stops a probe. -/
def stopProbe (key : NodeKey) : Engine Unit := do
  let n ← node key
  setEvent { kind := .stopProbe, first := n.id.toNat }
  let some p := n.probe? | return
  updateNode key fun n ↦ { n with role := .probe p.stop }

end Engine

namespace Network

open Engine

/-! ### Tables and rules -/

/-- Puts a table among others, by its number. -/
def insertTable (t : Table) : List Table → List Table
  | [] => [t]
  | u :: us => if t.id < u.id then t :: u :: us else u :: insertTable t us

/-- Adds a table. -/
def addTable (net : Network) (id : TableId) (ports : List Port) : Outcome Unit :=
  if id = 0 then .refused net (.invalidTable id)
  else if (net.table? id).isSome then .refused net (.tableExists id)
  else .done
    { net with
      tables := insertTable ⟨id, .ofList ports, ∅⟩ net.tables
      lastEvent := some { kind := .addTable, first := id.toNat } } ()

/-- Removes a table and its rules. -/
def removeTable (net : Network) (id : TableId) : Outcome Unit :=
  if (net.table? id).isNone then .refused net (.tableNotFound id)
  else net.carryOut do
    setEvent { kind := .removeTable, first := id.toNat }
    ((net.ranking id).map Prod.snd).forM removeRuleNode
    update fun net ↦ { net with tables := net.tables.filter (·.id ≠ id) }

/-- A pattern has the length of the headers. -/
def checkLength (net : Network) (p : Pattern) : Except NetworkError Unit :=
  if p.bytes = net.bytes then .ok () else .error (.lengthMismatch net.bytes p.bytes)

/-- The mask and the value of an overwriting rule, which are given together or not at all. -/
def checkOverwrite (net : Network) : Option Pattern → Option Pattern →
    Except NetworkError (Option Overwrite)
  | some mask, some value => do
    net.checkLength mask
    net.checkLength value
    return some ⟨mask, value⟩
  | none, none => .ok none
  | _, _ => .error .halfOverwrite

/-- The node of a rule, up to its key, unless its description does not fit. -/
def ruleNode (net : Network) (spec : RuleSpec) : Except NetworkError (NodeKey → Node) := do
  let some table := net.table? spec.table | throw (.tableNotFound spec.table)
  if let some port := (spec.inPorts ++ spec.outPorts).find? fun p ↦ !table.ports.contains p then
    throw (.portNotInTable spec.table port)
  net.checkLength spec.accepts
  let overwrite ← net.checkOverwrite spec.mask spec.value
  let inPorts := if spec.inPorts.isEmpty then table.ports else .ofList spec.inPorts
  let outPorts := PortSet.ofList spec.outPorts
  let sends := match overwrite with
    | some w => (spec.accepts.replaceMasked w.mask w.value).pattern
    | none => spec.accepts
  return fun key ↦ .unconnected key (ruleId spec.table spec.index)
    (.rule ⟨spec.table, spec.index, overwrite, [], []⟩) (some spec.accepts) sends inPorts outPorts
    (table.ports.intersects inPorts) (table.ports.intersects outPorts)

/-- Adds a rule, in place of the one that is at its place already, and answers its identifier. -/
def addRule (net : Network) (spec : RuleSpec) : Outcome NodeId :=
  match net.ruleNode spec with
  | .error e => .refused net e
  | .ok n => net.carryOut do
    setEvent { kind := .addRule, first := (ruleId spec.table spec.index).toNat }
    (net.ruleAt? spec.table spec.index).toList.forM removeRuleNode
    let key ← addNode n
    relate key
    connect key
    takeWon key
    pull key
    return ruleId spec.table spec.index

/-- Looks up a node that must be of a certain type. -/
def expect (net : Network) (id : NodeId) (type : NodeType) (expected : ExpectedRole) :
    Except NetworkError Node := do
  let n ← net.require id
  if n.type = type then return n else throw (.wrongNodeType id expected)

/-- Removes a rule. -/
def removeRule (net : Network) (id : NodeId) : Outcome Unit :=
  match net.expect id .rule .rule with
  | .error e => .refused net e
  | .ok n => net.carryOut do
    setEvent { kind := .removeRule, first := id.toNat }
    removeRuleNode n.key

/-! ### Links -/

/-- Adds a link; one that is there already changes nothing. -/
def addLink (net : Network) (l : Link) : Outcome Unit :=
  if (net.targets l.source).contains l.target then .done net ()
  else net.carryOut do
    setEvent { kind := .addLink, first := l.source.toNat, second := l.target.toNat }
    update fun net ↦ { net with topology := net.topology.join l }
    connectLink l

/-- Removes a link. -/
def removeLink (net : Network) (l : Link) : Outcome Unit :=
  if !(net.targets l.source).contains l.target then .refused net (.linkNotFound l.source l.target)
  else net.carryOut do
    setEvent { kind := .removeLink, first := l.source.toNat, second := l.target.toNat }
    disconnectLink l
    update fun net ↦ { net with topology := net.topology.cut l }

/-! ### Sources -/

/-- The identifier of a new source or probe. -/
def freshId (net : Network) : Checked NodeId :=
  if net.nextId.toNat + 1 = UInt64.size then .error .identifiersExhausted else .ok net.nextId

/-- Adds a source of some headers and answers its identifier. -/
def addSource (net : Network) (space : Space) (ports : List Port) : Outcome NodeId :=
  if space.bytes ≠ net.bytes then .refused net (.lengthMismatch net.bytes space.bytes)
  else match net.freshId with
  | .error f => .refused net (.fault f)
  | .ok id =>
    carryOut { net with nextId := id + 1 } do
      setEvent { kind := .addSource, first := id.toNat }
      let key ← addNode fun key ↦
        .unconnected key id .source none (.allWild net.bytes) .empty (.ofList ports) false false
      connect key
      let root ← insertFlow fun h ↦ .root key h space
      alterNode key fun n ↦ { n with flows := n.flows ++ [root] }
      arrive key root
      return id

/-- Adds a source of the headers that match a pattern. -/
def addSourcePattern (net : Network) (p : Pattern) (ports : List Port) : Outcome NodeId :=
  net.addSource (.ofPattern p) ports

/-- Removes a source. -/
def removeSource (net : Network) (id : NodeId) : Outcome Unit :=
  match net.expect id .source .source with
  | .error e => .refused net e
  | .ok n => net.carryOut do
    setEvent { kind := .removeSource, first := id.toNat }
    removePlainNode n.key

/-! ### Probes -/

/-- Adds a probe, starts it and answers its identifier. -/
def addProbe (net : Network) (spec : ProbeSpec) : Outcome NodeId :=
  match spec.accepts.elim (.ok ()) net.checkLength with
  | .error e => .refused net e
  | .ok () =>
    match net.freshId with
    | .error f => .refused net (.fault f)
    | .ok id =>
    let probe := (Probe.new spec.mode spec.filter spec.test).enlarge net.bytes
    let accepts := spec.accepts.getD (.allWild net.bytes)
    carryOut { net with nextId := id + 1 } do
      let key ← addNode fun key ↦
        .unconnected key id (.probe probe) (some accepts) accepts (.ofList spec.ports) .empty
          false false
      connect key
      pull key
      startProbe key
      return id

/-- Removes a probe. -/
def removeProbe (net : Network) (id : NodeId) : Outcome Unit :=
  match net.expect id .sourceProbe .probe with
  | .error e => .refused net e
  | .ok n => net.carryOut do
    stopProbe n.key
    removePlainNode n.key

/-- Asks a probe about all its flows anew. -/
def restartProbe (net : Network) (id : NodeId) : Outcome Unit :=
  match net.expect id .sourceProbe .probe with
  | .error e => .refused net e
  | .ok n => net.carryOut do
    stopProbe n.key
    startProbe n.key

/-! ### Widening and audits -/

/-- Widens a flow. -/
def enlargeFlow (bytes : Nat) (f : Flow) : Flow :=
  { f with
    input := f.input.enlarge bytes
    processed := f.processed.map fun s ↦ s.enlarge bytes }

/-- Widens all headers to `bytes` bytes, of which the new ones are wild, and answers the length
after that. A length that is not greater changes nothing. -/
def expand (net : Network) (bytes : Nat) : Outcome Nat :=
  if bytes ≤ net.bytes then .done net net.bytes
  else .done
    { net with
      bytes := bytes
      nodes := net.nodes.map (Node.enlarge bytes)
      pipes := net.pipes.map fun _ p ↦ { p with pattern := p.pattern.enlarge bytes }
      influences := net.influences.map fun _ i ↦ { i with common := i.common.enlarge bytes }
      flows := net.flows.map fun _ f ↦ enlargeFlow bytes f
      lastEvent := some { kind := .expand, first := bytes } } bytes

/-- Looks for rules that never apply, in one table or in all, and answers what it finds. The number
`0` stands for all tables. -/
def audit (net : Network) (table : Option TableId) : Outcome (List Anomaly) :=
  let all := net.tables.map Table.id
  let tables := match table with
    | none => Except.ok all
    | some t =>
      if t = 0 then .ok all
      else if (net.table? t).isSome then .ok [t]
      else .error (NetworkError.tableNotFound t)
  match tables with
  | .error e => .refused net e
  | .ok ts =>
    match net.auditTables ts with
    | .error f => .refused net (.fault f)
    | .ok found => ⟨.ok found, net, found.map .anomaly⟩

/-! ### All changes -/

/-- A network with given settings, unless they are not valid. -/
def withSettings (bytes : Nat) (settings : Settings) (clock : Clock := .still) :
    Except NetworkError Network :=
  match settings.validate with
  | .error e => .error (.settings e)
  | .ok () => .ok (.new bytes settings clock)

end Network

/-- Something that can be done to a network. -/
inductive Mutation where
  | addTable (id : TableId) (ports : List Port)
  | removeTable (id : TableId)
  | addRule (spec : RuleSpec)
  | removeRule (id : NodeId)
  | addLink (link : Link)
  | removeLink (link : Link)
  | addSource (space : Space) (ports : List Port)
  | addSourcePattern (pattern : Pattern) (ports : List Port)
  | removeSource (id : NodeId)
  | addProbe (spec : ProbeSpec)
  | removeProbe (id : NodeId)
  | restartProbe (id : NodeId)
  | expand (bytes : Nat)
  | audit (table : Option TableId)

/-- What a change answers. -/
inductive Reply where
  | done
  | node (id : NodeId)
  | length (bytes : Nat)
  | anomalies (found : List Anomaly)

/-- Carries out a change. -/
def Network.apply (net : Network) : Mutation → Outcome Reply
  | .addTable id ports => (net.addTable id ports).map fun _ ↦ .done
  | .removeTable id => (net.removeTable id).map fun _ ↦ .done
  | .addRule spec => (net.addRule spec).map .node
  | .removeRule id => (net.removeRule id).map fun _ ↦ .done
  | .addLink l => (net.addLink l).map fun _ ↦ .done
  | .removeLink l => (net.removeLink l).map fun _ ↦ .done
  | .addSource space ports => (net.addSource space ports).map .node
  | .addSourcePattern p ports => (net.addSourcePattern p ports).map .node
  | .removeSource id => (net.removeSource id).map fun _ ↦ .done
  | .addProbe spec => (net.addProbe spec).map .node
  | .removeProbe id => (net.removeProbe id).map fun _ ↦ .done
  | .restartProbe id => (net.restartProbe id).map fun _ ↦ .done
  | .expand bytes => (net.expand bytes).map .length
  | .audit table => (net.audit table).map .anomalies

end HeaderFlow
