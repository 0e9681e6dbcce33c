import HeaderFlow.Network.Engine

/-!
# Propagation

How flows come into being, change and disappear.

A flow that *arrives* at a rule loses what rules of higher priority take, is compacted and
overwritten, and what is left is sent down every pipe of the rule. When something changes later, an
existing flow is *refreshed*: either from its input, or, if it is known which headers it lost and no
overwriting is in the way, by taking these out. The flows that came from it are refreshed in turn,
and those that have nothing left are dropped with everything below them.

Arriving and refreshing call themselves through the pipes. Each such call is a visit in the budget,
so the **depth that the budget allows bounds the nesting of the calls**, and it is the number on
which the recursion runs. Dropping a flow walks down a tree of flows and is bounded by the number of
slots.
-/

namespace HeaderFlow.Engine

/-! ### Telling a probe -/

/-- Tells a running probe about a flow. -/
def notify (key : NodeKey) (flow : Handle) (change : Network → Checked FlowChange) :
    Engine Unit := do
  let n ← node key
  let some p := n.probe? | return
  if !p.isRunning then return
  let c ← ask change
  let (p, t) ← check (p.update flow c)
  updateNode key fun n ↦ { n with role := .probe p }
  if let some t := t then report (.probe n.id (some flow) t (← event))

/-- The flow arrived. -/
def arrived (flow : Handle) (net : Network) : Checked FlowChange :=
  (net.chainOf flow).map .added

/-- The headers of the flow changed. -/
def changed (flow : Handle) (net : Network) : Checked FlowChange :=
  (net.chainOf flow).map .modified

/-- The flow is gone. -/
def gone (_ : Network) : Checked FlowChange := .ok .deleted

/-! ### Dropping flows -/

/-- Takes the children from a flow and, if it is at a probe, tells the probe that it is gone. -/
def detachChildren (h : Handle) (f : Flow) : Engine Unit := do
  updateFlow h fun f ↦ { f with children := [] }
  let isProbe := ((← network).nodeAt? f.node).any fun n ↦ n.probe?.isSome
  if isProbe then notify f.node h gone

/-- Takes a flow out of the network and off the list of its node. -/
def discardFlow (h : Handle) (key : NodeKey) : Engine Unit := do
  update fun net ↦ { net with flows := net.flows.erase h }
  updateNode key fun n ↦ { n with flows := n.flows.filter (· ≠ h) }

/-- Drops a flow and everything below it. -/
def dropTree : (fuel : Nat) → Handle → Engine Unit
  | 0, _ => return
  | fuel + 1, h => do
    let some f ← flow? h | return
    detachChildren h f
    f.children.forM (dropTree fuel)
    discardFlow h f.node

/-- Drops a flow and everything below it. -/
def dropSubtree (h : Handle) : Engine Unit := do
  dropTree (← network).flows.slots.size h

/-- Drops everything below a flow. -/
def dropBelow (h : Handle) : Engine Unit := do
  let some f ← flow? h | return
  detachChildren h f
  f.children.forM dropSubtree

/-- Takes a flow from the flow it came from. -/
def unlink (h : Handle) (f : Flow) : Engine Unit := do
  let some p := f.parent | return
  updateFlow p fun f ↦ { f with children := f.children.filter (· ≠ h) }

/-- Takes a flow from the flow it came from, and drops it and everything below it. -/
def removeFlow (h : Handle) : Engine Unit := do
  let some f ← flow? h | return
  unlink h f
  dropSubtree h

/-! ### Arriving -/

/-- Lists a flow at its node and with the flow it came from. -/
def register (key : NodeKey) (h : Handle) : Engine Unit := do
  updateNode key fun n ↦ { n with flows := n.flows ++ [h] }
  let some p := (← flow h).parent | return
  updateFlow p fun f ↦ { f with children := f.children ++ [h] }

/-- Takes out of the headers what the influences take that apply at a port. -/
def subtractInfluences (port : Port) : List Handle → Space → Engine Space
  | [], s => return s
  | k :: ks, s => do
    let i ← ask fun net ↦ net.influences.get k
    if i.ports.contains port then subtractInfluences port ks (← check (s.cut i.common))
    else subtractInfluences port ks s

/-- Computes what leaves a rule from what arrived, and says whether anything does. -/
def recompute (key : NodeKey) (h : Handle) : Engine Bool := do
  let some r := (← node key).rule? | return false
  let f ← flow h
  let left ← subtractInfluences f.port r.influencedBy f.input
  let left ← check (left.compact r.mask?)
  if left.isEmpty then
    updateFlow h fun f ↦ { f with processed := none }
    return false
  let sent ← check (r.rewrite left)
  updateFlow h fun f ↦ { f with processed := some sent }
  return true

/-- What the headers that enter a pipe are compared with, to notice that some are lost. -/
inductive Measure where
  /-- With what leaves the node: the pipe takes only a part. -/
  | flow
  /-- With what the pipe carries: the flow fills only a part. -/
  | pipe
  deriving DecidableEq

/-- Headers **do not leave a table by the port they came in**. -/
def blocked (key : NodeKey) (h : Handle) (port : Port) : Engine Bool := do
  if !(← node key).outputLayer then return false
  ask fun net ↦ net.enteredBy port (net.lineage (some h))

/-- What comes out of a pipe when headers enter it. -/
def pipeOut (processed : Space) (side : Pipe) : Checked Space := do
  (← processed.clip side.pattern).compact none

/-- Reports headers that are lost on entering a pipe, if that is looked for. -/
def reportLost (key : NodeKey) (h : Handle) (side back : Pipe) (processed out : Space)
    (measure : Measure) : Engine Unit := do
  if !(← network).settings.checkBlackholes then return
  let lost ← check <| match measure with
    | .flow => out.isStrictSubset processed
    | .pipe => out.isStrictSubset (.ofPattern side.pattern)
  if lost then
    report (.blackhole h (← node key).id (← node back.node).id side.port (← event))

/-- Sends headers that leave a flow down a pipe, where `arrive` is called for what comes out. -/
def sendHeaders (arrive : NodeKey → Handle → Engine Unit) (key : NodeKey) (h fwd : Handle)
    (side : Pipe) (measure : Measure) (f : Flow) (processed : Space) : Engine Unit := do
  let out ← check (pipeOut processed side)
  if out.isEmpty then return
  let back ← pipe side.reverse
  reportLost key h side back processed out measure
  let child ← insertFlow fun _ ↦
    { node := back.node, source := f.source, input := out, processed := none, port := back.port
      pipe := some fwd, parent := some h, children := [], looped := false }
  arrive back.node child

/-- Sends a flow down a pipe, unless that is where it came from. -/
def send (arrive : NodeKey → Handle → Engine Unit) (key : NodeKey) (h fwd : Handle)
    (measure : Measure) : Engine Unit := do
  let some side ← pipe? fwd | return
  if ← blocked key h side.port then return
  let f ← flow h
  let some processed := f.processed | return
  sendHeaders arrive key h fwd side measure f processed

/-- Sends a flow down every pipe of its node. -/
def sendAll (arrive : NodeKey → Handle → Engine Unit) (key : NodeKey) (h : Handle) :
    Engine Unit := do
  (← node key).next.forM fun fwd ↦ send arrive key h fwd .flow

/-- Marks a flow that has come back to a rule. -/
def markLooped (key : NodeKey) (h : Handle) (first : NodeId) : Engine Unit := do
  updateFlow h fun f ↦ { f with looped := true }
  report (.loop h (← node key).id first (← event))

/-- Takes a flow that has just arrived at a node. -/
def takeIn (arrive : NodeKey → Handle → Engine Unit) (key : NodeKey) (h : Handle) :
    Engine Unit := do
  match (← node key).role with
  | .rule _ =>
    register key h
    match ← ask fun net ↦ net.loopOf h with
    | some first => markLooped key h first
    | none => if ← recompute key h then sendAll arrive key h
  | .probe _ =>
    register key h
    updateFlow h fun f ↦ { f with processed := some f.input }
    notify key h (arrived h)
  | .source => sendAll arrive key h

/-- Takes a flow that has just arrived at a node, with `room` more visits below this one. -/
def arriveWithin : (room : Nat) → NodeKey → Handle → Engine Unit
  | 0, _, _ => do
    enter
    tooDeep
  | room + 1, key, h => visit (takeIn (arriveWithin room) key h)

/-! ### Refreshing -/

/-- Takes headers that a flow lost out of the flows that came from it. -/
def pushLoss (refresh : Handle → Option Pattern → Engine Unit) (loss : Pattern) (child : Handle) :
    Engine Unit := do
  let some f ← flow? child | return
  let some fwd := f.pipe | return
  let some side ← pipe? fwd | return
  let some piped ← check (side.pattern.intersect loss) | return
  let input ← check (f.input.cut piped)
  updateFlow child fun f ↦ { f with input := input }
  refresh child (some piped)

/-- Renews a flow that came from one that now sends `processed`; without headers it is dropped.
Answers the pipe by which it came, if it is kept. -/
def renewChild (refresh : Handle → Option Pattern → Engine Unit) (processed : Space)
    (child : Handle) : Engine (Option Handle) := do
  let some f ← flow? child | return none
  let some fwd := f.pipe | return none
  let some side ← pipe? fwd | do
    removeFlow child
    return none
  let out ← check (pipeOut processed side)
  if out.isEmpty then
    removeFlow child
    return none
  updateFlow child fun f ↦ { f with input := out }
  refresh child none
  return some fwd

/-- Renews a list of flows in order, and answers the pipes of those that are kept. -/
def renewChildren (refresh : Handle → Option Pattern → Engine Unit) (processed : Space) :
    List Handle → Engine (List Handle)
  | [] => return []
  | c :: cs => do
    let used ← renewChild refresh processed c
    let more ← renewChildren refresh processed cs
    return used.toList ++ more

/-- Renews the flows that came from one that now sends `processed`, and tries **pipes that none of
them came by** anew. -/
def renewAll (arrive : NodeKey → Handle → Engine Unit)
    (refresh : Handle → Option Pattern → Engine Unit) (h : Handle) (f : Flow)
    (processed : Space) : Engine Unit := do
  let used ← renewChildren refresh processed f.children
  (← node f.node).next.forM fun fwd ↦ do
    if !used.contains fwd then send arrive f.node h fwd .flow

/-- Passes a change of what a flow sends on to the flows that came from it. If it is known what was
lost, they lose it too. Otherwise they are renewed. -/
def passOn (arrive : NodeKey → Handle → Engine Unit)
    (refresh : Handle → Option Pattern → Engine Unit) (h : Handle) (loss : Option Pattern) :
    Engine Unit := do
  let f ← flow h
  match loss with
  | some loss => f.children.forM (pushLoss refresh loss)
  | none =>
    let some processed := f.processed | return
    renewAll arrive refresh h f processed

/-- Takes lost headers out of what a flow sends, and says whether anything is left. -/
def lose (h : Handle) (processed : Space) (loss : Pattern) : Engine Bool := do
  let left ← check do (← processed.cut loss).compact none
  updateFlow h fun f ↦ { f with processed := some left }
  return !left.isEmpty

/-- Goes on with a flow whose headers have changed; one without headers has nothing below it. -/
def goOn (arrive : NodeKey → Handle → Engine Unit)
    (refresh : Handle → Option Pattern → Engine Unit) (h : Handle) (loss : Option Pattern)
    (alive : Bool) : Engine Unit :=
  if alive then passOn arrive refresh h loss
  else do
    dropBelow h
    alterFlow h fun f ↦ { f with processed := none }

/-- Computes anew what leaves a rule. What was lost is of use only if the rule overwrites
nothing. -/
def reconsiderAtRule (arrive : NodeKey → Handle → Engine Unit)
    (refresh : Handle → Option Pattern → Engine Unit) (h : Handle) (f : Flow) (r : Rule)
    (loss : Option Pattern) : Engine Unit := do
  if f.looped then return
  match (if r.overwrite.isSome then none else loss) with
  | none => goOn arrive refresh h none (← recompute f.node h)
  | some loss =>
    let some processed := f.processed | return
    goOn arrive refresh h (some loss) (← lose h processed loss)

/-- Computes anew what is at a probe. -/
def reconsiderAtProbe (h : Handle) (f : Flow) (loss : Option Pattern) : Engine Unit := do
  match loss, f.processed with
  | some loss, some processed => discard (lose h processed loss)
  | some _, none => return
  | none, _ => updateFlow h fun f ↦ { f with processed := some f.input }

/-- Computes anew what a flow sends. With `loss`, only the headers in it were taken away. -/
def reconsider (arrive : NodeKey → Handle → Engine Unit)
    (refresh : Handle → Option Pattern → Engine Unit) (h : Handle) (loss : Option Pattern) :
    Engine Unit := do
  let some f ← flow? h | return
  match (← node f.node).role with
  | .rule r => reconsiderAtRule arrive refresh h f r loss
  | .probe _ =>
    reconsiderAtProbe h f loss
    notify f.node h (changed h)
  | .source => return

/-- Computes anew what a flow sends, with `room` more visits below this one. -/
def refreshWithin : (room : Nat) → Handle → Option Pattern → Engine Unit
  | 0, _, _ => do
    enter
    tooDeep
  | room + 1, h, loss => visit (reconsider (arriveWithin room) (refreshWithin room) h loss)

/-! ### Entry points -/

/-- The depth that the budget allows. -/
def room : Engine Nat := return (← network).budget.maxDepth

/-- Takes a flow that has just arrived at a node. -/
def arrive (key : NodeKey) (h : Handle) : Engine Unit := do
  arriveWithin (← room) key h

/-- Computes anew what a flow sends. -/
def refresh (h : Handle) (loss : Option Pattern) : Engine Unit := do
  refreshWithin (← room) h loss

/-- Sends every flow of a node that goes on down a pipe. -/
def sendFlows (key : NodeKey) (fwd : Handle) : Engine Unit := do
  (← node key).flows.forM fun h ↦ do
    if ((← flow? h).any fun f ↦ !f.looped && f.isAlive) then send arrive key h fwd .pipe

/-- Sends the flows of the neighbours down every pipe that leads to a node. -/
def pull (key : NodeKey) : Engine Unit := do
  (← node key).prev.forM fun back ↦ do
    let some side ← pipe? back | return
    let fwd ← pipe side.reverse
    sendFlows fwd.node side.reverse

/-- Refreshes the flows of a node that came in by one of the ports. -/
def refreshFlows (key : NodeKey) (ports : PortSet) (loss : Option Pattern) : Engine Unit := do
  (← node key).flows.forM fun h ↦ do
    if ((← flow? h).any fun f ↦ ports.contains f.port) then refresh h loss

end HeaderFlow.Engine
