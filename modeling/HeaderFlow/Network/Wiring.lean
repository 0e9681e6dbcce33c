import HeaderFlow.Network.Propagation

/-!
# Wiring

Pipes follow from nodes and links: there is a pipe from a node to another where a port of the first
is linked to a port of the second and **some header can be sent by the one and accepted by the
other**. A pipe is a pair of sides, stored forward side first, which are removed together.
-/

namespace HeaderFlow

/-- A pipe that is to be built. -/
structure Wire where
  sender : NodeKey
  outPort : Port
  receiver : NodeKey
  inPort : Port
  pattern : Pattern

/-- What a node accepts of what another can send. -/
def Node.overlap (receiver : Node) (sends : Pattern) : Checked (Option Pattern) :=
  match receiver.accepts with
  | some p => p.intersect sends
  | none => .ok none

/-- What a node accepts of what another node can send; from itself it takes nothing here. -/
def Node.overlapOther (receiver sender : Node) : Checked (Option Pattern) :=
  if sender.key = receiver.key then .ok none else receiver.overlap sender.sends

namespace Network

/-- The pipes from a node, by one of its ports, to the nodes at a linked port. -/
def wiresTo (sender : Node) (outPort inPort : Port) : List Node → Checked (List Wire)
  | [] => .ok []
  | n :: ns => do
    let p ← n.overlap sender.sends
    let more ← wiresTo sender outPort inPort ns
    return (p.map fun p ↦ ⟨sender.key, outPort, n.key, inPort, p⟩).toList ++ more

/-- The pipes to a node, by one of its ports, from the other nodes at a linked port. -/
def wiresFrom (receiver : Node) (outPort inPort : Port) : List Node → Checked (List Wire)
  | [] => .ok []
  | n :: ns => do
    let p ← receiver.overlapOther n
    let more ← wiresFrom receiver outPort inPort ns
    return (p.map fun p ↦ ⟨n.key, outPort, receiver.key, inPort, p⟩).toList ++ more

/-- The pipes that a new node needs: first those that leave it, then those that lead to it. A pipe
from the node to itself is among the first. -/
def wiresOf (net : Network) (n : Node) : Checked (List Wire) := do
  let outgoing ← n.outPorts.toList.mapM fun q ↦
    (net.targets q).mapM fun p ↦ do wiresTo n q p (← net.receivers p)
  let incoming ← n.inPorts.toList.mapM fun p ↦
    (net.origins p).mapM fun q ↦ do wiresFrom n q p (← net.senders q)
  return (outgoing ++ incoming).flatten.flatten

end Network

namespace Engine

/-- Builds a pipe and answers its forward side. -/
def addPipe (w : Wire) : Engine Handle := do
  let fwd := (← network).pipes.nextHandle
  update fun net ↦
    { net with pipes := net.pipes.insert ⟨w.sender, w.outPort, w.pattern, fwd⟩ }
  let back := (← network).pipes.nextHandle
  update fun net ↦
    { net with
      pipes := (net.pipes.insert ⟨w.receiver, w.inPort, w.pattern, fwd⟩).modify fwd
        fun side ↦ { side with reverse := back } }
  alterNode w.sender fun n ↦ { n with next := n.next ++ [fwd] }
  alterNode w.receiver fun n ↦ { n with prev := n.prev ++ [back] }
  return fwd

/-- Removes one side of a pipe and takes it from its node. -/
def removeSide (h : Handle) (side : Pipe) : Engine Unit := do
  update fun net ↦ { net with pipes := net.pipes.erase h }
  updateNode side.node fun n ↦
    { n with next := n.next.filter (· ≠ h), prev := n.prev.filter (· ≠ h) }

/-- Removes both sides of a pipe. -/
def removePipe (h : Handle) : Engine Unit := do
  let some side ← pipe? h | return
  removeSide h side
  if let some other ← pipe? side.reverse then removeSide side.reverse other

/-- Builds the pipes of a new node. -/
def connect (key : NodeKey) : Engine Unit := do
  let n ← node key
  (← ask fun net ↦ net.wiresOf n).forM fun w ↦ discard (addPipe w)

/-- Removes all pipes of a node. -/
def disconnect (key : NodeKey) : Engine Unit := do
  let n ← node key
  (n.next ++ n.prev).forM removePipe

/-- Builds the pipe from a node to another along a link, if some header can pass, and sends flows
down. -/
def joinAlong (l : Link) (s r : NodeKey) : Engine Unit := do
  let sender ← node s
  let receiver ← node r
  let some p ← check (receiver.overlap sender.sends) | return
  let fwd ← addPipe ⟨s, l.source, r, l.target, p⟩
  sendFlows s fwd

/-- Builds the pipes of a new link, one by one, and sends flows down each as soon as it is there. -/
def connectLink (l : Link) : Engine Unit := do
  let net ← network
  (net.directory.exits.listed l.source).forM fun s ↦
    (net.directory.entrances.listed l.target).forM (joinAlong l s)

/-- Removes the pipe with this forward side, if it runs along the link, with the flows that came by
it. -/
def cutPipe (l : Link) (fwd : Handle) : Engine Unit := do
  let side ← pipe fwd
  if side.port ≠ l.source then return
  let back ← pipe side.reverse
  if back.port ≠ l.target then return
  (← node back.node).flows.forM fun h ↦ do
    if ((← flow? h).any fun f ↦ f.pipe == some fwd) then removeFlow h
  removePipe fwd

/-- Removes the pipes along a link, with the flows that came by them. -/
def disconnectLink (l : Link) : Engine Unit := do
  let net ← network
  (net.directory.exits.listed l.source).forM fun s ↦ do
    (← node s).next.forM (cutPipe l)

end Engine

end HeaderFlow
