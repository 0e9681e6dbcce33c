import HeaderFlow.PortSet
import HeaderFlow.Space.Basic

/-!
# Chains of hops

A flow that arrives at a probe has come a way, and conditions are about that way. It is given as a
chain of hops, **the probe first and the source last**. The last hop is the *root* of the chain; a
place at or past it is a root as well.
-/

namespace HeaderFlow

/-- The identifier of a node. The table of a rule is in its upper half, the index in its lower. -/
abbrev NodeId : Type := UInt64

/-- The number of a table. -/
abbrev TableId : Type := UInt32

/-- What a node is. -/
inductive NodeType where
  | rule
  | source
  | sink
  | sourceProbe
  | sinkProbe
  deriving DecidableEq, Repr

/-- The written form of a node type. -/
def NodeType.name : NodeType → String
  | .rule => "rule"
  | .source => "source"
  | .sink => "sink"
  | .sourceProbe => "source_probe"
  | .sinkProbe => "sink_probe"

/-- One stop on the way of a flow. -/
structure Hop where
  node : NodeId
  type : NodeType
  /-- The table, if the node is a rule. -/
  table : Option TableId
  /-- The port by which the flow came in. -/
  port : Port
  /-- The node accepts flows at the boundary of its table. -/
  atInput : Bool
  deriving DecidableEq, Repr

/-- The way of a flow from a probe back to its source. -/
structure Chain where
  /-- The headers that arrived at the probe. -/
  processed : Option Space
  /-- The stops, the probe first. -/
  hops : List Hop

namespace Chain

/-- The number of hops. -/
def length (c : Chain) : Nat := c.hops.length

/-- The place is that of the source, or past it. -/
def isRoot (c : Chain) (i : Nat) : Bool := c.length ≤ i + 1

/-- The hops before the root. -/
def inner (c : Chain) : List Hop := c.hops.dropLast

end Chain

/-- The hop is at a rule whose table satisfies `p`. -/
def Hop.isRuleOf (h : Hop) (p : TableId → Bool) : Bool := h.type == .rule && h.table.any p

end HeaderFlow
