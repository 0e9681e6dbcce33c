import HeaderFlow.Proofs.Pattern.Overwrite
import HeaderFlow.Network.Basic

/-!
# What a node is for as long as it is there

Pipes, flows and influences come to a node and go again, and a probe remembers what it has seen. The
rest of a node stays as it was when the node was added: its *core*. The core decides where the node
is entered in the directory and in its table, which pipes lead to it and what it does to headers, so
**most of what is proved about nodes is said of cores**.

`Core.Proper` says what a node must be like, by its kind. It holds of all nodes from the start,
since it is about the core alone.
-/

namespace HeaderFlow

/-- What a node does, without what changes while it is there. -/
inductive Kind where
  | rule (table : TableId) (index : UInt32) (overwrite : Option Overwrite)
  | source
  | probe

/-- The type of the nodes of a kind. -/
def Kind.type : Kind → NodeType
  | .rule .. => .rule
  | .source => .source
  | .probe => .sourceProbe

/-- The kind of a role. -/
def Role.kind : Role → Kind
  | .rule r => .rule r.table r.index r.overwrite
  | .source => .source
  | .probe _ => .probe

/-- A node without what changes while it is there. -/
structure Core where
  key : NodeKey
  id : NodeId
  kind : Kind
  accepts : Option Pattern
  sends : Pattern
  inPorts : PortSet
  outPorts : PortSet
  inputLayer : Bool
  outputLayer : Bool

namespace Core

/-- The node is a rule. -/
def IsRule (n : Core) : Prop := ∃ table index overwrite, n.kind = .rule table index overwrite

/-- What a node must be like, by its kind. -/
def Proper (n : Core) : Prop :=
  match n.kind with
  | .rule _ _ overwrite => (∀ p ∈ n.inPorts.toList, n.inputLayer = true) ∧
      (∀ q ∈ n.outPorts.toList, n.outputLayer = true) ∧ ∃ p, n.accepts = some p ∧
      match overwrite with
      | none => ∀ x, p.Matches x → n.sends.Matches x
      | some w => w.mask.Concrete → ∀ x y, p.Matches x → w.mask.Turns w.value x y →
          n.sends.Matches y
  | .source => n.inPorts.toList = [] ∧ n.outputLayer = false ∧ ∀ x, n.sends.Matches x
  | .probe => n.outPorts.toList = [] ∧ n.outputLayer = false

end Core

namespace Node

/-- The part of a node that stays. -/
def core (n : Node) : Core where
  key := n.key
  id := n.id
  kind := n.role.kind
  accepts := n.accepts
  sends := n.sends
  inPorts := n.inPorts
  outPorts := n.outPorts
  inputLayer := n.inputLayer
  outputLayer := n.outputLayer

@[simp] theorem key_core (n : Node) : n.core.key = n.key := rfl

@[simp] theorem type_core (n : Node) : n.core.kind.type = n.type := by
  rw [core, type]
  cases n.role <;> rfl

/-- A node is a rule of a table at a place if its core says so. -/
theorem kind_core_eq_rule {n : Node} {table : TableId} {index : UInt32} :
    (∃ w, n.core.kind = .rule table index w) ↔
      ∃ r, n.rule? = some r ∧ r.table = table ∧ r.index = index := by
  rw [core, rule?]
  cases n.role <;> simp [Role.kind]

/-- The influences in which a node loses; only rules do. -/
def lost (n : Node) : List Handle := n.rule?.elim [] Rule.influencedBy

/-- The influences in which a node wins; only rules do. -/
def won (n : Node) : List Handle := n.rule?.elim [] Rule.effectOn

end Node

end HeaderFlow
