import HeaderFlow.Document.Node

/-!
# Anchors and references

An anchor gives a node a name, and a reference after it stands for the node. **A reference may also
stand inside the node that it stands for**, so a document is first a tree with references; what they
stand for is looked up when values are made of the nodes.

Names are kept in *slots*. A node with an anchor takes the slot whose number is the count of the
names so far, and its name is put into that slot. So a name that is given anew shares its slot with
the next new name, and **a reference stands for the node that took its slot last in the whole
document**.
-/

namespace HeaderFlow.Document

/-- The anchors that were met up to a place in a document. -/
structure Anchors where
  /-- The slot of each name. -/
  slots : List (String × Nat) := []
  /-- The number of nodes with an anchor. -/
  count : Nat := 0
  /-- Each slot with the number of the node that took it, the latest first. -/
  takers : List (Nat × Nat) := []
  /-- The nodes that are complete, by number. -/
  nodes : List (Nat × Node Nat) := []

namespace Anchors

/-- Gives a name to the node that begins here, and a number. -/
def add (a : Anchors) (name : String) : Nat × Anchors :=
  let slot := a.slots.length
  (a.count, { a with
    slots := (name, slot) :: a.slots.filter (·.1 ≠ name)
    count := a.count + 1
    takers := (slot, a.count) :: a.takers })

/-- The node that took a slot last. -/
def target? (a : Anchors) (slot : Nat) : Option (Node Nat) := do
  a.nodes.lookup (← a.takers.lookup slot)

end Anchors

namespace Node

/-- The number of marks in the written form: one for a scalar or a reference, two for a
collection. -/
def marks {α : Type} : Node α → Nat
  | .reference _ | .scalar .. => 1
  | .seq _ items => 2 + itemMarks items
  | .map _ entries => 2 + entryMarks entries
where
  /-- The number of marks of all items. -/
  itemMarks : List (Node α) → Nat
    | [] => 0
    | n :: ns => n.marks + itemMarks ns
  /-- The number of marks of all entries. -/
  entryMarks : List (Node α × Node α) → Nat
    | [] => 0
    | (k, v) :: es => k.marks + v.marks + entryMarks es

/-- Enters a node under its anchor, if it has one. -/
def anchored (l : Label) (inner : StateT Anchors Option (Node Nat)) :
    StateT Anchors Option (Node Nat) :=
  match l.anchor with
  | none => inner
  | some name => do
    let number ← modifyGet (·.add name)
    let n ← inner
    modify fun a ↦ { a with nodes := (number, n) :: a.nodes }
    return n

mutual

/-- Finds the slots of all references, **which must have come up before**. -/
def link : Node String → StateT Anchors Option (Node Nat)
  | .reference name => do
    let slot ← (← get).slots.lookup name
    return .reference slot
  | .scalar l plain text => anchored l (return .scalar l plain text)
  | .seq l items => anchored l do return .seq l (← linkItems items)
  | .map l entries => anchored l do return .map l (← linkEntries entries)

/-- Finds the slots of all references in items. -/
def linkItems : List (Node String) → StateT Anchors Option (List (Node Nat))
  | [] => return []
  | n :: ns => do
    let n ← link n
    return n :: (← linkItems ns)

/-- Finds the slots of all references in entries. -/
def linkEntries : List (Node String × Node String) →
    StateT Anchors Option (List (Node Nat × Node Nat))
  | [] => return []
  | (k, v) :: es => do
    let k ← link k
    let v ← link v
    return (k, v) :: (← linkEntries es)

end

end Node

end HeaderFlow.Document
