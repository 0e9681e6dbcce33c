import HeaderFlow.Document.Anchor

/-!
# Reading documents

A text is a document of YAML. It is cut into tokens, these form nodes, and the nodes stand for
values.

A scalar without quotes stands for what it looks like, and **a scalar in quotes or in a block is a
string**, unless a tag says otherwise. A reference stands for the same value as its node. A key that
occurs twice in one mapping is refused, and so is a document that is nested deeper than
`nestingLimit` or follows more references than a hundred times its size.
-/

namespace HeaderFlow.Document

namespace Node

/-- The node for which a reference stands. The state counts the references that were followed, and
there must not be more than `limit`. -/
def follow (targets : Nat → Option (Node Nat)) (limit : Nat) :
    Node Nat → StateT Nat Option (Node Nat)
  | .reference slot => do
    let followed ← modifyGet fun n ↦ (n + 1, n + 1)
    guard (followed ≤ limit)
    targets slot
  | n => return n

/-- The value of a node that is nested at most `depth` deep, with the nodes that its references
stand for. -/
def valueAt (targets : Nat → Option (Node Nat)) (limit : Nat) :
    (depth : Nat) → Node Nat → StateT Nat Option Value
  | 0, n => do
    match ← follow targets limit n with
    | .scalar l plain text => Tag.scalar? l.tag plain text
    | _ => failure
  | depth + 1, n => do
    match ← follow targets limit n with
    | .scalar l plain text => Tag.scalar? l.tag plain text
    | .seq l items => return Tag.applyTo l.tag (.seq (← items.mapM (valueAt targets limit depth)))
    | .map l entries =>
      let entries ← entries.foldlM (fun es (k, v) ↦ do
        let k ← valueAt targets limit depth k
        let v ← valueAt targets limit depth v
        Value.addEntry es k v) []
      return Tag.applyTo l.tag (.map entries)
    | .reference _ => failure

/-- The value of a whole document. -/
def value? (n : Node String) : Option Value := do
  let (linked, anchors) ← n.link.run {}
  (linked.valueAt anchors.target? (100 * n.marks) nestingLimit).run' 0

end Node

/-- Reads a text that is a single document. -/
def read? (text : String) : Option Value := do
  let (n, ts) ← Node.ofTokens? (← tokens? text)
  if ts.all (· == .documentEnd) then n.value? else none

/-- The language of documents in which settings are kept: YAML, of which it writes only what this
library needs. -/
def Codec.yaml : Codec := ⟨Document.read?, Value.write⟩

end HeaderFlow.Document
