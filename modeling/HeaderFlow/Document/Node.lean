import HeaderFlow.Document.Token

/-!
# Nodes of a document

The tokens of a document form a tree of nodes: scalars, sequences and mappings, by indentation or in
brackets. A node may have a tag and a name before it, its *anchor*, and elsewhere in the document a
*reference* to the name can stand for the node. **What the nodes stand for is left open here.**
-/

namespace HeaderFlow.Document

/-- How deep sequences and mappings may be nested. -/
def nestingLimit : Nat := 128

/-- What stands before a node. -/
structure Label where
  anchor : Option String := none
  tag : Option Tag := none
  deriving DecidableEq, Repr

/-- A node of a document, with references of type `α`. -/
inductive Node (α : Type) where
  | reference (target : α)
  /-- A scalar, which is plain if it has no quotes and is not in a block. -/
  | scalar (label : Label) (plain : Bool) (text : List Char)
  | seq (label : Label) (items : List (Node α))
  | map (label : Label) (entries : List (Node α × Node α))

namespace Node

/-- The node that is left out. -/
def missing {α : Type} : Node α := .scalar {} true []

/-! ### Labels -/

/-- What the tokens before a node say. -/
structure Properties where
  anchor : Option String := none
  /-- The whole text of the tag. -/
  tag : Option (List UInt8) := none

namespace Properties

/-- There is nothing before the node. -/
def isEmpty (p : Properties) : Bool := p.anchor.isNone && p.tag.isNone

/-- The label of a collection or of a node that is left out. -/
def label (p : Properties) : Label := ⟨p.anchor, p.tag.bind Tag.ofText?⟩

/-- The label of a scalar, to which **a single exclamation mark says nothing**. -/
def scalarLabel (p : Properties) : Label :=
  if p.tag = some bang then ⟨p.anchor, none⟩ else p.label

/-- Reads a tag and an anchor in one order or the other; both may be missing, and the handle of the
tag must be known. -/
def read (hs : Handles) : List Token → Option (Properties × List Token)
  | .anchor a :: .tag t :: ts | .tag t :: .anchor a :: ts =>
    (hs.expand? t).map fun text ↦ (⟨some a, some text⟩, ts)
  | .anchor a :: ts => some (⟨some a, none⟩, ts)
  | .tag t :: ts => (hs.expand? t).map fun text ↦ (⟨none, some text⟩, ts)
  | ts => some ({}, ts)

end Properties

/-! ### Trees -/

/-- The tokens before which a value is left out in a mapping by indentation. -/
def endsBlockEntry : Option Token → Bool
  | some .key | some .value | some .blockEnd => true
  | _ => false

/-- The tokens before which a value is left out inside brackets that `close` closes. -/
def endsFlowEntry (close : Token) (t : Option Token) : Bool :=
  t == some .flowEntry || t == some close

/-- The comma before a further entry of a collection in brackets, none being needed before the
first. -/
def afterComma (first : Bool) : List Token → Option (List Token)
  | .flowEntry :: ts => if first then none else some ts
  | ts => if first then some ts else none

/-- A node that was read, and the tokens after it. -/
abbrev Parsed := Node String × List Token

mutual

/-- Reads a node. By indentation there may be a sequence or a mapping only where `inBlock` allows
it, and as a part of an entry, where `dashes` allows it, also **a sequence that is not indented**.
After an anchor or a tag the node itself may be left out. The fuel bounds the number of calls: of
two calls one at least takes a token. -/
def read (hs : Handles) : (fuel : Nat) → (depth : Nat) → (inBlock dashes : Bool) → List Token →
    Option Parsed
  | 0, _, _, _, _ => none
  | _ + 1, _, _, _, .reference name :: ts => some (.reference name, ts)
  | fuel + 1, depth, inBlock, dashes, ts => do
    let (p, ts) ← Properties.read hs ts
    match depth, inBlock, dashes, ts with
    | _, _, _, .quoted s :: ts => some (.scalar p.scalarLabel false s, ts)
    | _, _, _, .plain s :: ts => some (.scalar p.scalarLabel true s, ts)
    | depth + 1, _, _, .flowSequenceStart :: ts => readItems hs fuel depth p.label true [] ts
    | depth + 1, _, _, .flowMappingStart :: ts => readEntries hs fuel depth p.label true [] ts
    | depth + 1, true, _, .blockSequenceStart :: ts => readBlockItems hs fuel depth p.label [] ts
    | depth + 1, true, _, .blockMappingStart :: ts => readBlockEntries hs fuel depth p.label [] ts
    | depth + 1, _, true, .blockEntry :: ts =>
      readDashItems hs fuel depth p.label [] (.blockEntry :: ts)
    | _, _, _, ts => if p.isEmpty then none else some (.scalar p.label true [], ts)

/-- Reads the items of a sequence by indentation. -/
def readBlockItems (hs : Handles) : (fuel : Nat) → (depth : Nat) → Label → List (Node String) →
    List Token → Option Parsed
  | fuel + 1, depth, l, items, .blockEntry :: ts =>
    if ts.head? = some .blockEntry ∨ ts.head? = some .blockEnd then
      readBlockItems hs fuel depth l (items ++ [missing]) ts
    else do
      let (v, ts) ← read hs fuel depth true false ts
      readBlockItems hs fuel depth l (items ++ [v]) ts
  | _ + 1, _, l, items, .blockEnd :: ts => some (.seq l items, ts)
  | _, _, _, _, _ => none

/-- Reads the items of a sequence that is not indented, up to a token that is no dash. -/
def readDashItems (hs : Handles) : (fuel : Nat) → (depth : Nat) → Label → List (Node String) →
    List Token → Option Parsed
  | 0, _, _, _, _ => none
  | fuel + 1, depth, l, items, .blockEntry :: ts =>
    if ts.head? = some .blockEntry ∨ endsBlockEntry ts.head? then
      readDashItems hs fuel depth l (items ++ [missing]) ts
    else do
      let (v, ts) ← read hs fuel depth true false ts
      readDashItems hs fuel depth l (items ++ [v]) ts
  | _ + 1, _, l, items, ts => some (.seq l items, ts)

/-- Reads the entries of a mapping by indentation. -/
def readBlockEntries (hs : Handles) : (fuel : Nat) → (depth : Nat) → Label →
    List (Node String × Node String) → List Token → Option Parsed
  | fuel + 1, depth, l, entries, .key :: ts => do
    let (k, ts) ←
      if endsBlockEntry ts.head? then some (missing, ts) else read hs fuel depth true true ts
    let (v, ts) ← match ts with
      | .value :: ts =>
        if endsBlockEntry ts.head? then some (missing, ts) else read hs fuel depth true true ts
      | ts => some (missing, ts)
    readBlockEntries hs fuel depth l (entries ++ [(k, v)]) ts
  | _ + 1, _, l, entries, .blockEnd :: ts => some (.map l entries, ts)
  | _, _, _, _, _ => none

/-- Reads the value of an entry in brackets that `close` closes. -/
def readValue (hs : Handles) : (fuel : Nat) → (depth : Nat) → (close : Token) → List Token →
    Option Parsed
  | fuel + 1, depth, close, .value :: ts =>
    if endsFlowEntry close ts.head? then some (missing, ts) else read hs fuel depth false false ts
  | _ + 1, _, _, ts => some (missing, ts)
  | 0, _, _, _ => none

/-- Reads the items of a sequence in brackets. An item with a key is a mapping of one entry; **a
question mark without a key takes the token after it**. -/
def readItems (hs : Handles) : (fuel : Nat) → (depth : Nat) → Label → (first : Bool) →
    List (Node String) → List Token → Option Parsed
  | 0, _, _, _, _, _ => none
  | _ + 1, _, l, _, items, .flowSequenceEnd :: ts => some (.seq l items, ts)
  | fuel + 1, depth, l, first, items, ts => do
    match ← afterComma first ts with
    | .flowSequenceEnd :: ts => return (.seq l items, ts)
    | .key :: ts =>
      let inner + 1 := depth | none
      let (k, ts) ← if ts.head? = some .value ∨ endsFlowEntry .flowSequenceEnd ts.head? then
          some (missing, ts.tail)
        else read hs fuel inner false false ts
      let (v, ts) ← readValue hs fuel inner .flowSequenceEnd ts
      readItems hs fuel depth l false (items ++ [.map {} [(k, v)]]) ts
    | ts =>
      let (v, ts) ← read hs fuel depth false false ts
      readItems hs fuel depth l false (items ++ [v]) ts

/-- Reads the entries of a mapping in brackets. -/
def readEntries (hs : Handles) : (fuel : Nat) → (depth : Nat) → Label → (first : Bool) →
    List (Node String × Node String) → List Token → Option Parsed
  | 0, _, _, _, _, _ => none
  | _ + 1, _, l, _, entries, .flowMappingEnd :: ts => some (.map l entries, ts)
  | fuel + 1, depth, l, first, entries, ts => do
    match ← afterComma first ts with
    | .flowMappingEnd :: ts => return (.map l entries, ts)
    | .key :: ts =>
      let (k, ts) ← if ts.head? = some .value ∨ endsFlowEntry .flowMappingEnd ts.head? then
          some (missing, ts)
        else read hs fuel depth false false ts
      let (v, ts) ← readValue hs fuel depth .flowMappingEnd ts
      readEntries hs fuel depth l false (entries ++ [(k, v)]) ts
    | ts =>
      let (k, ts) ← read hs fuel depth false false ts
      readEntries hs fuel depth l false (entries ++ [(k, missing)]) ts

end

/-! ### Documents -/

/-- Reads directives. There may be one version, which must be 1.1 or 1.2, and **no handle may be
given twice**. -/
def readDirectives : (versioned : Bool) → Handles → List Token → Option (Handles × List Token)
  | versioned, hs, .directive d :: ts =>
    match d with
    | .version major minor =>
      if versioned ∨ major ≠ 1 ∨ (minor ≠ 1 ∧ minor ≠ 2) then none else readDirectives true hs ts
    | .handle name text =>
      if (hs.lookup name).isSome then none else readDirectives versioned ((name, text) :: hs) ts
  | _, hs, ts => some (hs, ts)

/-- Reads the node of a document, which is left out if nothing is there. After directives there must
be a mark for the start. -/
def ofTokens? (ts : List Token) : Option Parsed := do
  let (hs, rest) ← readDirectives false [] ts
  let read ts := read hs (2 * ts.length + 2) nestingLimit true false ts
  match rest with
  | .documentStart :: rest =>
    match rest with
    | [] | .documentStart :: _ | .documentEnd :: _ | .directive _ :: _ => return (missing, rest)
    | _ => read rest
  | [] => if ts.isEmpty then return (missing, []) else none
  | _ => if rest.length < ts.length then none else read rest

end Node

end HeaderFlow.Document
