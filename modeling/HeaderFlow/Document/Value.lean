import HeaderFlow.Document.Binary64

/-!
# Document values

Settings are read from documents, and networks, spaces and conditions are exported as documents. A
document is a tree of sequences and mappings with scalars at its leaves. The keys of a mapping are
values, **no key occurs twice**, and the order of the entries is kept. A value may have the name of
a kind before it; who reads the value decides whether the kind matters.
-/

namespace HeaderFlow.Document

/-- An atom of a document. -/
inductive Scalar where
  | null
  | bool (value : Bool)
  | int (value : Int)
  | real (value : Binary64)
  | string (value : String)
  deriving DecidableEq, Repr

/-- A document. -/
inductive Value where
  | scalar (value : Scalar)
  | seq (items : List Value)
  | map (entries : List (Value × Value))
  /-- A value of a kind. -/
  | tagged (kind : String) (value : Value)
  deriving Repr

instance : Inhabited Value := ⟨.scalar .null⟩

namespace Value

/-! ### Building -/

/-- The absent value. -/
def null : Value := .scalar .null

/-- A truth value. -/
def bool (b : Bool) : Value := .scalar (.bool b)

/-- A natural number. -/
def nat (n : Nat) : Value := .scalar (.int n)

/-- A string. -/
def string (s : String) : Value := .scalar (.string s)

/-- A mapping whose keys are strings. -/
def record (fields : List (String × Value)) : Value :=
  .map (fields.map fun (k, v) ↦ (.string k, v))

/-- A value that may be absent. -/
def option {α : Type} (f : α → Value) : Option α → Value
  | some a => f a
  | none => null

/-! ### Comparing -/

mutual

/-- The two values say the same. **The order of the entries of a mapping does not matter.** -/
def same : Value → Value → Bool
  | .scalar a, .scalar b => a = b
  | .seq as, .seq bs => sameItems as bs
  | .map es, .map fs => es.length == fs.length && sameEntries es fs
  | .tagged s a, .tagged t b => s == t && same a b
  | _, _ => false

/-- The items of two sequences say the same, one by one. -/
def sameItems : List Value → List Value → Bool
  | [], [] => true
  | a :: as, b :: bs => same a b && sameItems as bs
  | _, _ => false

/-- Every entry of the first mapping is an entry of the second. -/
def sameEntries : List (Value × Value) → List (Value × Value) → Bool
  | [], _ => true
  | (k, v) :: es, fs => (fs.any fun f ↦ same k f.1 && same v f.2) && sameEntries es fs

end

mutual

/-- Whether two values are equal, with their entries in the same order. -/
def decEq : (a b : Value) → Decidable (a = b)
  | .scalar a, b =>
    match b with
    | .scalar b => decidable_of_iff (a = b) (scalar.injEq a b ▸ .rfl)
    | .seq _ | .map _ | .tagged _ _ => isFalse Value.noConfusion
  | .seq as, b =>
    match b with
    | .seq bs => @decidable_of_iff _ (as = bs) (seq.injEq as bs ▸ .rfl) (decEqItems as bs)
    | .scalar _ | .map _ | .tagged _ _ => isFalse Value.noConfusion
  | .map es, b =>
    match b with
    | .map fs => @decidable_of_iff _ (es = fs) (map.injEq es fs ▸ .rfl) (decEqEntries es fs)
    | .scalar _ | .seq _ | .tagged _ _ => isFalse Value.noConfusion
  | .tagged k v, b =>
    match b with
    | .tagged l w =>
      have := decEq v w
      decidable_of_iff (k = l ∧ v = w) (tagged.injEq k v l w ▸ .rfl)
    | .scalar _ | .seq _ | .map _ => isFalse Value.noConfusion

/-- Whether two lists of values are equal. -/
def decEqItems : (as bs : List Value) → Decidable (as = bs)
  | [], [] => isTrue rfl
  | [], _ :: _ | _ :: _, [] => isFalse nofun
  | a :: as, b :: bs =>
    have := decEq a b
    have := decEqItems as bs
    decidable_of_iff (a = b ∧ as = bs) (List.cons.injEq a as b bs ▸ .rfl)

/-- Whether two lists of entries are equal. -/
def decEqEntries : (es fs : List (Value × Value)) → Decidable (es = fs)
  | [], [] => isTrue rfl
  | [], _ :: _ | _ :: _, [] => isFalse nofun
  | (k, v) :: es, (l, w) :: fs =>
    have := decEq k l
    have := decEq v w
    have := decEqEntries es fs
    decidable_of_iff ((k = l ∧ v = w) ∧ es = fs) (by rw [List.cons.injEq, Prod.mk.injEq])

end

instance : DecidableEq Value := decEq

/-! ### Looking up and merging -/

/-- The value without its kind. -/
def untagged : Value → Value
  | .tagged _ v => v.untagged
  | v => v

/-- The value under a key. -/
def lookup (key : Value) (entries : List (Value × Value)) : Option Value :=
  (entries.find? fun e ↦ e.1.same key).map Prod.snd

/-- The value under a string key; only a mapping has one, of whatever kind. -/
def get? (v : Value) (key : String) : Option Value :=
  match v.untagged with
  | .map entries => lookup (.string key) entries
  | _ => none

/-- Adds an entry at the end, unless its key is there already. -/
def addEntry (entries : List (Value × Value)) (k v : Value) : Option (List (Value × Value)) :=
  if (lookup k entries).isSome then none else some (entries ++ [(k, v)])

/-- Replaces the value under a key that is there. -/
def replace (key v : Value) (entries : List (Value × Value)) : List (Value × Value) :=
  entries.map fun (k, w) ↦ if k.same key then (k, v) else (k, w)

mutual

/-- Copies `top` onto `base`, **mapping by mapping**; anything else replaces what it meets. -/
def overlay (base : Value) : (top : Value) → Value
  | .map os =>
    match base with
    | .map bs => .map (overlayEntries bs os)
    | _ => .map os
  | v => v

/-- Copies entries onto a mapping: a known key is overlaid, a new one is added at the end. -/
def overlayEntries (bs : List (Value × Value)) : List (Value × Value) → List (Value × Value)
  | [] => bs
  | (k, v) :: os =>
    match lookup k bs with
    | some old => overlayEntries (replace k (overlay old v) bs) os
    | none => overlayEntries (bs ++ [(k, v)]) os

end

/-! ### Writing -/

/-- The written form of a scalar. Strings are written as they are, which suits the plain words that
stand in the documents of this library. -/
def writeScalar : Scalar → String
  | .null => "null"
  | .bool b => if b then "true" else "false"
  | .int i => toString i
  | .real x => x.text
  | .string s => s

/-- The written form of a key; one that is no scalar has none and is left empty. -/
def writeKey : Value → String
  | .scalar s => writeScalar s
  | .tagged kind v => "!" ++ kind ++ " " ++ writeKey v
  | _ => ""

/-- Blanks that indent a line by `n` levels of two. -/
def indentation (n : Nat) : String := String.ofList (List.replicate (2 * n) ' ')

mutual

/-- What follows the key of an entry, down to the end of its last line. -/
def writeAfterKey (level : Nat) : Value → String
  | .scalar s => " " ++ writeScalar s ++ "\n"
  | .map entries => "\n" ++ writeEntries (level + 1) entries
  | .seq items => "\n" ++ writeItems (level + 1) items
  | .tagged kind v => " !" ++ kind ++ writeAfterKey level v

/-- The entries of a mapping, each on lines of its own. -/
def writeEntries (level : Nat) : List (Value × Value) → String
  | [] => ""
  | (k, v) :: rest =>
    indentation level ++ writeKey k ++ ":" ++ writeAfterKey level v ++ writeEntries level rest

/-- The items of a sequence, each on lines of its own. -/
def writeItems (level : Nat) : List Value → String
  | [] => ""
  | v :: rest => indentation level ++ "-" ++ writeAfterKey level v ++ writeItems level rest

end

/-- The written form of a mapping: an entry a line, nested mappings indented below their key. -/
def write : Value → String
  | .map entries => writeEntries 0 entries
  | .scalar s => writeScalar s ++ "\n"
  | .seq items => writeItems 0 items
  | .tagged kind v => "!" ++ kind ++ "\n" ++ write v

end Value

/-! ### Languages -/

/-- A language of documents: how texts are read, and how values are written. What is said of
settings does not depend on which one it is. -/
structure Codec where
  /-- Reads a text, unless it is no document. -/
  read? : String → Option Value
  write : Value → String

/-- **The value is read back from what is written of it.** -/
def Codec.Faithful (codec : Codec) (v : Value) : Prop := codec.read? (codec.write v) = some v

end HeaderFlow.Document
