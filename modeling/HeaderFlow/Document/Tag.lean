import HeaderFlow.Document.Cursor
import HeaderFlow.Document.Value
import HeaderFlow.Document.Plain

/-!
# Tags

A tag before a node says of which kind the node is. It is the text of a URI, in full or with a
*handle* for its beginning. A handle is one or two exclamation marks with a name between the two;
what it stands for is fixed for `!` and `!!`, unless a *directive* before the document says
otherwise.

The kinds with a name of their own in the core schema decide how a scalar is read: as a truth value,
an integer, a number or null. A tag that begins with an exclamation mark is *local*, and its name
stays with the value. **Any other tag makes a scalar a string** and means nothing before a
collection.
-/

namespace HeaderFlow.Document

/-- The characters of names: letters and digits of ASCII, the underscore and the dash. -/
def isNameChar (c : Char) : Bool := c.isAlphanum || c == '_' || c == '-'

/-! ### The text of tags -/

/-- The characters of tags. In a tag that is written in full, also some that are marks elsewhere. -/
def isTagChar (full : Bool) (c : Char) : Bool :=
  isNameChar c || ";/?:@&=+$.!~*'()%".toList.contains c || (full && ",[]".toList.contains c)

/-- Reads a byte that is written as a percent sign and two digits in base sixteen. -/
def readByte : List Char → Option (UInt8 × List Char)
  | '%' :: a :: b :: rest => do
    return ((16 * (← Plain.digit? 16 a) + (← Plain.digit? 16 b)).toUInt8, rest)
  | _ => none

/-- The number of bytes after the byte `b` that belong to the same character of UTF-8. -/
def bytesAfter? (b : UInt8) : Option Nat :=
  if b &&& 0x80 = 0x00 then some 0
  else if b &&& 0xe0 = 0xc0 then some 1
  else if b &&& 0xf0 = 0xe0 then some 2
  else if b &&& 0xf8 = 0xf0 then some 3
  else none

/-- Reads `n` bytes that are not the first of their character. -/
def readLaterBytes : (n : Nat) → List Char → Option (List UInt8 × List Char)
  | 0, cs => some ([], cs)
  | n + 1, cs => do
    let (b, cs) ← readByte cs
    guard (b &&& 0xc0 = 0x80)
    let (bs, cs) ← readLaterBytes n cs
    return (b :: bs, cs)

/-- Reads the bytes of a character that is written with percent signs. -/
def readBytes (cs : List Char) : Option (List UInt8 × List Char) := do
  let (b, cs) ← readByte cs
  let (bs, cs) ← readLaterBytes (← bytesAfter? b) cs
  return (b :: bs, cs)

/-- Reads the characters of a tag. The fuel is the length of the text. -/
def readTagBytes (full : Bool) : (fuel : Nat) → List Char → Option (List UInt8 × List Char)
  | 0, cs => some ([], cs)
  | _ + 1, [] => some ([], [])
  | fuel + 1, c :: rest =>
    if !isTagChar full c then some ([], c :: rest)
    else do
      let (bs, rest) ← if c = '%' then readBytes (c :: rest) else some ([c.toUInt8], rest)
      let (more, rest) ← readTagBytes full fuel rest
      return (bs ++ more, rest)

/-- Reads the text of a tag, which must not be missing. A byte that is zero ends the text, though
not what is read. -/
def readTagText (full : Bool) (cs : List Char) : Option (List UInt8 × List Char) := do
  let (bs, rest) ← readTagBytes full cs.length cs
  if bs.isEmpty then none else some (bs.takeWhile (· ≠ 0), rest)

/-- The text that an exclamation mark stands for. -/
def bang : List UInt8 := "!".toUTF8.toList

/-! ### Written tags -/

/-- A tag as it is written. -/
structure WrittenTag where
  /-- The handle; a tag that is written in full has none. -/
  handle : Option String
  text : List UInt8
  deriving DecidableEq, Repr

/-- Reads a tag at its exclamation mark. A single exclamation mark is a tag in full. -/
def readTag : List Char → Option (WrittenTag × List Char)
  | '!' :: '<' :: cs => do
    match ← readTagText true cs with
    | (text, '>' :: rest) => some (⟨none, text⟩, rest)
    | _ => none
  | '!' :: cs =>
    let name := cs.takeWhile isNameChar
    match cs.dropWhile isNameChar with
    | '!' :: cs => do
      let (text, rest) ← readTagText false cs
      return (⟨some ("!" ++ String.ofList name ++ "!"), text⟩, rest)
    | _ => do
      let (bs, rest) ← readTagBytes false cs.length cs
      match bs.takeWhile (· ≠ 0) with
      | [] => return (⟨none, bang⟩, rest)
      | text => return (⟨some "!", text⟩, rest)
  | _ => none

/-- Reads a tag. A blank or the end of the line must follow, or inside brackets a comma. -/
def Cursor.tag (c : Cursor) (inFlow : Bool) : Option (WrittenTag × Cursor) := do
  let (t, rest) ← readTag c.rest
  guard (isGapOrEnd rest.head? || (inFlow && rest.head? == some ','))
  return (t, c.skip (c.rest.length - rest.length))

/-! ### Directives -/

/-- A line before a document that says how to read it. -/
inductive Directive where
  /-- The version of the format. -/
  | version (major minor : Nat)
  /-- What a handle stands for. -/
  | handle (name : String) (text : List UInt8)
  deriving DecidableEq, Repr

/-- Reads a part of a version, which has at most nine digits. -/
def readVersionPart (cs : List Char) : Option (Nat × List Char) := do
  let digits := cs.takeWhile Char.isDigit
  guard (digits.length ≤ 9)
  return (← Plain.digits? 10 digits, cs.dropWhile Char.isDigit)

/-- Reads a version. -/
def readVersion (cs : List Char) : Option (Directive × List Char) := do
  match ← readVersionPart cs with
  | (major, '.' :: cs) =>
    let (minor, cs) ← readVersionPart cs
    return (.version major minor, cs)
  | _ => none

/-- Reads a handle and what it stands for. -/
def readHandle : List Char → Option (Directive × List Char)
  | '!' :: cs => do
    let name := cs.takeWhile isNameChar
    let (handle, rest) ← match cs.dropWhile isNameChar with
      | '!' :: rest => some ("!" ++ String.ofList name ++ "!", rest)
      | rest => if name.isEmpty then some ("!", rest) else none
    guard (rest.head?.any isBlank)
    let (text, rest) ← readTagText true (rest.dropWhile isBlank)
    guard (isGapOrEnd rest.head?)
    return (.handle handle text, rest)
  | _ => none

/-- Reads a directive at its percent sign, with the rest of its line, which may have a comment. -/
def Cursor.directive (c : Cursor) : Option (Directive × Cursor) := do
  let cs := c.rest.drop 1
  let rest := cs.dropWhile isNameChar
  guard (isGapOrEnd rest.head?)
  let rest := rest.dropWhile isBlank
  let (d, rest) ← match String.ofList (cs.takeWhile isNameChar) with
    | "YAML" => readVersion rest
    | "TAG" => readHandle rest
    | _ => none
  let rest := rest.dropWhile isBlank
  let rest := if rest.head? = some '#' then rest.dropWhile (!isBreak ·) else rest
  guard (rest.head?.all isBreak)
  let c := c.skip (c.rest.length - rest.length)
  return (d, if rest.isEmpty then c else c.skipBreak)

/-! ### Handles -/

/-- What handles stand for; a handle does not occur twice. -/
abbrev Handles := List (String × List UInt8)

namespace Handles

/-- What `!` and `!!` stand for where nothing else is said. -/
def standard : Handles := [("!", bang), ("!!", "tag:yaml.org,2002:".toUTF8.toList)]

/-- The whole text of a tag, unless its handle is not known. -/
def expand? (hs : Handles) (t : WrittenTag) : Option (List UInt8) :=
  match t.handle with
  | none => some t.text
  | some h => ((hs ++ standard).lookup h).map (· ++ t.text)

end Handles

/-! ### Kinds -/

/-- What a tag says of a node. -/
inductive Tag where
  | null
  | bool
  | int
  | real
  /-- A kind that is not in the core schema. -/
  | other
  /-- A local kind, which stays with the value. -/
  | named (name : String)
  deriving DecidableEq, Repr

namespace Tag

/-- The text without an exclamation mark before it; an exclamation mark alone stays. -/
def dropBang (s : String) : String :=
  match s.toList with
  | '!' :: c :: cs => String.ofList (c :: cs)
  | _ => s

/-- The tag with a text. A local tag whose bytes are not UTF-8 says nothing. -/
def ofText? (bs : List UInt8) : Option Tag :=
  let text := String.fromUTF8? ⟨bs.toArray⟩
  if bs.head? = bang.head? then text.map fun s ↦ .named (dropBang (dropBang s))
  else match text with
    | some "tag:yaml.org,2002:null" => some .null
    | some "tag:yaml.org,2002:bool" => some .bool
    | some "tag:yaml.org,2002:int" => some .int
    | some "tag:yaml.org,2002:float" => some .real
    | _ => some .other

/-- What a collection with a tag stands for. -/
def applyTo : Option Tag → Value → Value
  | some (.named name), v => .tagged name v
  | _, v => v

/-- What a scalar stands for, unless it is refused. A tag of the core schema reads the text of
quoted scalars too. -/
def scalar? (tag : Option Tag) (plain : Bool) (text : List Char) : Option Value :=
  match tag with
  | some .null => if Plain.isNull text then some .null else none
  | some .bool => (Plain.bool? text).map .bool
  | some .int => do
    let i ← Plain.integer? text
    if Plain.isShort i then some (.scalar (.int i)) else none
  | some .real => (Plain.number? text).map fun x ↦ .scalar (.real x)
  | some .other => some string
  | some (.named name) => untagged.map (.tagged name)
  | none => untagged
where
  /-- The text as it stands. -/
  string : Value := .string (String.ofList text)
  /-- What the scalar stands for without a tag. -/
  untagged : Option Value := if plain then (Plain.resolve text).map .scalar else some string

end Tag

end HeaderFlow.Document
