import HeaderFlow.Pattern.Text
import HeaderFlow.Space.Basic
import HeaderFlow.Text.Blank

/-!
# The written form of spaces

A space is written as its regions with plus signs between them, in parentheses, and the empty space
as `(nil)`. A region without holes is written as its frame, one with holes as the difference of the
frame and the space of its holes.

```
space  := (nil) | ( region + region + … )
region := pattern | ( pattern - ( region + region + … ) )
```

Reading accepts more than writing produces. With blanks allowed between all parts, it accepts

```
list := item | item + list
item := ( nil ) | ( list ) | ( list - list ) | pattern | pattern - item
```

where a pattern is the longest run of trits and commas, and **a pattern outside parentheses takes a
minus sign that follows it**. The left side of a difference in parentheses must come to a single
region. Holes are clipped to the frame as they are read, so those outside it disappear.
-/

namespace HeaderFlow.Space

/-! ### Writing -/

/-- Puts a plus sign between texts. -/
def joinPlus : List (List Char) → List Char
  | [] => []
  | [t] => t
  | t :: ts => t ++ " + ".toList ++ joinPlus ts

mutual

/-- The written form of a region. -/
def writeRegion : Region → List Char
  | .mk f [] => f.text.toList
  | .mk f (h :: hs) =>
    "(".toList ++ f.text.toList ++ " - (".toList ++ joinPlus (writeRegions (h :: hs)) ++ "))".toList

/-- The written forms of regions. -/
def writeRegions : List Region → List (List Char)
  | [] => []
  | r :: rs => writeRegion r :: writeRegions rs

end

/-- The written form of a space. -/
def text (s : Space) : String :=
  match s.regions with
  | [] => "(nil)"
  | rs => String.ofList ("(".toList ++ joinPlus (writeRegions rs) ++ ")".toList)

/-! ### Reading -/

/-- A place in the text that is being read. -/
structure Cursor where
  /-- The characters still to be read. -/
  rest : List Char
  /-- The number of bytes before them in UTF-8. -/
  offset : Nat
  /-- The length of the headers, once it is known. -/
  bytes : Option Nat

namespace Cursor

/-- The beginning of a text. -/
def start (text : String) (bytes : Option Nat) : Cursor := ⟨text.toList, 0, bytes⟩

/-- Moves past the characters as long as they satisfy `p`. -/
def skipWhile (p : Char → Bool) (c : Cursor) : Cursor :=
  { c with
    rest := c.rest.dropWhile p
    offset := c.offset + tally Char.utf8Size (c.rest.takeWhile p) }

/-- Moves past blanks. -/
def skipBlanks (c : Cursor) : Cursor := c.skipWhile Text.isBlank

/-- Moves past `n` characters. -/
def advance (n : Nat) (c : Cursor) : Cursor :=
  { c with
    rest := c.rest.drop n
    offset := c.offset + tally Char.utf8Size (c.rest.take n) }

end Cursor

/-- The characters of which a written pattern consists. -/
def isPatternChar (c : Char) : Bool := c == ',' || (Trit.ofChar? c).isSome

/-- Moves past blanks and then past the character `wanted`. -/
def expect (text : String) (wanted : Char) (c : Cursor) : Except TextError Cursor :=
  let c := c.skipBlanks
  match c.rest with
  | [] => .error (.expectedAtEnd wanted text)
  | d :: _ => if d = wanted then .ok (c.advance 1) else .error (.badChar d c.offset)

/-- Reads a pattern, whose length must be that of the headers; the first pattern fixes the length if
it was not given. -/
def readPattern (text : String) (c : Cursor) : Except TextError (Pattern × Cursor) := do
  let c := c.skipBlanks
  match c.rest, c.rest.takeWhile isPatternChar with
  | [], _ => .error (.unexpectedEnd text)
  | d :: _, [] => .error (.badChar d c.offset)
  | _, run =>
    let p ← Pattern.parse (String.ofList run)
    let c := c.skipWhile isPatternChar
    match c.bytes with
    | some n => if n = p.bytes then .ok (p, c) else .error (.lengthMismatch n p.bytes)
    | none => .ok (p, { c with bytes := some p.bytes })

/-- Takes the regions `right` out of the only region of `left`. All patterns of a text have one
length, so the clipping never fails. -/
def difference (text : String) (left right : List Region) : Except TextError Region :=
  match left with
  | [r] =>
    match Region.clipList right r.frame with
    | .ok hs => .ok (.mk r.frame (r.holes ++ hs))
    | .error _ => .error (.lengthMismatch r.frame.bytes 0)
  | _ => .error (.severalMinuends text)

mutual

/-- Reads items with plus signs between them. -/
def readList (text : String) : (fuel : Nat) → Cursor → Except TextError (List Region × Cursor)
  | 0, _ => .error (.unexpectedEnd text)
  | fuel + 1, c => do
    let (rs, c) ← readItem text fuel c
    readMore text fuel rs c

/-- Reads further items of a list, each after a plus sign. -/
def readMore (text : String) : (fuel : Nat) → List Region → Cursor →
    Except TextError (List Region × Cursor)
  | 0, _, _ => .error (.unexpectedEnd text)
  | fuel + 1, rs, c =>
    let c := c.skipBlanks
    match c.rest with
    | '+' :: _ => do
      let (qs, c) ← readItem text fuel (c.advance 1)
      readMore text fuel (rs ++ qs) c
    | _ => .ok (rs, c)

/-- Reads one item. -/
def readItem (text : String) : (fuel : Nat) → Cursor → Except TextError (List Region × Cursor)
  | 0, _ => .error (.unexpectedEnd text)
  | fuel + 1, c =>
    let c := c.skipBlanks
    match c.rest with
    | [] => .error (.unexpectedEnd text)
    | '(' :: _ =>
      let c := (c.advance 1).skipBlanks
      match c.rest with
      | 'n' :: 'i' :: 'l' :: _ => do
        return ([], ← expect text ')' (c.advance 3))
      | _ => do
        let (left, c) ← readList text fuel c
        let c := c.skipBlanks
        match c.rest with
        | '-' :: _ => do
          let (right, c) ← readList text fuel (c.advance 1)
          let c ← expect text ')' c
          return ([← difference text left right], c)
        | _ => do
          return (left, ← expect text ')' c)
    | _ => do
      let (p, c) ← readPattern text c
      let c := c.skipBlanks
      match c.rest with
      | '-' :: _ => do
        let (right, c) ← readItem text fuel (c.advance 1)
        return ([← difference text [.plain p] right], c)
      | _ => return ([.plain p], c)

end

/-- Reads a whole text. Every call of a reader consumes a character or is followed by one that does,
so twice the length of the text, and two more, are calls enough. -/
def readAll (text : String) (bytes : Option Nat) : Except TextError (List Region × Cursor) := do
  let c := Cursor.start text bytes
  let (rs, c) ← readList text (2 * c.rest.length + 2) c
  let c := c.skipBlanks
  match c.rest with
  | [] => .ok (rs, c)
  | d :: _ => .error (.badChar d c.offset)

/-- Reads a space of headers of a given length. -/
def parse (text : String) (bytes : Nat) : Except TextError Space := do
  let (rs, _) ← readAll text (some bytes)
  return ofRegions bytes rs

/-- Reads a space and takes the length of the headers from its first pattern; without a pattern it
is `0`. -/
def parseAny (text : String) : Except TextError Space := do
  let (rs, c) ← readAll text none
  return ofRegions (c.bytes.getD 0) rs

end HeaderFlow.Space
