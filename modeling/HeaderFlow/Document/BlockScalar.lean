import HeaderFlow.Document.Cursor
import HeaderFlow.Document.Plain

/-!
# Scalars in blocks

A scalar may be written as a block of lines below a mark: a bar keeps the line breaks, an angle
bracket *folds* them, so that the lines between blank lines become one. Lines that begin with a
blank inside the block are not folded.

After the mark there may be a digit for the indentation of the block, which is otherwise the largest
of its first line and the blank lines before that, and a sign for the line breaks at the end: **by
default one is kept**, with a minus none, and with a plus all.
-/

namespace HeaderFlow.Document

/-- What becomes of the line breaks at the end of a block. -/
inductive Chomp where
  /-- One is kept. -/
  | clip
  /-- None is kept. -/
  | strip
  /-- All are kept. -/
  | keep
  deriving DecidableEq, Repr

/-- What stands after the mark of a block. -/
structure BlockHeader where
  chomp : Chomp := .clip
  /-- The indentation of the block inside the enclosing one. -/
  indent : Option Nat := none

namespace BlockHeader

/-- Reads a sign. -/
def chomp? : Option Char → Option Chomp
  | some '+' => some .keep
  | some '-' => some .strip
  | _ => none

/-- Reads a digit, if there is one, which must not be zero. -/
def readIndent (cs : List Char) : Option (Option Nat × List Char) :=
  match cs with
  | c :: rest =>
    match Plain.digit? 10 c with
    | some 0 => none
    | some n => some (some n, rest)
    | none => some (none, cs)
  | [] => some (none, [])

/-- Reads a sign and a digit in one order or the other; both may be missing. -/
def read (cs : List Char) : Option (BlockHeader × List Char) :=
  match chomp? cs.head? with
  | some chomp => do
    let (indent, rest) ← readIndent (cs.drop 1)
    return ({ chomp, indent }, rest)
  | none => do
    let (indent, rest) ← readIndent cs
    match indent, chomp? rest.head? with
    | some _, some chomp => return ({ chomp, indent }, rest.drop 1)
    | _, _ => return ({ indent }, rest)

end BlockHeader

/-- Line breaks before a line of a block. -/
structure BlankLines where
  breaks : List Char
  /-- The largest column that was reached before a line break or the text. -/
  column : Nat
  /-- The place after them and the indentation. -/
  next : Cursor

/-- Reads blank lines and the indentation of the line after them. While the indentation is not
known, all blanks belong to it; **a tab must not stand in it**. The fuel is the length of the text.
-/
def readBlankLines (indent : Option Nat) : (fuel : Nat) → Cursor → Option BlankLines
  | 0, c => some ⟨[], c.column, c⟩
  | fuel + 1, c =>
    let blanks := (c.rest.takeWhile (· == ' ')).length
    let c := c.skip (match indent with
      | some n => min blanks (n - c.column)
      | none => blanks)
    match c.peek? with
    | none => some ⟨[], c.column, c⟩
    | some x =>
      if x == '\t' && indent.all (c.column < ·) then none
      else if isBreak x then do
        let b ← readBlankLines indent fuel c.skipBreak
        return { b with breaks := breakChar x :: b.breaks, column := max c.column b.column }
      else some ⟨[], c.column, c⟩

/-- The line break after a line of a block and the blank lines after that. -/
structure LineEnd where
  /-- The line break; missing at the end of the text and before the first line. -/
  first : Option Char := none
  more : List Char
  /-- The line began with a blank. -/
  afterBlank : Bool := false

namespace LineEnd

/-- What comes between two lines. A single line break is folded to a blank and of several the first
disappears, unless one of the two lines begins with a blank. -/
def fold (e : LineEnd) (literal beforeBlank : Bool) : List Char :=
  if !literal && e.first == some '\n' && !e.afterBlank && !beforeBlank then
    if e.more.isEmpty then [' '] else e.more
  else e.first.toList ++ e.more

/-- What is kept of the end of the last line. -/
def chomp (e : LineEnd) : Chomp → List Char
  | .strip => []
  | .clip => e.first.toList
  | .keep => e.first.toList ++ e.more

end LineEnd

/-- Reads the lines of a block after the end `e` of the line before. The fuel is the length of the
text. -/
def blockLines (literal : Bool) (indent : Nat) (chomp : Chomp) :
    (fuel : Nat) → LineEnd → Cursor → Option (List Char × Cursor)
  | 0, e, c => some (e.chomp chomp, c)
  | fuel + 1, e, c =>
    if c.column ≠ indent ∨ c.rest.isEmpty then some (e.chomp chomp, c)
    else do
      let line := c.rest.takeWhile (!isBreak ·)
      let startsBlank := line.head?.any isBlank
      let c := c.skip line.length
      let first := c.peek?.map breakChar
      let c := if first.isSome then c.skipBreak else c
      let b ← readBlankLines (some indent) c.rest.length c
      let (text, c) ← blockLines literal indent chomp fuel ⟨first, b.breaks, startsBlank⟩ b.next
      return (e.fold literal startsBlank ++ line ++ text, c)

/-- Reads a block at its mark, where `outer` is the indentation of what it stands in. -/
def Cursor.block (c : Cursor) (literal : Bool) (outer : Int) : Option (List Char × Cursor) := do
  let (header, rest) ← BlockHeader.read (c.rest.drop 1)
  let rest := rest.dropWhile isBlank
  let rest := if rest.head? = some '#' then rest.dropWhile (!isBreak ·) else rest
  guard (rest.head?.all isBreak)
  let c := c.skip (c.rest.length - rest.length)
  let c := if rest.isEmpty then c else c.skipBreak
  let given := header.indent.map ((max outer 0).toNat + ·)
  let b ← readBlankLines given c.rest.length c
  let indent := given.getD (max (max b.column (outer + 1).toNat) 1)
  blockLines literal indent header.chomp b.next.rest.length ⟨none, b.breaks, false⟩ b.next

end HeaderFlow.Document
