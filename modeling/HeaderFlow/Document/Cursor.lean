import HeaderFlow.Tally

/-!
# Places in the text of a document

The text of a document is read from front to back. A `Cursor` is a place in it, with the line and
the column, since **indentation carries meaning**, and the number of bytes before it.

Between the words of a scalar there are *gaps* of blanks and line breaks, and a gap is folded into
less when the scalar is read: blanks around a line break disappear, a single line break becomes a
blank, and of several line breaks the first disappears.
-/

namespace HeaderFlow.Document

/-! ### Classes of characters -/

/-- A blank or a tab. -/
def isBlank (c : Char) : Bool := c == ' ' || c == '\t'

/-- A character that ends a line. A carriage return ends it together with a line feed after it. -/
def isBreak (c : Char) : Bool :=
  c == '\n' || c == '\r' || c == '\u0085' || c == '\u2028' || c == '\u2029'

/-- There is nothing more, or a blank, or the end of the line. -/
def isGapOrEnd : Option Char → Bool
  | none => true
  | some c => isBlank c || isBreak c

/-- What stands for a line break in the value of a scalar: a line feed, except that the separators
of lines and of paragraphs stand for themselves. -/
def breakChar (c : Char) : Char := if c == '\u2028' || c == '\u2029' then c else '\n'

/-- The mark of the byte order, which may stand at the beginning of a line and **takes a column
there**. -/
def byteOrderMark : Char := '\ufeff'

/-- The ranges of characters that may occur in a document. -/
def allowedRanges : List (Nat × Nat) :=
  [(0x09, 0x0a), (0x0d, 0x0d), (0x20, 0x7e), (0x85, 0x85), (0xa0, 0xd7ff), (0xe000, 0xfffd),
    (0x10000, 0x10ffff)]

/-- The character may occur in a document. -/
def isAllowed (c : Char) : Bool :=
  allowedRanges.any fun (lo, hi) ↦ lo ≤ c.toNat && c.toNat ≤ hi

/-! ### Cursors -/

/-- A place in a text. -/
structure Cursor where
  /-- The characters from here on. -/
  rest : List Char
  /-- The number of bytes before them in UTF-8. -/
  index : Nat := 0
  /-- The number of lines before this one. -/
  line : Nat := 0
  /-- The number of characters before this one on the line. -/
  column : Nat := 0

namespace Cursor

/-- The next character. -/
def peek? (c : Cursor) : Option Char := c.rest.head?

/-- Moves past `n` characters of the line. -/
def skip (n : Nat) (c : Cursor) : Cursor :=
  { c with
    rest := c.rest.drop n
    index := c.index + tally Char.utf8Size (c.rest.take n)
    column := c.column + n }

/-- Moves past the characters of the line that satisfy `p`. -/
def skipWhile (p : Char → Bool) (c : Cursor) : Cursor := c.skip (c.rest.takeWhile p).length

/-- Moves past a line break. -/
def skipBreak (c : Cursor) : Cursor :=
  let n := match c.rest with
    | '\r' :: '\n' :: _ => 2
    | _ => 1
  { c.skip n with line := c.line + 1, column := 0 }

/-- The line starts with three dashes or three points and goes on with a gap: **a mark between
documents, also inside a scalar**. -/
def atDocumentMark (c : Cursor) : Bool :=
  c.column == 0 &&
    match c.rest with
    | '-' :: '-' :: '-' :: cs | '.' :: '.' :: '.' :: cs => isGapOrEnd cs.head?
    | _ => false

end Cursor

/-! ### Gaps -/

/-- Blanks and line breaks between two words. -/
structure Gap where
  /-- The blanks before the first line break. -/
  blanks : List Char := []
  /-- The line breaks, as they stand in the value of a scalar. -/
  breaks : List Char := []

namespace Gap

/-- Nothing is between the words. -/
def isEmpty (g : Gap) : Bool := g.blanks.isEmpty && g.breaks.isEmpty

/-- The words are on different lines. -/
def endsLine (g : Gap) : Bool := !g.breaks.isEmpty

/-- What the gap comes to in the value of a scalar. -/
def fold (g : Gap) : List Char :=
  match g.breaks with
  | [] => g.blanks
  | ['\n'] => [' ']
  | '\n' :: more => more
  | all => all

end Gap

/-- Reads a gap, where `onNewLine` says that a line break came before. On a new line **a tab must
not stand before the column `indent`**. The fuel is the length of the text. -/
def readGap (indent : Nat) : (fuel : Nat) → (onNewLine : Bool) → Cursor → Option (Gap × Cursor)
  | 0, _, c => some ({}, c)
  | fuel + 1, onNewLine, c =>
    match c.peek? with
    | none => some ({}, c)
    | some x =>
      if isBlank x then
        if onNewLine then
          if x = '\t' ∧ c.column < indent then none else readGap indent fuel true (c.skip 1)
        else do
          let (g, c) ← readGap indent fuel false (c.skip 1)
          return ({ g with blanks := x :: g.blanks }, c)
      else if isBreak x then do
        let (g, c) ← readGap indent fuel true c.skipBreak
        return ({ g with breaks := breakChar x :: g.breaks }, c)
      else some ({}, c)

/-- Reads a gap. -/
def Cursor.gap (c : Cursor) (indent : Nat) (onNewLine : Bool) : Option (Gap × Cursor) :=
  readGap indent c.rest.length onNewLine c

end HeaderFlow.Document
