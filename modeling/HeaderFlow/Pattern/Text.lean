import HeaderFlow.Pattern.Basic
import HeaderFlow.Text.Error

/-!
# The written form of patterns

A pattern is written as its trits in groups of eight with commas between them. Reading is more
lenient than writing: **commas and blanks are skipped wherever they stand**, and the letters may be
of either case.
-/

namespace HeaderFlow.Pattern

/-- Commas and blanks carry no meaning. -/
def isSeparator (c : Char) : Bool := c == ',' || c == ' '

/-- Reads trits, where the first character stands at position `i` of the text. -/
def readTrits (i : Nat) : List Char → Except TextError (List Trit)
  | [] => .ok []
  | c :: cs =>
    if isSeparator c then readTrits (i + 1) cs
    else match Trit.ofChar? c with
      | some t => (readTrits (i + 1) cs).map (t :: ·)
      | none => .error (.badChar c i)

/-- Reads a pattern. -/
def parse (text : String) : Except TextError Pattern := do
  let ts ← readTrits 0 text.toList
  if ts.length % tritsPerByte = 0 then .ok (ofTrits ts)
  else .error (.partialByte text ts.length)

/-- Writes trits, where the first one stands at position `i` of the pattern. -/
def writeTrits (i : Nat) : List Trit → List Char
  | [] => []
  | t :: ts =>
    if 0 < i ∧ i % tritsPerByte = 0 then ',' :: t.toChar :: writeTrits (i + 1) ts
    else t.toChar :: writeTrits (i + 1) ts

/-- The written form. -/
def text (p : Pattern) : String := String.ofList (writeTrits 0 p.toTrits)

end HeaderFlow.Pattern
