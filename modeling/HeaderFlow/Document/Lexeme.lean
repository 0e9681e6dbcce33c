import HeaderFlow.Document.Cursor
import HeaderFlow.Document.Plain

/-!
# The written forms of scalars

A scalar is written plainly or in quotes, and may go on over several lines; the gaps between its
words are folded. In double quotes a backslash starts an escape, and one at the end of a line joins
the next line without a blank.

A plain scalar ends before a colon that a gap follows, before a comment, before a mark between
documents, and before a line that is not indented enough; inside brackets it also ends before a
bracket or a comma, and indentation does not matter.
-/

namespace HeaderFlow.Document

/-! ### Plain scalars -/

/-- The brackets and the comma, which end a plain scalar inside brackets. -/
def isFlowMark (c : Char) : Bool := c == ',' || c == '[' || c == ']' || c == '{' || c == '}'

/-- A plain scalar may start with `c`, which `next` follows. -/
def startsPlain (inFlow : Bool) (c : Char) (next : Option Char) : Bool :=
  if c == '-' then !next.any isBlank
  else if c == '?' || c == ':' then !inFlow && !isGapOrEnd next
  else !(isFlowMark c || isBlank c || isBreak c || "#&*!|>'\"%@".toList.contains c ||
    c == Char.ofNat 0x60)

/-- The first word of a plain scalar. Inside brackets a word **must not end in a colon right before
another mark**. -/
def plainWord (inFlow : Bool) : List Char → Option (List Char)
  | [] => some []
  | c :: rest =>
    if isBlank c || isBreak c then some []
    else if c == ':' && inFlow && rest.head?.any (fun d ↦ isFlowMark d || d == '?') then none
    else if (c == ':' && isGapOrEnd rest.head?) || (inFlow && isFlowMark c) then some []
    else (plainWord inFlow rest).map (c :: ·)

/-- A plain scalar that was read. -/
structure PlainLexeme where
  text : List Char
  /-- A line break follows. -/
  endsLine : Bool
  /-- The place of what follows. -/
  next : Cursor

/-- Reads the words of a plain scalar that come after the gap `g`. The fuel is the length of the
text. -/
def plainWords (inFlow : Bool) (indent : Nat) : (fuel : Nat) → Gap → Cursor → Option PlainLexeme
  | 0, g, c => some ⟨[], g.endsLine, c⟩
  | fuel + 1, g, c =>
    if c.atDocumentMark || c.peek? == some '#' then some ⟨[], g.endsLine, c⟩
    else do
      let word ← plainWord inFlow c.rest
      if word.isEmpty then return ⟨[], g.endsLine, c⟩
      let (h, c) ← (c.skip word.length).gap indent false
      let text := g.fold ++ word
      if h.isEmpty || (!inFlow && c.column < indent) then return ⟨text, h.endsLine, c⟩
      let l ← plainWords inFlow indent fuel h c
      return { l with text := text ++ l.text }

/-- Reads a plain scalar, whose further lines must be indented by `indent`. -/
def Cursor.plain (c : Cursor) (inFlow : Bool) (indent : Nat) : Option PlainLexeme :=
  plainWords inFlow indent c.rest.length {} c

/-! ### Quoted scalars -/

/-- A stretch of a quoted scalar without blanks and line breaks. -/
structure Stretch where
  text : List Char
  /-- A backslash at the end of the line was passed, with the line break. -/
  joinsLines : Bool
  /-- The place of what follows. -/
  next : Cursor

/-- The character that a letter after a backslash stands for. -/
def escape? : Char → Option Char
  | '0' => some '\x00'
  | 'a' => some '\x07'
  | 'b' => some '\x08'
  | 't' | '\t' => some '\t'
  | 'n' => some '\n'
  | 'v' => some '\x0b'
  | 'f' => some '\x0c'
  | 'r' => some '\r'
  | 'e' => some '\x1b'
  | ' ' => some ' '
  | '"' => some '"'
  | '/' => some '/'
  | '\\' => some '\\'
  | 'N' => some '\u0085'
  | '_' => some '\u00a0'
  | 'L' => some '\u2028'
  | 'P' => some '\u2029'
  | _ => none

/-- The number of digits that follow a letter after a backslash. -/
def codeLength? : Char → Option Nat
  | 'x' => some 2
  | 'u' => some 4
  | 'U' => some 8
  | _ => none

/-- The character with the code point that `n` digits in base sixteen give. -/
def codePoint? (n : Nat) (digits : List Char) : Option Char := do
  guard (digits.length = n)
  let code ← Plain.digits? 16 digits
  if code.isValidChar then some (Char.ofNat code) else none

/-- Reads what follows a backslash: the character it stands for, and its length. -/
def readEscape : List Char → Option (Char × Nat)
  | [] => none
  | c :: rest =>
    match codeLength? c with
    | some n => (codePoint? n (rest.take n)).map fun x ↦ (x, n + 1)
    | none => (escape? c).map fun x ↦ (x, 1)

/-- Reads up to a blank, a line break, a closing quote or a backslash at the end of a line. -/
def stretch (quote : Char) : (fuel : Nat) → Cursor → Option Stretch
  | 0, c => some ⟨[], false, c⟩
  | fuel + 1, c =>
    match c.rest with
    | [] => some ⟨[], false, c⟩
    | x :: rest =>
      if isBlank x || isBreak x then some ⟨[], false, c⟩
      else if x = quote then
        if quote = '\'' ∧ rest.head? = some '\'' then go x 2 fuel c else some ⟨[], false, c⟩
      else if quote = '"' ∧ x = '\\' then
        if rest.head?.any isBreak then some ⟨[], true, (c.skip 1).skipBreak⟩
        else do
          let (y, n) ← readEscape rest
          go y (n + 1) fuel c
      else go x 1 fuel c
where
  /-- Takes a character, which is `n` characters long in the text, and goes on. -/
  go (x : Char) (n fuel : Nat) (c : Cursor) : Option Stretch :=
    (stretch quote fuel (c.skip n)).map fun s ↦ { s with text := x :: s.text }

/-- Reads up to the closing quote, which is dropped. The fuel is the length of the text. -/
def quotedText (quote : Char) : (fuel : Nat) → Cursor → Option (List Char × Cursor)
  | 0, _ => none
  | fuel + 1, c =>
    if c.atDocumentMark || c.rest.isEmpty then none
    else do
      let s ← stretch quote c.rest.length c
      if s.next.peek? = some quote then return (s.text, s.next.skip 1)
      let (g, c) ← s.next.gap 0 s.joinsLines
      let (more, c) ← quotedText quote fuel c
      return (s.text ++ (if s.joinsLines then g.breaks else g.fold) ++ more, c)

/-- Reads a scalar in quotes, at its opening quote. -/
def Cursor.quoted (c : Cursor) (quote : Char) : Option (List Char × Cursor) :=
  quotedText quote (c.rest.length + 1) (c.skip 1)

end HeaderFlow.Document
