import HeaderFlow.Document.BlockScalar
import HeaderFlow.Document.Lexeme
import HeaderFlow.Document.Tag

/-!
# Tokens of a document

The text of a document is cut into tokens: brackets, marks and scalars, and the tokens that
indentation stands for. **Whether a scalar or a bracket is the key of a mapping is known only when
the colon after it is met.** Until then it is a *candidate*, and the colon puts the tokens for the
key, and for the mapping that begins with it, before it. A candidate lapses at the end of its line
and after 1024 bytes. One that stands exactly at the indentation of the enclosing mapping must
become a key.

Inside brackets indentation has no meaning, and each bracket has a candidate of its own.
-/

namespace HeaderFlow.Document

/-- A token of a document. -/
inductive Token where
  /-- Three dashes. -/
  | documentStart
  /-- Three points. -/
  | documentEnd
  /-- The indentation begins a sequence. -/
  | blockSequenceStart
  /-- The indentation begins a mapping. -/
  | blockMappingStart
  /-- The indentation ends a sequence or a mapping. -/
  | blockEnd
  | flowSequenceStart
  | flowSequenceEnd
  | flowMappingStart
  | flowMappingEnd
  /-- The dash before an item. -/
  | blockEntry
  /-- The comma between items. -/
  | flowEntry
  /-- A key follows. -/
  | key
  /-- A value follows. -/
  | value
  /-- A scalar without quotes. -/
  | plain (text : List Char)
  /-- A scalar in quotes or in a block. -/
  | quoted (text : List Char)
  /-- A name for the node that follows. -/
  | anchor (name : String)
  /-- The node with a name stands here again. -/
  | reference (name : String)
  | tag (tag : WrittenTag)
  | directive (directive : Directive)
  deriving DecidableEq, Repr

/-- The marks that may follow a name without a blank. -/
def endsName (c : Char) : Bool := "?:,]\x7d%@\x60".toList.contains c

/-- Reads the name of an anchor or of a reference, at the mark before it. -/
def Cursor.name (c : Cursor) : Option (String × Cursor) := do
  let name := (c.rest.drop 1).takeWhile isNameChar
  let c := c.skip (1 + name.length)
  guard (!name.isEmpty && (isGapOrEnd c.peek? || c.peek?.any endsName))
  return (String.ofList name, c)

/-- What may turn out to be the key of a mapping. -/
structure Candidate where
  /-- The number of tokens before it. -/
  position : Nat
  /-- It stands at the indentation of the enclosing mapping. -/
  required : Bool
  index : Nat
  line : Nat
  column : Nat

/-- The candidate lies on an earlier line or too far back to be a key. -/
def Candidate.isStale (k : Candidate) (c : Cursor) : Bool :=
  k.line < c.line || k.index + 1024 < c.index

/-- A text that has been cut into tokens up to a place. -/
structure Scan where
  cursor : Cursor
  /-- The tokens so far, the latest first. -/
  tokens : List Token := []
  /-- The column of the innermost sequence or mapping; `-1` before the first. -/
  indent : Int := -1
  /-- The columns of the enclosing ones. -/
  outerIndents : List Int := []
  /-- A key may begin here. -/
  keyAllowed : Bool := true
  /-- The candidate inside the innermost bracket. -/
  candidate : Option Candidate := none
  /-- The candidates outside of it, one for each bracket. -/
  outerCandidates : List (Option Candidate) := []

namespace Scan

/-- The place is inside brackets. -/
def inFlow (s : Scan) : Bool := !s.outerCandidates.isEmpty

/-- Adds a token that is `n` characters long. -/
def push (s : Scan) (t : Token) (n : Nat) : Scan :=
  { s with tokens := t :: s.tokens, cursor := s.cursor.skip n }

/-- Inserts a token after the first `position` ones. -/
def insert (s : Scan) (t : Token) (position : Nat) : Scan :=
  let later := s.tokens.length - position
  { s with tokens := s.tokens.take later ++ t :: s.tokens.drop later }

/-! ### Indentation -/

/-- Begins a sequence or a mapping with the token `t` at a column further in. -/
def indentTo (s : Scan) (column : Nat) (t : Token) (position : Nat) : Scan :=
  if !s.inFlow && s.indent < column then
    { s.insert t position with indent := column, outerIndents := s.indent :: s.outerIndents }
  else s

/-- Ends the sequences and mappings further in than a column. -/
def dedentTo (column : Int) (s : Scan) : Scan :=
  if s.inFlow then s else go s s.outerIndents
where
  /-- Ends them one by one. -/
  go (s : Scan) : List Int → Scan
    | [] => s
    | i :: is =>
      if column < s.indent then
        go { s with tokens := .blockEnd :: s.tokens, indent := i, outerIndents := is } is
      else s

/-! ### Candidates -/

/-- Gives the candidate up; one that must become a key cannot be given up. -/
def dropCandidate (s : Scan) : Option Scan :=
  if s.candidate.any Candidate.required then none else some { s with candidate := none }

/-- Makes what begins here a candidate, if a key may begin here. -/
def saveCandidate (s : Scan) : Option Scan :=
  if s.keyAllowed then do
    let s ← s.dropCandidate
    let c := s.cursor
    return { s with
      candidate := some
        { position := s.tokens.length, required := !s.inFlow && s.indent == c.column
          index := c.index, line := c.line, column := c.column } }
  else some s

/-- A candidate that has not lapsed; one that must become a key cannot lapse. -/
def current (c : Cursor) : Option Candidate → Option (Option Candidate)
  | none => some none
  | some k => if k.isStale c then (if k.required then none else some none) else some (some k)

/-- Lets candidates lapse. -/
def dropStale (s : Scan) : Option Scan := do
  let candidate ← current s.cursor s.candidate
  let outerCandidates ← s.outerCandidates.mapM (current s.cursor)
  return { s with candidate, outerCandidates }

/-! ### Between tokens -/

/-- Moves past blanks, comments and line breaks; after a line break a key may begin, except inside
brackets. Where a key may begin **tabs are not blanks**. The fuel is the length of the text. -/
def skipToToken : (fuel : Nat) → Scan → Scan
  | 0, s => s
  | fuel + 1, s =>
    let c := s.cursor
    let c := if c.column = 0 ∧ c.peek? = some byteOrderMark then c.skip 1 else c
    let c := c.skipWhile fun x ↦ x == ' ' || (x == '\t' && (s.inFlow || !s.keyAllowed))
    let c := if c.peek? = some '#' then c.skipWhile fun x ↦ !isBreak x else c
    if c.peek?.any isBreak then
      skipToToken fuel { s with cursor := c.skipBreak, keyAllowed := s.keyAllowed || !s.inFlow }
    else { s with cursor := c }

/-! ### Single tokens -/

/-- A directive, up to the next line. -/
def directive (s : Scan) : Option Scan := do
  let s ← (s.dedentTo (-1)).dropCandidate
  let (d, cursor) ← s.cursor.directive
  return { s with tokens := .directive d :: s.tokens, cursor, keyAllowed := false }

/-- A mark between documents. -/
def documentMark (s : Scan) (t : Token) : Option Scan := do
  let s ← (s.dedentTo (-1)).dropCandidate
  return { s.push t 3 with keyAllowed := false }

/-- An opening bracket. -/
def openBracket (s : Scan) (t : Token) : Option Scan := do
  let s ← s.saveCandidate
  return { s.push t 1 with
    keyAllowed := true, candidate := none, outerCandidates := s.candidate :: s.outerCandidates }

/-- A closing bracket. -/
def closeBracket (s : Scan) (t : Token) : Option Scan := do
  let s ← s.dropCandidate
  let s := { s.push t 1 with keyAllowed := false }
  match s.outerCandidates with
  | [] => return s
  | k :: ks => return { s with candidate := k, outerCandidates := ks }

/-- A comma inside brackets. -/
def comma (s : Scan) : Option Scan := do
  let s ← s.dropCandidate
  return { s.push .flowEntry 1 with keyAllowed := true }

/-- The dash before an item. -/
def dash (s : Scan) : Option Scan := do
  guard (s.inFlow || s.keyAllowed)
  let s := s.indentTo s.cursor.column .blockSequenceStart s.tokens.length
  let s ← s.dropCandidate
  return { s.push .blockEntry 1 with keyAllowed := true }

/-- The question mark before a key. -/
def questionMark (s : Scan) : Option Scan := do
  guard (s.inFlow || s.keyAllowed)
  let s := s.indentTo s.cursor.column .blockMappingStart s.tokens.length
  let s ← s.dropCandidate
  return { s.push .key 1 with keyAllowed := !s.inFlow }

/-- The colon before a value. It makes the candidate a key; without one it must stand where a key
may begin. -/
def colon (s : Scan) : Option Scan :=
  match s.candidate with
  | some k =>
    let s := (s.insert .key k.position).indentTo k.column .blockMappingStart k.position
    some { s.push .value 1 with candidate := none, keyAllowed := false }
  | none => do
    guard (s.inFlow || s.keyAllowed)
    let s := s.indentTo s.cursor.column .blockMappingStart s.tokens.length
    return { s.push .value 1 with keyAllowed := !s.inFlow }

/-- A scalar in quotes. -/
def quoted (s : Scan) (quote : Char) : Option Scan := do
  let s ← s.saveCandidate
  let (text, cursor) ← s.cursor.quoted quote
  return { s with tokens := .quoted text :: s.tokens, cursor, keyAllowed := false }

/-- A scalar in a block, after which a key may begin. -/
def block (s : Scan) (literal : Bool) : Option Scan := do
  let s ← s.dropCandidate
  let (text, cursor) ← s.cursor.block literal s.indent
  return { s with tokens := .quoted text :: s.tokens, cursor, keyAllowed := true }

/-- An anchor or a reference. -/
def named (s : Scan) (t : String → Token) : Option Scan := do
  let s ← s.saveCandidate
  let (name, cursor) ← s.cursor.name
  return { s with tokens := t name :: s.tokens, cursor, keyAllowed := false }

/-- A tag. -/
def tag (s : Scan) : Option Scan := do
  let s ← s.saveCandidate
  let (t, cursor) ← s.cursor.tag s.inFlow
  return { s with tokens := .tag t :: s.tokens, cursor, keyAllowed := false }

/-- A scalar without quotes; if it ends with its line, a key may begin after it. -/
def plain (s : Scan) : Option Scan := do
  let s ← s.saveCandidate
  let l ← s.cursor.plain s.inFlow (s.indent + 1).toNat
  return { s with tokens := .plain l.text :: s.tokens, cursor := l.next, keyAllowed := l.endsLine }

/-- The token that begins with the character `c`. -/
def token (s : Scan) (c : Char) : Option Scan :=
  let next := s.cursor.rest[1]?
  if s.cursor.column = 0 ∧ c = '%' then s.directive
  else if s.cursor.atDocumentMark then
    s.documentMark (if c = '-' then .documentStart else .documentEnd)
  else match c with
    | '[' => s.openBracket .flowSequenceStart
    | '{' => s.openBracket .flowMappingStart
    | ']' => s.closeBracket .flowSequenceEnd
    | '}' => s.closeBracket .flowMappingEnd
    | ',' => s.comma
    | '"' => s.quoted '"'
    | '\'' => s.quoted '\''
    | '&' => s.named .anchor
    | '*' => s.named .reference
    | '!' => s.tag
    | _ =>
      if c = '-' ∧ isGapOrEnd next then s.dash
      else if c = '?' ∧ (s.inFlow ∨ isGapOrEnd next) then s.questionMark
      else if c = ':' ∧ (s.inFlow ∨ isGapOrEnd next) then s.colon
      else if (c = '|' ∨ c = '>') ∧ !s.inFlow then s.block (c = '|')
      else if startsPlain s.inFlow c next then s.plain
      else none

/-- Cuts the rest of a text into tokens. Each token takes at least one character, so the fuel is the
length of the text. -/
def all : (fuel : Nat) → Scan → Option (List Token)
  | 0, _ => none
  | fuel + 1, s => do
    let s ← (skipToToken s.cursor.rest.length s).dropStale
    let s := s.dedentTo s.cursor.column
    match s.cursor.peek? with
    | none =>
      let s ← (s.dedentTo (-1)).dropCandidate
      return s.tokens.reverse
    | some c => all fuel (← s.token c)

end Scan

/-- The tokens of a text, all of whose characters must be allowed. -/
def tokens? (text : String) : Option (List Token) := do
  guard (text.toList.all isAllowed)
  Scan.all (text.length + 1) { cursor := { rest := text.toList } }

end HeaderFlow.Document
