import HeaderFlow.Fault
import HeaderFlow.Tally
import HeaderFlow.Word

/-!
# Patterns

A pattern describes headers of a fixed number of bytes by one trit per header bit. The trits are
packed into words, 32 to a word, and the last word is often used only in part. The rest of it is
**padding, and padding is always wild**: no operation on whole words then sees a conflict that is
not there, and two patterns with the same trits have the same words.

Both facts, the number of words and the padding, are part of the type. Every operation ends in
`Pattern.ofWords`, which establishes them, so they need not be argued again for each operation.
`Pattern.trit` reads a pattern as an infinite sequence that is wild past its end.
-/

namespace HeaderFlow

namespace Pattern

/-- The number of trits in a byte. -/
def tritsPerByte : Nat := 8

/-- The number of words that hold the trits of `bytes` bytes. -/
def wordCount (bytes : Nat) : Nat :=
  (bytes * tritsPerByte + (Word.tritsPerWord - 1)) / Word.tritsPerWord

/-- The bits of word `i` that belong to trits of a pattern of `bytes` bytes. -/
def usedBits (bytes i : Nat) : UInt64 :=
  Word.firstPlaces (bytes * tritsPerByte - i * Word.tritsPerWord)

end Pattern

/-- One trit for each bit of a header. -/
structure Pattern where
  /-- The length of the headers described. -/
  bytes : Nat
  /-- The packed trits. -/
  words : List UInt64
  /-- There are as many words as the trits need. -/
  length_words : words.length = Pattern.wordCount bytes
  /-- The padding is wild. -/
  padding : ∀ i w, words[i]? = some w → w ||| ~~~(Pattern.usedBits bytes i) = w
  deriving DecidableEq

namespace Pattern

/-! ### Packing -/

/-- The first `n` words of a list, with wild words for those that are missing. -/
def resize (n : Nat) (ws : List UInt64) : List UInt64 :=
  ws.take n ++ List.replicate (n - ws.length) Word.allWild

/-- A list of words in which what `bytes` bytes do not use is wild. -/
def pad (bytes : Nat) (ws : List UInt64) : List UInt64 :=
  ws.mapIdx fun i w ↦ w ||| ~~~(usedBits bytes i)

theorem length_resize (n : Nat) (ws : List UInt64) : (resize n ws).length = n := by
  rw [resize, List.length_append, List.length_take, List.length_replicate]
  omega

theorem length_pad (bytes : Nat) (ws : List UInt64) : (pad bytes ws).length = ws.length := by
  simp [pad]

theorem getElem?_pad (bytes : Nat) (ws : List UInt64) (i : Nat) :
    (pad bytes ws)[i]? = ws[i]?.map (· ||| ~~~(usedBits bytes i)) := by
  simp [pad]

/-- The pattern with the trits packed in `ws`; missing words are wild, surplus words are dropped. -/
def ofWords (bytes : Nat) (ws : List UInt64) : Pattern where
  bytes := bytes
  words := pad bytes (resize (wordCount bytes) ws)
  length_words := by rw [length_pad, length_resize]
  padding := by
    intro i w h
    obtain ⟨v, -, rfl⟩ := Option.map_eq_some_iff.1 (getElem?_pad .. ▸ h)
    rw [UInt64.or_assoc, UInt64.or_self]

/-- The number of trits. -/
def width (p : Pattern) : Nat := p.bytes * tritsPerByte

/-- The pattern of `bytes` bytes with the same trit everywhere. -/
def fill (bytes : Nat) (t : Trit) : Pattern :=
  ofWords bytes (List.replicate (wordCount bytes) (Word.fill t))

/-- The pattern that every header of `bytes` bytes matches. -/
def allWild (bytes : Nat) : Pattern := fill bytes .wild

/-! ### Reading and writing one trit -/

/-- The trit at position `i`; past the end every trit is wild. -/
def trit (p : Pattern) (i : Nat) : Trit :=
  match p.words[i / Word.tritsPerWord]? with
  | some w => Word.trit w (i % Word.tritsPerWord)
  | none => .wild

/-- Writes the trit at position `i`; past the end this changes nothing. -/
def put (p : Pattern) (i : Nat) (t : Trit) : Pattern :=
  ofWords p.bytes <|
    p.words.modify (i / Word.tritsPerWord) fun w ↦ Word.put w (i % Word.tritsPerWord) t

/-- The position lies inside the pattern. -/
def checkIndex (p : Pattern) (i : Nat) : Checked Unit :=
  if i < p.width then .ok () else .error (.tritOutOfRange i p.width)

/-- The trit at a position inside the pattern. -/
def get (p : Pattern) (i : Nat) : Checked Trit :=
  (p.checkIndex i).map fun _ ↦ p.trit i

/-- Writes the trit at a position inside the pattern. -/
def set (p : Pattern) (i : Nat) (t : Trit) : Checked Pattern :=
  (p.checkIndex i).map fun _ ↦ p.put i t

/-- All trits in order. -/
def toTrits (p : Pattern) : List Trit := (List.range p.width).map p.trit

/-- Writes the trits `ts` from position `i` on. -/
def putAll (p : Pattern) (i : Nat) : List Trit → Pattern
  | [] => p
  | t :: ts => (p.put i t).putAll (i + 1) ts

/-- The pattern with the given trits, of which there should be a whole number of bytes. -/
def ofTrits (ts : List Trit) : Pattern :=
  (allWild (ts.length / tritsPerByte)).putAll 0 ts

/-! ### Questions about all trits -/

/-- The words with the bits of each that are in use. -/
def wordsWithUse (p : Pattern) : List (UInt64 × UInt64) :=
  p.words.mapIdx fun i w ↦ (w, usedBits p.bytes i)

/-- Some trit is wild. -/
def hasWild (p : Pattern) : Bool :=
  p.wordsWithUse.any fun (w, used) ↦ Word.wildLows w &&& used != 0

/-- Some trit is a conflict, so that **no header matches**. -/
def hasConflict (p : Pattern) : Bool := p.words.any Word.hasConflict

/-- The number of wild trits. -/
def countWild (p : Pattern) : Nat :=
  tally (fun (w, used) ↦ Word.popcount (Word.wildLows w &&& used)) p.wordsWithUse

/-- Every trit is wild. -/
def isAllWild (p : Pattern) : Bool := p.words.all (· == Word.allWild)

/-! ### Widening -/

/-- Grows to `bytes` bytes and gives the new trits the value `t`; **never shrinks**. -/
def enlargeWith (p : Pattern) (bytes : Nat) (t : Trit) : Pattern :=
  if bytes ≤ p.bytes then p
  else
    let grown := ofWords bytes p.words
    match t with
    | .wild => grown
    | t => grown.putAll p.width (List.replicate (grown.width - p.width) t)

/-- Grows to `bytes` bytes with wild trits. -/
def enlarge (p : Pattern) (bytes : Nat) : Pattern := p.enlargeWith bytes .wild

/-! ### What a pattern means -/

/-- The header, a sequence of bits, matches the pattern. -/
def Matches (p : Pattern) (h : Nat → Bool) : Prop :=
  ∀ i, i < p.width → (p.trit i).allows (h i) = true

end Pattern

end HeaderFlow
