import HeaderFlow.Proofs.Space.Grammar
import Mathlib.Data.List.DropRight
import Mathlib.Data.List.TakeWhile

/-!
# Places in a text

A cursor knows what is left of a text and how far from the beginning that is. This module ties both
to the text itself: `Cursor.At text c` says that what is left of `c` really is the end of `text` and
that the offset counts the bytes in front of it, and `Cursor.Awaits text c` says besides that an
item has to follow there.

## What an error says of the text

An error of the readers names a character with its offset, a run of pattern characters, a length, or
the text as a whole. `Cause text bytes err` holds if all that is named really is in the text at that
place, so that an error is more than a refusal. Two of the causes come straight from a place: a
character that cannot stand there (`Cursor.At.badChar`), and the end of a text behind which an item
was still awaited (`Cursor.Awaits.unexpectedEnd`).

`Answers E P` is how the readers are spoken of from here on. Either there is an answer with `P`, or
an error with `E`; it is closed under `>>=`, so that the statement about a reader follows the
reader's own text.
-/

namespace HeaderFlow.Space

variable {α β : Type} {text : String} {bytes : Nat} {c : Cursor} {e : Expr} {s : List Char}

/-! ### Places in a text -/

namespace Cursor

/-- The characters still to be read are the end of the text, and the offset is that of the first of
them. -/
def At (text : String) (c : Cursor) : Prop :=
  ∃ pre, text.toList = pre ++ c.rest ∧ c.offset = tally Char.utf8Size pre

/-- An item has to follow: but for blanks, this is the beginning of the text, or a parenthesis, plus
or minus comes before. -/
def Awaits (text : String) (c : Cursor) : Prop :=
  ∃ pre b, text.toList = pre ++ (b ++ c.rest) ∧ Blanks b ∧
    c.offset = tally Char.utf8Size (pre ++ b) ∧ ∀ d ∈ pre.getLast?, d = '(' ∨ d = '+' ∨ d = '-'

theorem Awaits.at (hc : c.Awaits text) : c.At text := by
  obtain ⟨pre, b, hpre, -, hoffset, -⟩ := hc
  exact ⟨pre ++ b, by rw [hpre, List.append_assoc], hoffset⟩

/-- Skipping characters leads to another place of the text. -/
theorem At.skipWhile (hc : c.At text) (p : Char → Bool) : (c.skipWhile p).At text := by
  obtain ⟨pre, hpre, hoffset⟩ := hc
  refine ⟨pre ++ c.rest.takeWhile p, ?_, ?_⟩
  · rw [List.append_assoc, Cursor.skipWhile, List.takeWhile_append_dropWhile, hpre]
  · rw [tally_append, ← hoffset]
    rfl

/-- Going on leads to another place of the text. -/
theorem At.advance (hc : c.At text) (n : Nat) : (c.advance n).At text := by
  obtain ⟨pre, hpre, hoffset⟩ := hc
  refine ⟨pre ++ c.rest.take n, ?_, ?_⟩
  · rw [List.append_assoc, Cursor.advance, List.take_append_drop, hpre]
  · rw [tally_append, ← hoffset]
    rfl

/-- Behind an opening character an item has to follow. -/
theorem At.awaits {d : Char} {rest : List Char} (hc : c.At text) (hrest : c.rest = d :: rest)
    (hd : d = '(' ∨ d = '+' ∨ d = '-') : (c.advance 1).Awaits text := by
  obtain ⟨pre, hpre, hoffset⟩ := hc
  refine ⟨pre ++ [d], [], ?_, List.forall_mem_nil _, ?_, fun d' hd' ↦ ?_⟩
  · rw [hpre, hrest, Cursor.advance, hrest, List.append_assoc]
    rfl
  · rw [List.append_nil, tally_append, ← hoffset, Cursor.advance, hrest]
    rfl
  · rw [List.getLast?_concat, Option.mem_some_iff] at hd'
    rwa [← hd']

/-- Behind blanks an item still has to follow. -/
theorem Awaits.skipBlanks (hc : c.Awaits text) : c.skipBlanks.Awaits text := by
  obtain ⟨pre, b, hpre, hb, hoffset, hlast⟩ := hc
  refine ⟨pre, b ++ c.rest.takeWhile Text.isBlank, ?_, ?_, ?_, hlast⟩
  · rw [hpre, List.append_assoc, Cursor.skipBlanks, Cursor.skipWhile,
      List.takeWhile_append_dropWhile]
  · exact List.forall_mem_append.2 ⟨hb, fun _ hd ↦ List.mem_takeWhile_imp hd⟩
  · rw [← List.append_assoc, tally_append, ← hoffset]
    rfl

theorem rest_advance_one {d : Char} {rest : List Char} (hrest : c.rest = d :: rest) :
    (c.advance 1).rest = rest := by
  rw [advance, hrest]
  rfl

end Cursor

/-- What is taken of blanks is blank. -/
theorem blanks_takeWhile (l : List Char) : Blanks (l.takeWhile Text.isBlank) := fun _ hd ↦
  List.mem_takeWhile_imp hd

/-- What is skipped are blanks. -/
theorem exists_blanks (c : Cursor) : ∃ b, Blanks b ∧ c.rest = b ++ c.skipBlanks.rest :=
  ⟨_, blanks_takeWhile c.rest, List.takeWhile_append_dropWhile.symm⟩

/-- Skipping blanks leaves no more than there was. -/
theorem length_skipBlanks_le (c : Cursor) : c.skipBlanks.rest.length ≤ c.rest.length :=
  (List.dropWhile_sublist _).length_le

theorem rest_skipBlanks_skipBlanks (c : Cursor) :
    c.skipBlanks.skipBlanks.rest = c.skipBlanks.rest :=
  List.dropWhile_idempotent ..

/-! ### Errors -/

/-- What an error says of the text is so. -/
inductive Cause (text : String) (bytes : Nat) : TextError → Prop
  | badChar {pre rest : List Char} {d : Char} : text.toList = pre ++ d :: rest →
    Cause text bytes (.badChar d (tally Char.utf8Size pre))
  | partialByte {pre run rest : List Char} : text.toList = pre ++ (run ++ rest) →
    (∀ d ∈ run, isPatternChar d = true) → (tritsOf run).length % 8 ≠ 0 →
    Cause text bytes (.partialByte (String.ofList run) (tritsOf run).length)
  | expectedAtEnd : Cause text bytes (.expectedAtEnd ')' text)
  | unexpectedEnd {pre b : List Char} : text.toList = pre ++ b → Blanks b →
    (∀ d ∈ pre.getLast?, d = '(' ∨ d = '+' ∨ d = '-') → Cause text bytes (.unexpectedEnd text)
  | severalMinuends {pre s rest : List Char} {e : Expr} : text.toList = pre ++ (s ++ rest) →
    Spells e s → e.Proper bytes → e.terms ≠ 1 → Cause text bytes (.severalMinuends text)
  | lengthMismatch {pre run rest : List Char} {found : Nat} : text.toList = pre ++ (run ++ rest) →
    Run found run → found ≠ bytes → Cause text bytes (.lengthMismatch bytes found)

/-- An answer has the property `P`, and an error the property `E`. -/
def Answers (E : TextError → Prop) (P : α → Prop) : Except TextError α → Prop
  | .ok a => P a
  | .error e => E e

/-- The second reader goes on where the first one stopped. -/
theorem Answers.bind {E : TextError → Prop} {P : α → Prop} {Q : β → Prop} {x : Except TextError α}
    {k : α → Except TextError β} (hx : Answers E P x) (hk : ∀ a, P a → Answers E Q (k a)) :
    Answers E Q (x >>= k) := by
  cases x with
  | error e => exact hx
  | ok a => exact hk a hx

/-- Less is said of the answer. -/
theorem Answers.imp {E : TextError → Prop} {P Q : α → Prop} {x : Except TextError α}
    (hx : Answers E P x) (hPQ : ∀ a, P a → Q a) : Answers E Q x := by
  cases x with
  | error e => exact hx
  | ok a => exact hPQ a hx

/-- **A character that cannot stand here is in the text, at this place.** -/
theorem Cursor.At.badChar {d : Char} {rest : List Char} (hc : c.At text)
    (hrest : c.rest = d :: rest) : Cause text bytes (.badChar d c.offset) := by
  obtain ⟨pre, hpre, hoffset⟩ := hc
  rw [hoffset]
  exact .badChar (hrest ▸ hpre)

/-- **The text ends where an item should follow.** -/
theorem Cursor.Awaits.unexpectedEnd (hc : c.Awaits text) (hrest : c.skipBlanks.rest = []) :
    Cause text bytes (.unexpectedEnd text) := by
  obtain ⟨pre, b, hpre, hb, -, hlast⟩ := hc.skipBlanks
  rw [hrest, List.append_nil] at hpre
  exact .unexpectedEnd hpre hb hlast

end HeaderFlow.Space
