/-!
# Errors in written patterns and sets

Why a text could not be read as a pattern or as a set of headers. `TextError.message` gives each
cause its wording, which starts with the class of the error in brackets.
-/

namespace HeaderFlow

/-- Why a text is not a pattern or a set of headers. -/
inductive TextError where
  /-- A character that cannot stand at this position. -/
  | badChar (char : Char) (position : Nat)
  /-- A pattern whose trits do not fill whole bytes. -/
  | partialByte (text : String) (trits : Nat)
  /-- The text ends where this character has to follow. -/
  | expectedAtEnd (wanted : Char) (text : String)
  /-- The text ends where a set has to follow. -/
  | unexpectedEnd (text : String)
  /-- Something is subtracted from none or from several regions at once. -/
  | severalMinuends (text : String)
  /-- A pattern has another length than the headers of the set. -/
  | lengthMismatch (expected found : Nat)
  deriving DecidableEq, Repr

/-- The two classes of errors in texts. -/
inductive TextError.Kind where
  | parse
  | length
  deriving DecidableEq, Repr

namespace TextError

/-- A pattern of the wrong length is an error of its own class; all others are errors of form. -/
def kind : TextError → Kind
  | .lengthMismatch .. => .length
  | _ => .parse

/-- The name of a class. -/
def Kind.name : Kind → String
  | .parse => "parse"
  | .length => "length"

/-- What went wrong, without the class. -/
def detail : TextError → String
  | .badChar c i => s!"unexpected character '{c}' at position {i}"
  | .partialByte t n => s!"vector '{t}' has {n} trits, not a whole number of bytes"
  | .expectedAtEnd c t => s!"expected '{c}' at end of '{t}'"
  | .unexpectedEnd t => s!"unexpected end of '{t}'"
  | .severalMinuends t => s!"difference needs a single positive term in '{t}'"
  | .lengthMismatch e f => s!"length mismatch: expected {e} bytes, found {f}"

/-- The wording of an error. -/
def message (e : TextError) : String := s!"[{e.kind.name}] {e.detail}"

end TextError

end HeaderFlow
