/-!
# Faults

An operation of this library has a *precondition* when it only makes sense for some of its
arguments: two patterns must have the same width before they can be intersected, a handle must
still be live before the value behind it can be read. Such an operation answers in `Checked`, and a
broken precondition is the error there. A fault is a mistake of the caller and not a property of the
network under study, so it is kept apart from the errors that a network reports.
-/

namespace HeaderFlow

/-- The ways in which a precondition can be broken. -/
inductive Fault where
  /-- Two operands have different widths, in bytes. -/
  | widthMismatch (left right : Nat)
  /-- A trit position lies at or past the end of a pattern. -/
  | tritOutOfRange (index width : Nat)
  /-- A handle no longer resolves, because its value was removed. -/
  | staleHandle (index : Nat) (generation : UInt32)
  /-- A node was looked up that is not part of the network. -/
  | missingNode (key : Nat)
  /-- A probe was told to give up a deciding flow although none was counted. -/
  | countUnderflow
  /-- A source or a probe was added, and all identifiers have been given out. -/
  | identifiersExhausted
  deriving DecidableEq, Repr

/-- The result of an operation with a precondition. -/
abbrev Checked (α : Type) : Type := Except Fault α

end HeaderFlow
