import HeaderFlow.Document.Value
import HeaderFlow.Probe.Chain

/-!
# Paths

A path condition is a sequence of *pathlets*, which are matched one after the other along a chain of
hops, starting at the probe. A pathlet either moves a place in the chain forward or fails. Only hops
before the root are consumed, and most pathlets look at input hops alone, those at the boundary of a
table.

The pathlet `anyHops`, written `.*`, leaves open how many hops it skips. It cuts the sequence into
sections. **Each section is placed as near to the probe as it fits, and is never placed again when a
later one fails**; a section after `.*` is not tried at the root.
-/

namespace HeaderFlow

open Document (Value)

/-- A step along a chain of hops. -/
inductive Pathlet where
  /-- Some input hop further on came in by this port. -/
  | port (port : Port)
  /-- Some input hop further on is at a rule of this table. -/
  | table (table : TableId)
  /-- The next input hop came in by one of these ports. -/
  | nextPorts (ports : PortSet)
  /-- The next input hop is at a rule of one of these tables. -/
  | nextTables (tables : PortSet)
  /-- The hop before the root is an input hop that came in by one of these ports. -/
  | lastPorts (ports : PortSet)
  /-- The hop before the root is an input hop at a rule of one of these tables. -/
  | lastTables (tables : PortSet)
  /-- There is a next input hop. -/
  | hop
  /-- Any number of hops. -/
  | anyHops
  /-- The root is reached. -/
  | atEnd
  deriving DecidableEq

namespace Pathlet

/-- Moves past the first hop from `i` on that satisfies `p`. -/
def seek (c : Chain) (i : Nat) (p : Hop → Bool) : Option Nat :=
  ((c.inner.drop i).findIdx? p).map (i + · + 1)

/-- Moves past the next input hop, which must satisfy `p`. -/
def nextInput (c : Chain) (i : Nat) (p : Hop → Bool) : Option Nat := do
  let skipped ← (c.inner.drop i).findIdx? Hop.atInput
  let h ← c.inner[i + skipped]?
  if p h then some (i + skipped + 1) else none

/-- Moves to the root, if the hop before it is an input hop that satisfies `p`. -/
def lastHop (c : Chain) (i : Nat) (p : Hop → Bool) : Option Nat := do
  let h ← (c.inner.drop i).getLast?
  if h.atInput && p h then some c.inner.length else none

/-- Where the pathlet leads from place `i`, unless it fails there. -/
def advance (c : Chain) (i : Nat) : Pathlet → Option Nat
  | .port p => seek c i fun h ↦ h.atInput && h.port == p
  | .table t => seek c i fun h ↦ h.atInput && h.isRuleOf (· == t)
  | .nextPorts ps => nextInput c i fun h ↦ ps.contains h.port
  | .nextTables ts => nextInput c i fun h ↦ h.isRuleOf ts.contains
  | .lastPorts ps => lastHop c i fun h ↦ ps.contains h.port
  | .lastTables ts => lastHop c i fun h ↦ h.isRuleOf ts.contains
  | .hop => nextInput c i fun _ ↦ true
  | .anyHops => some i
  | .atEnd => if c.isRoot i then some i else none

/-- The written form. -/
def text : Pathlet → String
  | .port p => s!".*(p = {p})"
  | .table t => s!".*(t = {t})"
  | .nextPorts ps => "(p in " ++ ps.text ++ ")"
  | .nextTables ts => "(t in " ++ ts.text ++ ")"
  | .lastPorts ps => ".*(p in " ++ ps.text ++ ")$"
  | .lastTables ts => ".*(t in " ++ ts.text ++ ")$"
  | .hop => "."
  | .anyHops => ".*"
  | .atEnd => "$"

/-- The exported form. -/
def toValue : Pathlet → Value
  | .port p => .record [("type", .string "port"), ("port", .nat p.toNat)]
  | .table t => .record [("type", .string "table"), ("table", .nat t.toNat)]
  | .nextPorts ps => .record [("type", .string "next_ports"), ("ports", ports ps)]
  | .nextTables ts => .record [("type", .string "next_tables"), ("tables", ports ts)]
  | .lastPorts ps => .record [("type", .string "last_ports"), ("ports", ports ps)]
  | .lastTables ts => .record [("type", .string "last_tables"), ("tables", ports ts)]
  | .hop => .record [("type", .string "skip")]
  | .anyHops => .record [("type", .string "skip_next")]
  | .atEnd => .record [("type", .string "end")]
where
  /-- The members of a set. -/
  ports (s : PortSet) : Value := .seq (s.toList.map fun p ↦ .nat p.toNat)

end Pathlet

namespace Path

/-- The pathlets before the first `anyHops`, and the sections that the others cut off. -/
def sections : List Pathlet → List Pathlet × List (List Pathlet)
  | [] => ([], [])
  | .anyHops :: rest =>
    let (first, more) := sections rest
    ([], first :: more)
  | p :: rest =>
    let (first, more) := sections rest
    (p :: first, more)

/-- Where the pathlets of a section lead from place `i`, one after the other. -/
def walk (c : Chain) (i : Nat) (ps : List Pathlet) : Option Nat :=
  ps.foldlM (fun i p ↦ p.advance c i) i

/-- Where a section leads from the first place at or after `i`, short of the root, from which it
leads anywhere. -/
def place (c : Chain) (i : Nat) (ps : List Pathlet) : Option Nat :=
  (List.range' i (c.inner.length - i)).findSome? fun j ↦ walk c j ps

/-- The sections can be placed one after the other, from place `i` on. -/
def placeAll (c : Chain) (i : Nat) : List (List Pathlet) → Bool
  | [] => true
  | s :: ss =>
    match place c i s with
    | some j => placeAll c j ss
    | none => false

/-- The pathlets match the chain. -/
def accepts (c : Chain) (ps : List Pathlet) : Bool :=
  let (first, more) := sections ps
  match walk c 0 first with
  | some i => placeAll c i more
  | none => false

end Path

end HeaderFlow
