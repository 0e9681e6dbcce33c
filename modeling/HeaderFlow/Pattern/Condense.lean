import HeaderFlow.Pattern.Algebra

/-!
# Condensing lists of patterns

A list of patterns stands for the union of its members. Condensing it drops empty members and
members that lie inside others, and merges two members that differ in one trit, **until no two
members combine any more**.

Patterns wait in a queue and are compared one by one with those already accepted. A merged pattern
goes to the end of the queue, since it may in turn swallow or merge with accepted ones. Each step
takes one pattern from the queue: either it is accepted, or the two lists together lose a member. So
`2 * queue + accepted` falls with every step, and twice the length of the input bounds their number.
-/

namespace HeaderFlow.Pattern

/-- A pattern after its comparison with the accepted ones. -/
structure Sifted where
  /-- The accepted patterns that remain. -/
  accepted : List Pattern
  /-- The pattern is still needed. -/
  survives : Bool
  /-- The pattern was merged into this one, which has to be compared anew. -/
  merged : Option Pattern

/-- Compares `v` with the accepted patterns in order, up to the first that makes it superfluous. -/
def sift (v : Pattern) (mask : Option Pattern) : List Pattern → Checked Sifted
  | [] => .ok ⟨[], true, none⟩
  | a :: rest => do
    match ← pairing a v mask with
    | .neither => return ⟨rest, false, none⟩
    | .first => return ⟨a :: rest, false, none⟩
    | .second => sift v mask rest
    | .both =>
      let s ← sift v mask rest
      return { s with accepted := a :: s.accepted }
    | .merged m => return ⟨rest, false, some m⟩

/-- Works off the queue, in at most `steps` steps. -/
def condenseQueue (mask : Option Pattern) :
    (steps : Nat) → (queue accepted : List Pattern) → Checked (List Pattern)
  | 0, _, accepted => .ok accepted
  | _ + 1, [], accepted => .ok accepted
  | steps + 1, v :: queue, accepted => do
    let s ← sift v mask accepted
    condenseQueue mask steps (queue ++ s.merged.toList)
      (if s.survives then s.accepted ++ [v] else s.accepted)

/-- The list without empty members, without members inside others, and with no two members that
combine under the mask. -/
def condense (mask : Option Pattern) (input : List Pattern) : Checked (List Pattern) :=
  let queue := input.filter fun v ↦ !v.hasConflict
  condenseQueue mask (2 * queue.length) queue []

end HeaderFlow.Pattern
