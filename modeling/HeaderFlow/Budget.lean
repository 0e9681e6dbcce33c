import HeaderFlow.Settings.Basic

/-!
# Budgets

A change of a network can set off a long propagation. Each visit of a flow is entered in a budget,
which limits how deep visits are nested, how many there are, and how long they take. **Entering
counts first and compares afterwards**, so the counters of a budget that was overrun include the
visit that overran it.

Time is limited by a *deadline*, which is set when a change starts. To find out whether it has
passed, the clock must be read, and that is not done at each visit but at one in sixty-four. A
`Clock` says what it shows whenever it is read. Nothing is asked of it, not even that it goes
forward: what is proved of all clocks holds of the one that a run happens to see.
-/

namespace HeaderFlow

/-- The limits of a propagation. -/
inductive Limit where
  | depth
  | visits
  | timeout
  deriving DecidableEq, Repr

/-- The name of a limit. -/
def Limit.name : Limit → String
  | .depth => "depth"
  | .visits => "visits"
  | .timeout => "timeout"

/-- A limit was passed, with the counters at that time. -/
structure Overrun where
  /-- The limit that was passed. -/
  limit : Limit
  /-- How deep visits were nested. -/
  depth : Nat
  /-- How many visits there were. -/
  visits : Nat
  deriving DecidableEq, Repr

/-- The wording of an overrun. -/
def Overrun.message (o : Overrun) : String :=
  s!"Propagation too complex ({o.limit.name}) after {o.visits} visits at depth {o.depth}"

/-- What a clock shows, in milliseconds: `clock k v` is its reading at visit `v` of change `k`.
Visit `0` is the start of the change. -/
abbrev Clock : Type := Nat → Nat → Nat

/-- A clock that has stopped. -/
def Clock.still : Clock := fun _ _ ↦ 0

/-- The visits of a propagation and their limits. -/
structure Budget where
  /-- How deep visits may be nested. -/
  maxDepth : Nat
  /-- How many visits there may be; `0` is no limit. -/
  maxVisits : Nat
  /-- How long a change may take, if that is limited. -/
  timeout : Option Nat
  /-- The clock by which time is told. -/
  clock : Clock
  /-- How many changes were started. -/
  changes : Nat
  /-- When the change that was started last must be done. -/
  deadline : Option Nat
  /-- How deep visits are nested now. -/
  depth : Nat
  /-- How many visits there were. -/
  visits : Nat

namespace Budget

/-- The clock is read at one in so many visits. -/
def clockInterval : Nat := 64

/-- The unused budget that the settings allow. -/
def new (s : Settings) (clock : Clock := .still) : Budget where
  maxDepth := s.maxDepth.toNat
  maxVisits := s.maxVisits.toNat
  timeout := s.timeout?.map UInt64.toNat
  clock := clock
  changes := 0
  deadline := none
  depth := 0
  visits := 0

/-- Starts over with the next change. -/
def reset (b : Budget) : Budget :=
  { b with
    changes := b.changes + 1
    deadline := b.timeout.map (b.clock (b.changes + 1) 0 + ·)
    depth := 0
    visits := 0 }

/-- Counts one more visit, one level deeper. -/
def count (b : Budget) : Budget := { b with depth := b.depth + 1, visits := b.visits + 1 }

/-- The clock is read at this visit, and the deadline has passed. -/
def isLate (b : Budget) : Bool :=
  b.visits % clockInterval == 0 && b.deadline.any (· ≤ b.clock b.changes b.visits)

/-- The limit that is passed, where the depth is looked at first and the time last. -/
def overrun? (b : Budget) : Option Overrun :=
  if b.maxDepth < b.depth then some ⟨.depth, b.depth, b.visits⟩
  else if 0 < b.maxVisits ∧ b.maxVisits < b.visits then some ⟨.visits, b.depth, b.visits⟩
  else if b.isLate then some ⟨.timeout, b.depth, b.visits⟩
  else none

/-- Enters one more visit: the budget after it, and the limit that it passed. -/
def enter (b : Budget) : Budget × Option Overrun := (b.count, b.count.overrun?)

/-- Leaves a visit; leaving more often than entering is harmless. -/
def leave (b : Budget) : Budget := { b with depth := b.depth - 1 }

end Budget

end HeaderFlow
