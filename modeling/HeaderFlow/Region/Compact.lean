import HeaderFlow.Pattern.Condense
import HeaderFlow.Region.Basic

/-!
# Compacting regions

Compacting brings the holes of a region into a normal form, at every depth, and notices many regions
that contain nothing. One round condenses the plain holes, compacts the other ones, and then lets
plain holes bite into the frame: a hole that leaves a single bit of the frame free is traded for a
smaller frame, and a hole that leaves none makes the region empty. **Rounds are repeated until one
changes nothing.**

The number of rounds is bounded by `Region.weight`, which counts the bits in all patterns of the
region. A round that drops or merges holes or narrows a frame makes the bits fewer; a round that
does none of this can only move plain holes to the front, and the round after it changes nothing.
-/

namespace HeaderFlow.Region

/-! ### One round -/

/-- Condenses the plain regions of a list and puts them before the others. In a list of at most one
region only emptiness of the frame is looked at. -/
def condensePlain (mask : Option Pattern) (rs : List Region) : Checked (List Region) :=
  if rs.length < 2 then .ok (rs.filter fun r ↦ !r.frame.hasConflict)
  else
    let (plains, others) := rs.partition isPlain
    (Pattern.condense mask (plains.map frame)).map fun ps ↦ ps.map plain ++ others

/-- Compacts each region of a list and drops the empty ones. -/
def compactEach (compact : Region → Checked (Option Region)) : List Region → Checked (List Region)
  | [] => .ok []
  | r :: rs => do
    let r' ← compact r
    let rs' ← compactEach compact rs
    return r'.toList ++ rs'

/-- The place of the first plain hole that leaves at most one bit of the frame free. -/
def firstTight (f : Pattern) : List Region → Checked (Option (Nat × Pattern.Narrowed))
  | [] => .ok none
  | h :: hs => do
    if h.isPlain then
      let n ← f.subtractBit h.frame
      if n.excess ≤ 1 then return some (0, n)
    return (← firstTight f hs).map fun (j, n) ↦ (j + 1, n)

/-- The list without its member at place `j`, which the last member replaces. -/
def swapRemove (rs : List Region) (j : Nat) : List Region :=
  match rs.getLast? with
  | none => []
  | some l => (rs.set j l).dropLast

/-- Trades tight holes for smaller frames, each step being one hole; empty if a hole covers the
frame. -/
def bite : (steps : Nat) → Pattern → List Region → Checked (Option Region)
  | 0, f, hs => .ok (some (mk f hs))
  | steps + 1, f, hs => do
    match ← firstTight f hs with
    | none => return some (mk f hs)
    | some (j, n) =>
      if n.excess = 0 then return none
      bite steps n.pattern (← clipList (swapRemove hs j) n.pattern)

/-- One round, given how to compact a hole. -/
def round (mask : Option Pattern) (compact : Region → Checked (Option Region)) (r : Region) :
    Checked (Option Region) := do
  let hs ← condensePlain mask r.holes
  let hs ← compactEach compact hs
  bite hs.length r.frame hs

/-! ### Rounds until nothing changes -/

/-- Repeats a round until it changes nothing, at most `rounds` times. -/
def settle (step : Region → Checked (Option Region)) : (rounds : Nat) → Region →
    Checked (Option Region)
  | 0, r => .ok (some r)
  | rounds + 1, r => do
    match ← step r with
    | none => return none
    | some r' => if r' = r then return some r' else settle step rounds r'

mutual

/-- An upper bound for the number of bits in all patterns of a region, plus one for each. -/
def weight : Region → Nat
  | mk f hs => 1 + 64 * f.words.length + weightList hs

/-- The weights of a list together. -/
def weightList : List Region → Nat
  | [] => 0
  | r :: rs => r.weight + weightList rs

end

/-- Compacts a region of at most the given height. -/
def compactAt (mask : Option Pattern) : (height : Nat) → Region → Checked (Option Region)
  | 0, r => .ok (some r)
  | height + 1, r => settle (round mask (compactAt mask height)) (r.weight + 2) r

/-- The normal form of a region, or nothing if the region turned out to be empty. -/
def compact (mask : Option Pattern) (r : Region) : Checked (Option Region) :=
  compactAt mask r.height r

end HeaderFlow.Region
