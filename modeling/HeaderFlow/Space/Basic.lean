import HeaderFlow.Region.Compact

/-!
# Sets of headers

A space is a finite union of regions, all over headers of one length. Its operations are those of
sets, and **equality of spaces as data is finer than equality as sets**: `Space.isEqual` compares
the sets. A space without regions is empty; whether one with regions is empty is decided by
`Space.unroll`, which expands all holes.
-/

namespace HeaderFlow

/-- A union of regions. -/
structure Space where
  /-- The length of the headers. -/
  bytes : Nat
  /-- The regions united. -/
  regions : List Region
  deriving DecidableEq

namespace Space

/-- The empty set. -/
def empty (bytes : Nat) : Space := ⟨bytes, []⟩

/-- The headers that match a pattern. -/
def ofPattern (p : Pattern) : Space :=
  ⟨p.bytes, if p.hasConflict then [] else [.plain p]⟩

/-- All headers. -/
def all (bytes : Nat) : Space := ofPattern (.allWild bytes)

/-- The union of regions; those with an empty frame are left out. -/
def ofRegions (bytes : Nat) (rs : List Region) : Space :=
  ⟨bytes, rs.filter fun r ↦ !r.frame.hasConflict⟩

/-- There are no regions. -/
def isEmpty (s : Space) : Bool := s.regions.isEmpty

/-- The number of regions. -/
def count (s : Space) : Nat := s.regions.length

/-- The number of holes at every depth. -/
def countHoles (s : Space) : Nat := tally Region.countHoles s.regions

/-- A pattern or a space has the length of the headers of this space. -/
def checkBytes (s : Space) (bytes : Nat) : Checked Unit :=
  if bytes = s.bytes then .ok () else .error (.widthMismatch bytes s.bytes)

/-! ### Union, intersection, difference with a pattern -/

/-- Adds the headers that match a pattern. -/
def addPattern (s : Space) (p : Pattern) : Checked Space :=
  (s.checkBytes p.bytes).map fun _ ↦
    if p.hasConflict then s else { s with regions := s.regions ++ [.plain p] }

/-- The union of two spaces. -/
def union (s t : Space) : Checked Space :=
  (s.checkBytes t.bytes).map fun _ ↦ { s with regions := s.regions ++ t.regions }

/-- The intersections of a region with each of a list that are not empty. -/
def intersectEach (r : Region) : List Region → Checked (List Region)
  | [] => .ok []
  | q :: qs => do
    let i ← r.intersect q
    let is ← intersectEach r qs
    return i.toList ++ is

/-- The intersections of every region of the first list with every one of the second. -/
def intersectAll : List Region → List Region → Checked (List Region)
  | [], _ => .ok []
  | r :: rs, qs => do
    let is ← intersectEach r qs
    let more ← intersectAll rs qs
    return is ++ more

/-- The intersection of two spaces. -/
def intersect (s t : Space) : Checked Space := do
  s.checkBytes t.bytes
  return ⟨s.bytes, ← intersectAll s.regions t.regions⟩

/-- The headers of the space that match a pattern. -/
def clip (s : Space) (p : Pattern) : Checked Space := do
  return { s with regions := ← Region.clipList s.regions p }

/-- Cuts a pattern out of a region by **recording it as one more hole**. -/
def punch (p : Pattern) (r : Region) : Checked Region := do
  match ← r.frame.intersect p with
  | none => return r
  | some d => return .mk r.frame (r.holes ++ [.plain d])

/-- The headers of the space that do not match a pattern. -/
def cut (s : Space) (p : Pattern) : Checked Space := do
  return { s with regions := ← s.regions.mapM (punch p) }

/-! ### Normal forms -/

/-- Brings every region into normal form and drops those found empty. -/
def compact (mask : Option Pattern) (s : Space) : Checked Space := do
  return { s with regions := ← Region.compactEach (Region.compact mask) s.regions }

/-- The intersection of the complements of `rs` with the space `acc`, compacted after each region;
as soon as nothing is left, the rest is not looked at. -/
def complementFrom (acc : Space) : List Region → Checked Space
  | [] => .ok acc
  | r :: rs => do
    let c := ofRegions acc.bytes r.complement
    if c.isEmpty then return empty acc.bytes
    let next ← (← acc.intersect c).compact none
    if next.isEmpty then return next
    complementFrom next rs

/-- All headers outside. -/
def complement (s : Space) : Checked Space :=
  match s.regions with
  | [] => .ok (all s.bytes)
  | r :: rs => do
    let c := ofRegions s.bytes r.complement
    if c.isEmpty then return empty s.bytes
    let first ← c.compact none
    if first.isEmpty then return first
    complementFrom first rs

/-- The headers of `s` outside `t`. -/
def minus (s t : Space) : Checked Space := do
  (← s.intersect (← t.complement)).compact none

/-- Overwrites trits in every region. -/
def overwrite (s : Space) (mask value : Pattern) : Checked Space := do
  return { s with regions := ← s.regions.mapM fun r ↦ return (← r.overwrite mask value).1 }

/-- Grows to `bytes` bytes with wild trits; **never shrinks**. -/
def enlarge (s : Space) (bytes : Nat) : Space :=
  if bytes ≤ s.bytes then s else ⟨bytes, Region.enlargeList s.regions bytes⟩

/-! ### Expanding holes -/

/-- Cuts the holes out of `acc` one by one, by intersecting with the complement of each; stops when
nothing is left. -/
def cutHoles (bytes : Nat) (acc : Space) : List Region → Checked Space
  | [] => .ok acc
  | h :: hs => do
    let acc ← acc.intersect (← (ofRegions bytes [h]).complement)
    if acc.isEmpty then return acc
    cutHoles bytes acc hs

/-- Expands the holes of a region that has some. A hole inside a hole becomes a region, whose own
holes are still there, so **heights fall by two**. -/
def unrollRegion (bytes : Nat) (r : Region) : Checked (List Region) :=
  if r.isPlain then .ok [r]
  else (cutHoles bytes (ofPattern r.frame) r.holes).map regions

/-- Expands the holes of each region of a list. -/
def unrollOnce (bytes : Nat) : List Region → Checked (List Region)
  | [] => .ok []
  | r :: rs => do
    let these ← unrollRegion bytes r
    let those ← unrollOnce bytes rs
    return these ++ those

/-- Expands holes until all regions are plain, at most `passes` times. -/
def unrollTimes (bytes : Nat) : (passes : Nat) → List Region → Checked (List Region)
  | 0, rs => .ok rs
  | passes + 1, rs => do
    if rs.all Region.isPlain then return rs
    unrollTimes bytes passes (← unrollOnce bytes rs)

/-- The same set without holes. -/
def unroll (s : Space) : Checked Space := do
  return { s with regions := ← unrollTimes s.bytes (Region.heightList s.regions) s.regions }

/-! ### Comparison as sets -/

/-- Every header of `s` lies in `t`. -/
def isSubset (s t : Space) : Checked Bool := do
  if s.isEmpty then return true
  return (← (← s.minus t).unroll).isEmpty

/-- Every header of `s` lies in `t`, and some header of `t` not in `s`. -/
def isStrictSubset (s t : Space) : Checked Bool :=
  if t.isEmpty then .ok false
  else do
    if ← s.isSubset t then return !(← t.isSubset s) else return false

/-- The two spaces have the same headers. -/
def isEqual (s t : Space) : Checked Bool :=
  if s.isEmpty && t.isEmpty then .ok true
  else do
    if ← s.isSubset t then t.isSubset s else return false

/-! ### Merging plain regions -/

/-- The pattern lies inside one of the list. -/
def insideAny (p : Pattern) : List Pattern → Checked Bool
  | [] => .ok false
  | q :: qs => do
    if ← p.isSubset q then return true else insideAny p qs

/-- Keeps the regions whose frame lies inside none of the patterns. -/
def dropInside (ps : List Pattern) : List Region → Checked (List Region)
  | [] => .ok []
  | r :: rs => do
    let inside ← insideAny r.frame ps
    let rs' ← dropInside ps rs
    return if inside then rs' else r :: rs'

/-- Condenses the plain regions and drops those others whose frame lies inside one of them. -/
def simplify (s : Space) : Checked Space := do
  let (plains, others) := s.regions.partition Region.isPlain
  let ps ← Pattern.condense none (plains.map Region.frame)
  return { s with regions := ps.map .plain ++ (← dropInside ps others) }

/-! ### What a space means -/

/-- The header lies in the space. -/
def Contains (s : Space) (h : Nat → Bool) : Prop := Region.ContainsAny s.regions h

end Space

end HeaderFlow
