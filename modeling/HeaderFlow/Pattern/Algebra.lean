import HeaderFlow.Pattern.Basic

/-!
# Set algebra of patterns

A pattern stands for the set of headers that match it, and the operations below work on whole words
of trits. Those with two operands come in two layers. The plain function computes on the words and
says nothing about widths; the checked one first compares the widths and **answers a fault when they
differ**. The check comes before everything else in the call, so an empty operand of the wrong width
is a fault as well.
-/

namespace HeaderFlow.Pattern

/-- The two patterns describe headers of one length. -/
def checkWidth (a b : Pattern) : Checked Unit :=
  if a.bytes = b.bytes then .ok () else .error (.widthMismatch a.bytes b.bytes)

/-- Combines the words of two patterns, pair by pair. -/
def zipWords (f : UInt64 → UInt64 → UInt64) (a b : Pattern) : Pattern :=
  ofWords a.bytes (List.zipWith f a.words b.words)

/-- The words of two patterns, pair by pair. -/
def pairs (a b : Pattern) : List (UInt64 × UInt64) := a.words.zip b.words

/-! ### Intersection and complement -/

/-- What both patterns allow, trit by trit. -/
def meet (a b : Pattern) : Pattern := zipWords (· &&& ·) a b

/-- The intersection, unless no header matches both. -/
def meet? (a b : Pattern) : Option Pattern :=
  let m := meet a b
  if m.hasConflict then none else some m

/-- The intersection of two patterns of one width, unless no header matches both. -/
def intersect (a b : Pattern) : Checked (Option Pattern) :=
  (checkWidth a b).map fun _ ↦ meet? a b

/-- One step of the complement: having copied the concrete trits before position `i` into `copied`,
flips the trit at `i` if it is concrete and carries on with it copied. -/
def complementFrom (p copied : Pattern) : List Nat → List Pattern
  | [] => []
  | i :: rest =>
    let t := p.trit i
    if t.isConcrete then
      copied.put i t.flip :: complementFrom p (copied.put i t) rest
    else complementFrom p copied rest

/-- **Disjoint patterns for all headers that do not match.** The `k`-th of them copies the concrete
trits before the `k`-th, flips that one and is wild elsewhere. A pattern that nothing matches has
the whole space as its complement. -/
def complement (p : Pattern) : List Pattern :=
  if p.hasConflict then [allWild p.bytes]
  else complementFrom p (allWild p.bytes) (List.range p.width)

/-! ### Inclusion -/

/-- Every header that matches `a` matches `b`; widths are not compared. -/
def within (a b : Pattern) : Bool :=
  a.hasConflict || (pairs a b).all fun (v, w) ↦ Word.within v w

/-- Every header that matches `a` matches `b`. -/
def isSubset (a b : Pattern) : Checked Bool :=
  (checkWidth a b).map fun _ ↦ within a b

/-- Every header that matches `a` matches `b`, and some header matches only `b`. Emptiness decides
first, and then equality, so **widths are compared only for different patterns that are not empty**.
-/
def isStrictSubset (a b : Pattern) : Checked Bool :=
  if b.hasConflict then .ok false
  else if a.hasConflict then .ok true
  else if a = b then .ok false
  else isSubset a b

/-! ### Union of two patterns -/

/-- The pairs of words differ only in whole trits, one of which is `0` and the other `1`. -/
def differInOpposites (a b : Pattern) : Bool :=
  (pairs a b).all fun (v, w) ↦ !Word.hasZero (v ^^^ w) && !Word.hasOne (v ^^^ w)

/-- The number of positions at which one trit is `0` and the other `1`. -/
def countOpposites (a b : Pattern) : Nat :=
  tally (fun (v, w) ↦ Word.popcount (Word.wildHighs (v ^^^ w))) (pairs a b)

/-- What either pattern allows, trit by trit. -/
def join (a b : Pattern) : Pattern := zipWords (fun v w ↦ (v &&& w) ||| (v ^^^ w)) a b

/-- The one pattern that matches exactly what either does, if there is one: the operands then differ
in at most one trit, which is `0` in one and `1` in the other. -/
def join? (a b : Pattern) : Option Pattern :=
  if a.hasConflict || b.hasConflict then none
  else if !differInOpposites a b then none
  else
    let m := join a b
    if m.hasConflict || 1 < countOpposites a b then none else some m

/-- The one pattern that matches exactly what either does, if there is one. -/
def merge (a b : Pattern) : Checked (Option Pattern) :=
  (checkWidth a b).map fun _ ↦ join? a b

/-- What becomes of two members of a list that stands for the union of its members. -/
inductive Pairing where
  /-- Both are empty and go. -/
  | neither
  /-- The first stays and makes the second superfluous. -/
  | first
  /-- The second stays and makes the first superfluous. -/
  | second
  /-- Both stay. -/
  | both
  /-- Both go, and this pattern takes their place. -/
  | merged (pattern : Pattern)
  deriving DecidableEq

/-- Some position at which the two are opposite is one that the mask may set. -/
def oppositesMasked (a b mask : Pattern) : Bool :=
  ((pairs a b).zip mask.words).any fun ((v, w), m) ↦ Word.wildHighs (v ^^^ w) &&& m != 0

/-- How two patterns of one width simplify to fewer; with a mask, **a merge at a position that the
mask may set is refused**. -/
def combine (a b : Pattern) (mask : Option Pattern) : Pairing :=
  match a.hasConflict, b.hasConflict with
  | true, true => .neither
  | true, false => .second
  | false, true => .first
  | false, false =>
    if within b a then .first
    else if within a b then .second
    else if mask.any (oppositesMasked a b) then .both
    else match join? a b with
      | some m => .merged m
      | none => .both

/-- How two patterns simplify to fewer. The width of the mask is not compared. -/
def pairing (a b : Pattern) (mask : Option Pattern) : Checked Pairing :=
  (checkWidth a b).map fun _ ↦ combine a b mask

/-! ### Overwriting and narrowing -/

/-- A pattern after some of its trits were overwritten. -/
structure Overwritten where
  /-- The new pattern. -/
  pattern : Pattern
  /-- How many wildcards stood at positions that the mask may set. -/
  lost : Nat
  deriving DecidableEq

/-- Where the mask is `1` takes the trit of `value`, where it is `0` keeps the old one; widths are
not compared. -/
def replaceMasked (p mask value : Pattern) : Overwritten where
  pattern := ofWords p.bytes <|
    List.zipWith (fun (w, m) v ↦ Word.select m w v) (p.words.zip mask.words) value.words
  lost := tally (fun ((w, used), m) ↦ Word.popcount (Word.wildHighs w &&& m &&& used))
    (p.wordsWithUse.zip mask.words)

/-- Where the mask is `1` takes the trit of `value`, where it is `0` keeps the old one. -/
def overwrite (p mask value : Pattern) : Checked Overwritten := do
  checkWidth p mask
  checkWidth p value
  return replaceMasked p mask value

/-- A pattern from which at most one bit was cleared. -/
structure Narrowed where
  /-- The new pattern. -/
  pattern : Pattern
  /-- How many bits of the old pattern lie outside the one that was subtracted. -/
  excess : Nat
  deriving DecidableEq

/-- Clears the partner of a single bit `c` of `w`. -/
def clearPartner (w c : UInt64) : UInt64 :=
  if c &&& Word.highs != 0 then w &&& ~~~(c >>> 1) else w &&& ~~~(c <<< 1)

/-- Subtracts `d` where this is the change of a single bit; widths are not compared. -/
def narrow (p d : Pattern) : Narrowed :=
  let outside := List.zipWith (fun w v ↦ w &&& ~~~v) p.words d.words
  let excess := tally Word.popcount outside
  if excess = 1 then
    ⟨ofWords p.bytes <| List.zipWith (fun w c ↦ if c = 0 then w else clearPartner w c)
      p.words outside, excess⟩
  else ⟨p, excess⟩

/-- Subtracts `d` where this is the change of a single bit. An excess of `0` says that the pattern
lies inside `d`, an excess of `1` that **the new pattern is the difference**; otherwise the pattern
stays as it is. -/
def subtractBit (p d : Pattern) : Checked Narrowed :=
  (checkWidth p d).map fun _ ↦ narrow p d

/-! ### Trit-wise logic -/

/-- Trit-wise conjunction. -/
def and (a b : Pattern) : Checked Pattern :=
  (checkWidth a b).map fun _ ↦ zipWords Word.and a b

/-- Trit-wise negation. -/
def not (p : Pattern) : Pattern := ofWords p.bytes (p.words.map Word.not)

end HeaderFlow.Pattern
