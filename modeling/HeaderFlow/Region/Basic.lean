import HeaderFlow.Pattern.Algebra

/-!
# Regions

A region is a pattern with holes: the headers that match its frame and lie in none of its holes.
**A hole is a region again**, so a hole may itself have holes, which are then part of the outer
region. Holes are usually kept inside their frame, although nothing here depends on that.
-/

namespace HeaderFlow

/-- A pattern with holes. -/
inductive Region where
  | mk (frame : Pattern) (holes : List Region)

namespace Region

/-- The pattern that the region is cut from. -/
def frame : Region → Pattern
  | mk f _ => f

/-- What is taken out of the frame. -/
def holes : Region → List Region
  | mk _ hs => hs

/-- A region without holes. -/
def plain (p : Pattern) : Region := mk p []

/-- There are no holes. -/
def isPlain (r : Region) : Bool := r.holes.isEmpty

/-! ### Equality of regions is decidable -/

mutual

/-- Whether two regions are written the same way. -/
def decEq : (a b : Region) → Decidable (a = b)
  | mk f hs, mk g ks =>
    if h : f = g then
      match decEqList hs ks with
      | isTrue e => isTrue (by rw [h, e])
      | isFalse e => isFalse fun c ↦ e (Region.mk.inj c).2
    else isFalse fun c ↦ h (Region.mk.inj c).1

/-- Whether two lists of regions are written the same way. -/
def decEqList : (as bs : List Region) → Decidable (as = bs)
  | [], [] => isTrue rfl
  | [], _ :: _ => isFalse nofun
  | _ :: _, [] => isFalse nofun
  | a :: as, b :: bs =>
    match decEq a b with
    | isTrue h =>
      match decEqList as bs with
      | isTrue e => isTrue (by rw [h, e])
      | isFalse e => isFalse fun c ↦ e (List.cons.inj c).2
    | isFalse h => isFalse fun c ↦ h (List.cons.inj c).1

end

instance : DecidableEq Region := decEq

/-! ### Size -/

mutual

/-- How deep holes are nested: a plain region has height `0`. -/
def height : Region → Nat
  | mk _ hs => heightList hs

/-- One more than the greatest height in the list, or `0` if there is none. -/
def heightList : List Region → Nat
  | [] => 0
  | r :: rs => max (r.height + 1) (heightList rs)

end

mutual

/-- The number of holes at every depth. -/
def countHoles : Region → Nat
  | mk _ hs => countHolesList hs

/-- The number of regions in the list, with the holes of each at every depth. -/
def countHolesList : List Region → Nat
  | [] => 0
  | r :: rs => (r.countHoles + 1) + countHolesList rs

end

/-! ### Intersection and complement -/

mutual

/-- Restricts the frame to `v` and every hole to the new frame; holes outside it disappear. -/
def clip : Region → Pattern → Checked (Option Region)
  | mk f hs, v => do
    match ← f.intersect v with
    | none => return none
    | some f' => return some (mk f' (← clipList hs f'))

/-- Restricts every region of a list to `v` and drops those outside it. -/
def clipList : List Region → Pattern → Checked (List Region)
  | [], _ => .ok []
  | r :: rs, v => do
    let r' ← r.clip v
    let rs' ← clipList rs v
    return r'.toList ++ rs'

end

/-- What lies in both regions: the common frame without the holes of either. -/
def intersect (a b : Region) : Checked (Option Region) := do
  match ← a.frame.intersect b.frame with
  | none => return none
  | some f => return some (mk f (← clipList (a.holes ++ b.holes) f))

/-- Regions for all headers outside: those that do not match the frame, **and the holes**. -/
def complement (r : Region) : List Region :=
  r.frame.complement.map plain ++ r.holes

/-! ### Overwriting and widening -/

mutual

/-- Overwrites trits of the frame and of the holes, and says how many wildcards of the frame were
lost. A hole survives only if it **lost as many wildcards as its frame**. -/
def overwrite : Region → Pattern → Pattern → Checked (Region × Nat)
  | mk f hs, mask, value => do
    let o ← f.overwrite mask value
    let hs' ← overwriteList hs mask value o.lost
    return (mk o.pattern hs', o.lost)

/-- Overwrites every region of a list and keeps those that lost exactly `lost` wildcards. -/
def overwriteList : List Region → Pattern → Pattern → Nat → Checked (List Region)
  | [], _, _, _ => .ok []
  | r :: rs, mask, value, lost => do
    let (r', n) ← r.overwrite mask value
    let rs' ← overwriteList rs mask value lost
    return if n = lost then r' :: rs' else rs'

end

mutual

/-- Grows every pattern to `bytes` bytes with wild trits. -/
def enlarge : Region → Nat → Region
  | mk f hs, bytes => mk (f.enlarge bytes) (enlargeList hs bytes)

/-- Grows every region of a list. -/
def enlargeList : List Region → Nat → List Region
  | [], _ => []
  | r :: rs, bytes => r.enlarge bytes :: enlargeList rs bytes

end

/-! ### What a region means -/

mutual

/-- The header lies in the region. -/
def Contains : Region → (Nat → Bool) → Prop
  | mk f hs, h => f.Matches h ∧ ¬ ContainsAny hs h

/-- The header lies in some region of the list. -/
def ContainsAny : List Region → (Nat → Bool) → Prop
  | [], _ => False
  | r :: rs, h => r.Contains h ∨ ContainsAny rs h

end

end Region

end HeaderFlow
