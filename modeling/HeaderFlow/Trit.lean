/-!
# Trits

A trit says which values one header bit may take. It is a pair of bits, "may be `0`" and "may be
`1`", so the four combinations are the subsets of `{0, 1}`: the wildcard `x` allows both values, the
conflict `z` neither.
-/

namespace HeaderFlow

/-- What is known about one header bit. -/
inductive Trit where
  /-- Neither value is allowed, written `z`. -/
  | conflict
  /-- Only `0` is allowed. -/
  | zero
  /-- Only `1` is allowed. -/
  | one
  /-- Both values are allowed, written `x`. -/
  | wild
  deriving DecidableEq, Repr

namespace Trit

/-- The trit that allows `0` iff `mayZero` and `1` iff `mayOne`. -/
def ofAllowed (mayZero mayOne : Bool) : Trit :=
  match mayZero, mayOne with
  | false, false => .conflict
  | true, false => .zero
  | false, true => .one
  | true, true => .wild

/-- The trit allows `0`. -/
def mayZero : Trit → Bool
  | .zero | .wild => true
  | .conflict | .one => false

/-- The trit allows `1`. -/
def mayOne : Trit → Bool
  | .one | .wild => true
  | .conflict | .zero => false

/-- The header bit `b` is allowed by the trit. -/
def allows (t : Trit) (b : Bool) : Bool :=
  if b then t.mayOne else t.mayZero

/-- The packed form: bit 0 is "may be `0`", bit 1 is "may be `1`". -/
def bits : Trit → UInt64
  | .conflict => 0
  | .zero => 1
  | .one => 2
  | .wild => 3

/-- Reads a packed trit from the **two lowest bits** of a word and ignores the others. -/
def ofBits (w : UInt64) : Trit :=
  ofAllowed (w &&& 1 != 0) (w &&& 2 != 0)

/-- Exactly one value is allowed. -/
def isConcrete : Trit → Bool
  | .zero | .one => true
  | .conflict | .wild => false

/-- Exchanges `0` and `1` and keeps the other two. -/
def flip : Trit → Trit
  | .zero => .one
  | .one => .zero
  | t => t

/-- The written form. -/
def toChar : Trit → Char
  | .conflict => 'z'
  | .zero => '0'
  | .one => '1'
  | .wild => 'x'

/-- Reads the written form, in which the two letters may be of either case. -/
def ofChar? : Char → Option Trit
  | '0' => some .zero
  | '1' => some .one
  | 'x' | 'X' => some .wild
  | 'z' | 'Z' => some .conflict
  | _ => none

/-! ### The two views of a trit agree -/

@[simp] theorem mayZero_ofAllowed (a b : Bool) : (ofAllowed a b).mayZero = a := by
  cases a <;> cases b <;> rfl

@[simp] theorem mayOne_ofAllowed (a b : Bool) : (ofAllowed a b).mayOne = b := by
  cases a <;> cases b <;> rfl

/-- **A trit is determined by the values it allows.** -/
theorem ofAllowed_mayZero_mayOne (t : Trit) : ofAllowed t.mayZero t.mayOne = t := by
  cases t <;> rfl

@[simp] theorem ofBits_bits (t : Trit) : ofBits t.bits = t := by
  cases t <;> decide

@[simp] theorem ofChar?_toChar (t : Trit) : ofChar? t.toChar = some t := by
  cases t <;> rfl

@[simp] theorem flip_flip (t : Trit) : t.flip.flip = t := by
  cases t <;> rfl

end Trit

end HeaderFlow
