import HeaderFlow.Trit

/-!
# Words of packed trits

A 64-bit word holds 32 trits. The trit at place `k` takes the bits `2 * k` ("may be `0`") and
`2 * k + 1` ("may be `1`"), so a set operation on all 32 trits is a handful of word operations.
The two constants `lows` and `highs` select one bit of every pair; shifting by one carries a bit to
its partner, and the constant then drops what was carried across a pair boundary.
-/

namespace HeaderFlow.Word

/-- The number of trits in a word. -/
def tritsPerWord : Nat := 32

/-- The "may be `0`" bit of every trit. -/
def lows : UInt64 := 0x5555555555555555

/-- The "may be `1`" bit of every trit. -/
def highs : UInt64 := 0xaaaaaaaaaaaaaaaa

/-- The word of 32 wildcards. -/
def allWild : UInt64 := 0xffffffffffffffff

/-- The word with the same trit at every place. -/
def fill : Trit → UInt64
  | .conflict => 0
  | .zero => lows
  | .one => highs
  | .wild => allWild

/-- The trit at place `k`. -/
def trit (w : UInt64) (k : Nat) : Trit :=
  Trit.ofBits (w >>> (2 * k).toUInt64)

/-- Writes the trit at place `k`. -/
def put (w : UInt64) (k : Nat) (t : Trit) : UInt64 :=
  (w &&& ~~~(3 <<< (2 * k).toUInt64)) ||| (t.bits <<< (2 * k).toUInt64)

/-- The bits of the first `n` places. -/
def firstPlaces (n : Nat) : UInt64 :=
  if tritsPerWord ≤ n then allWild else (1 <<< (2 * n).toUInt64) - 1

/-- Counts the bits set among the `n` lowest. -/
def countBits : Nat → UInt64 → Nat
  | 0, _ => 0
  | n + 1, w => (w &&& 1).toNat + countBits n (w >>> 1)

/-- The number of bits set. -/
def popcount (w : UInt64) : Nat := countBits 64 w

/-- The low bit of every wildcard. -/
def wildLows (w : UInt64) : UInt64 := w &&& (w >>> 1) &&& lows

/-- The high bit of every wildcard. -/
def wildHighs (w : UInt64) : UInt64 := w &&& (w <<< 1) &&& highs

/-- Both bits of every wildcard. -/
def wildBits (w : UInt64) : UInt64 := wildHighs w ||| wildLows w

/-- Some place holds a conflict. -/
def hasConflict (w : UInt64) : Bool := wildLows (~~~w) != 0

/-- Some place holds exactly the trit `0`. -/
def hasZero (w : UInt64) : Bool := (w &&& lows) &&& ~~~((w >>> 1) &&& lows) != 0

/-- Some place holds exactly the trit `1`. -/
def hasOne (w : UInt64) : Bool := hasZero (~~~w)

/-- At every place where `a` and `b` differ, `b` is a wildcard. -/
def within (a b : UInt64) : Bool := (a ^^^ b) &&& ~~~(wildBits b) == 0

/-- Trit-wise conjunction: the result may be `0` if either may, and `1` if both may. -/
def and (a b : UInt64) : UInt64 := ((a ||| b) &&& lows) ||| (a &&& b &&& highs)

/-- Trit-wise negation: the two bits of every pair change places. -/
def not (w : UInt64) : UInt64 := ((w >>> 1) &&& lows) ||| ((w <<< 1) &&& highs)

/-- Trit-wise choice: **what `w` allows where the mask may be `0`, joined with what `v` allows where
the mask may be `1`**. -/
def select (mask w v : UInt64) : UInt64 :=
  ((w &&& mask &&& lows) ||| (w &&& (mask <<< 1) &&& highs)) |||
    ((v &&& (mask >>> 1) &&& lows) ||| (v &&& mask &&& highs))

end HeaderFlow.Word
