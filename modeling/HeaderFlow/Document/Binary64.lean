/-!
# Numbers that are not integers

A number that is written with a fraction or an exponent stands for the nearest number of binary
floating point with 64 bits; a tie goes to the even neighbour. It is kept by its bits, with **one
zero and one value for what is no number**, so two of them are equal exactly if they stand for the
same.
-/

namespace HeaderFlow.Document

/-- A number of binary floating point, or one of the values that stand beside the numbers. -/
structure Binary64 where
  bits : UInt64
  deriving DecidableEq, Repr

namespace Binary64

/-- The bit of the sign. -/
def signBit : UInt64 := 0x8000000000000000

/-- The zero. -/
def zero : Binary64 := ⟨0⟩

/-- The value that is no number. -/
def nan : Binary64 := ⟨0x7ff8000000000000⟩

/-- More than every number. -/
def infinity : Binary64 := ⟨0x7ff0000000000000⟩

/-- The value with the other sign; the zero has none. -/
def negate (x : Binary64) : Binary64 := if x = zero then zero else ⟨x.bits ^^^ signBit⟩

/-- The number next to `digits * 10 ^ exponent`, unless that is **too large for any number to be
next to it**. Numbers of fewer than `-330` or more than `310` places are told apart by their places
alone, so no large power is computed for them. -/
def nearest? (digits : Nat) (exponent : Int) : Option Binary64 :=
  let places := (Nat.toDigits 10 digits).length + exponent
  if digits = 0 ∨ places < -330 then some zero
  else if 310 < places then none
  else
    let x : Binary64 := ⟨(Float.ofScientific digits (exponent < 0) exponent.natAbs).toBits⟩
    if x = infinity then none else some x

/-- The written form of `digits / 10 ^ places`. -/
def point (digits places : Nat) : String :=
  let ds := Nat.toDigits 10 digits
  let ds := List.replicate (places + 1 - ds.length) '0' ++ ds
  let whole := ds.take (ds.length - places)
  let fraction := ds.drop (ds.length - places)
  String.ofList whole ++ "." ++ (if fraction.isEmpty then "0" else String.ofList fraction)

/-- The written form of a number, with all its places: `m * 2 ^ q` is `m * 5 ^ (-q) / 10 ^ (-q)`
where `q` is negative. -/
def magnitudeText (bits : UInt64) : String :=
  let e := ((bits >>> 52) &&& 0x7ff).toNat
  let f := (bits &&& 0xfffffffffffff).toNat
  let m := if e = 0 then f else f + 0x10000000000000
  let e := max e 1
  if 1075 ≤ e then point (m <<< (e - 1075)) 0 else point (m * Nat.pow 5 (1075 - e)) (1075 - e)

/-- The written form. -/
def text (x : Binary64) : String :=
  if x = nan then ".nan"
  else
    let negative := x.bits &&& signBit != 0
    let magnitude := x.bits &&& ~~~signBit
    (if negative then "-" else "") ++
      (if magnitude = infinity.bits then ".inf" else magnitudeText magnitude)

end Binary64

end HeaderFlow.Document
