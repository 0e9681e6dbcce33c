import HeaderFlow.Document.Value

/-!
# What plain scalars stand for

A scalar without quotes stands for what it looks like: null, a truth value, an integer, another
number, or else a string. An integer stands for itself if it has 64 bits. **One of up to 128 bits is
refused**, and a longer one is a number like those with a fraction.
-/

namespace HeaderFlow.Document.Plain

/-! ### Integers -/

/-- The value of a digit in a base up to sixteen. -/
def digit? (base : Nat) (c : Char) : Option Nat :=
  let v :=
    if '0' ≤ c ∧ c ≤ '9' then c.toNat - '0'.toNat
    else if 'a' ≤ c ∧ c ≤ 'f' then c.toNat - 'a'.toNat + 10
    else if 'A' ≤ c ∧ c ≤ 'F' then c.toNat - 'A'.toNat + 10
    else base
  if v < base then some v else none

/-- The number that a non-empty list of digits stands for. -/
def digits? (base : Nat) : List Char → Option Nat
  | [] => none
  | cs => cs.foldlM (fun n c ↦ (digit? base c).map (n * base + ·)) 0

/-- A number without a sign, in base ten or, after a mark, in another base. A zero before other
digits makes the text a string. -/
def magnitude? : List Char → Option Nat
  | '0' :: 'x' :: cs => digits? 16 cs
  | '0' :: 'o' :: cs => digits? 8 cs
  | '0' :: 'b' :: cs => digits? 2 cs
  | '0' :: _ :: _ => none
  | cs => digits? 10 cs

/-- An integer, with a sign or without one. -/
def integer? : List Char → Option Int
  | '-' :: cs => (magnitude? cs).map fun n ↦ -n
  | '+' :: cs => (magnitude? cs).map Int.ofNat
  | cs => (magnitude? cs).map Int.ofNat

/-- The integer lies below `2 * bound`, or below `bound` in magnitude if it is negative. -/
def fits (bound : Nat) (i : Int) : Bool := -(bound : Int) ≤ i && i < 2 * (bound : Int)

/-! ### Other numbers -/

/-- An integer with a sign or without one, in base ten. -/
def exponent? : List Char → Option Int
  | '-' :: cs => (digits? 10 cs).map fun n ↦ -n
  | '+' :: cs => (digits? 10 cs).map Int.ofNat
  | cs => (digits? 10 cs).map Int.ofNat

/-- A number without a sign: digits, of which a point may divide off a fraction, and then an
exponent of ten or nothing. -/
def decimal? (cs : List Char) : Option Binary64 := do
  let whole := cs.takeWhile Char.isDigit
  let (fraction, rest) := match cs.dropWhile Char.isDigit with
    | '.' :: rest => (rest.takeWhile Char.isDigit, rest.dropWhile Char.isDigit)
    | rest => ([], rest)
  let digits ← digits? 10 (whole ++ fraction)
  let exponent ← match rest with
    | [] => some 0
    | e :: rest => if e = 'e' ∨ e = 'E' then exponent? rest else none
  Binary64.nearest? digits (exponent - fraction.length)

/-- A number with a sign or without one, or the name of infinity or of no number. -/
def number? (cs : List Char) : Option Binary64 :=
  if [".nan", ".NaN", ".NAN"].contains (String.ofList cs) then some .nan
  else match cs with
    | '-' :: cs => (unsigned? cs).map Binary64.negate
    | '+' :: cs => unsigned? cs
    | cs => unsigned? cs
where
  /-- A number without a sign, or the name of infinity. -/
  unsigned? (cs : List Char) : Option Binary64 :=
    if [".inf", ".Inf", ".INF"].contains (String.ofList cs) then some .infinity else decimal? cs

/-- A zero before other digits: such a text is a string. -/
def hasLeadingZero (cs : List Char) : Bool :=
  match cs with
  | '+' :: '0' :: d :: ds | '-' :: '0' :: d :: ds | '0' :: d :: ds => (d :: ds).all Char.isDigit
  | _ => false

/-! ### All scalars -/

/-- The text is one of the names of null. -/
def isNull (cs : List Char) : Bool := ["~", "null", "Null", "NULL"].contains (String.ofList cs)

/-- The truth value with the name. -/
def bool? (cs : List Char) : Option Bool :=
  if ["true", "True", "TRUE"].contains (String.ofList cs) then some true
  else if ["false", "False", "FALSE"].contains (String.ofList cs) then some false
  else none

/-- The integer has 64 bits. -/
def isShort (i : Int) : Bool := fits (UInt64.size / 2) i

/-- The integer has 128 bits. -/
def isLong (i : Int) : Bool := fits (UInt64.size * UInt64.size / 2) i

/-- The number that is no integer of 128 bits, or the string. -/
def resolveLong (cs : List Char) : Scalar :=
  match if hasLeadingZero cs then none else number? cs with
  | some x => .real x
  | none => .string (String.ofList cs)

/-- What a plain scalar stands for, unless it is refused. -/
def resolve (cs : List Char) : Option Scalar :=
  if cs.isEmpty || isNull cs then some .null
  else match bool? cs, integer? cs with
    | some b, _ => some (.bool b)
    | none, some i =>
      if isShort i then some (.int i) else if isLong i then none else some (resolveLong cs)
    | none, none => some (resolveLong cs)

end HeaderFlow.Document.Plain
