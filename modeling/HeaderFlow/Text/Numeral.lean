/-!
# Numerals

Identifiers of nodes are written in base sixteen, lower case, after `0x` and without leading zeros.
-/

namespace HeaderFlow.Text

/-- The base-sixteen numeral of a number. -/
def hex (n : Nat) : String := "0x" ++ String.ofList (Nat.toDigits 16 n)

end HeaderFlow.Text
