/-!
# Blanks

The characters with the Unicode property *White_Space*, which may stand between the parts of a
written set.
-/

namespace HeaderFlow.Text

/-- The ranges of code points with the property, in increasing order. -/
def blankRanges : List (Nat × Nat) :=
  [(0x09, 0x0d), (0x20, 0x20), (0x85, 0x85), (0xa0, 0xa0), (0x1680, 0x1680), (0x2000, 0x200a),
    (0x2028, 0x2029), (0x202f, 0x202f), (0x205f, 0x205f), (0x3000, 0x3000)]

/-- The character is white space. -/
def isBlank (c : Char) : Bool :=
  blankRanges.any fun (lo, hi) ↦ lo ≤ c.toNat && c.toNat ≤ hi

end HeaderFlow.Text
