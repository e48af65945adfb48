import Formula.Text.Blank

/-! # Ranges of code points

A property of characters beyond ASCII is given by a list of inclusive ranges.
-/

namespace Formula.Text

/-- Membership in one of the ranges, which all lie at or above U+0080. -/
def inRanges (ranges : List (Nat × Nat)) (c : Char) : Bool :=
  0x80 ≤ c.toNat && ranges.any fun r => r.1 ≤ c.toNat && c.toNat ≤ r.2

end Formula.Text
