/-!
# Ranges of characters

A property of characters is kept as the increasing list of the ranges that have it, each with
its first and last code point.
-/

namespace CommandLanguage.Text

/-- Whether the code point of `c` lies in one of the ranges. -/
def inRanges (ranges : List (Nat × Nat)) (c : Char) : Bool :=
  ranges.any fun r => r.1 ≤ c.toNat && c.toNat ≤ r.2

end CommandLanguage.Text
