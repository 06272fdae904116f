/-!
# Ranges of code points

A character property is stored as the inclusive ranges of the code points that have it.
-/

namespace MacroLang.Text

/-- First and last code point of a range. -/
abbrev CharRange := Nat × Nat

def inRanges (ranges : List CharRange) (c : Char) : Bool :=
  ranges.any fun r => r.1 ≤ c.toNat && c.toNat ≤ r.2

end MacroLang.Text
