import UtilityCss.Text.Basic

/-!
# Ranges of characters

A property of characters that a standard gives by a table is kept as a list of
ranges of code points. `CharRange.anyHolds` looks a character up.
-/

namespace UtilityCss

/-- The code points from `first` to `last`, both included. -/
structure CharRange where
  first : Nat
  last : Nat
  deriving DecidableEq, Repr

namespace CharRange

/-- Whether a character lies in the range. -/
def holds (r : CharRange) (c : Char) : Bool :=
  r.first ≤ c.toNat && c.toNat ≤ r.last

/-- Whether a character lies in one of the ranges. -/
def anyHolds (ranges : List CharRange) (c : Char) : Bool :=
  ranges.any (·.holds c)

end CharRange

end UtilityCss
