import UtilityCss.Text.Digit

/-!
# Numerals

A *numeral* is a run of decimal digits, or two such runs with a point between
them. A line break at the end of a text is overlooked, as in all patterns for
numbers.

* `Numeral.ofText?`: reads a numeral, keeping its digits;
* `Numeral.isQuarters`: whether the digits show a multiple of 0.25.
-/

namespace UtilityCss

/-- A decimal numeral: the digits before the point, and those after it. -/
structure Numeral where
  whole : Text
  places : Text
  deriving DecidableEq, Repr

namespace Numeral

/-- Reads a numeral. A point needs digits on both sides. -/
def ofText? (s : Text) : Option Numeral :=
  let t := s.dropFinalNewline
  let whole := t.takeWhile isDecimal
  if whole.isEmpty then none
  else match t.dropWhile isDecimal with
    | [] => some ⟨whole, []⟩
    | c :: places =>
      if c = '.' && !places.isEmpty && places.all isDecimal then some ⟨whole, places⟩ else none

/-- All digits of the numeral as one number. -/
def digits (n : Numeral) : Nat :=
  Text.digitsValue (n.whole ++ n.places)

/-- The power of ten by which `digits` is to be divided. -/
def scale (n : Numeral) : Nat :=
  Nat.pow 10 n.places.length

/-- Whether the digits after the point show a multiple of a quarter. Only ASCII
    digits are taken to show one. -/
def isQuarters (n : Numeral) : Bool :=
  [[], ['2', '5'], ['5'], ['7', '5']].contains (Text.dropEndWhile (· = '0') n.places)

end Numeral

namespace Text

/-- Whether a text is a numeral. -/
def isNumeral (s : Text) : Bool :=
  (Numeral.ofText? s).isSome

/-- Whether a text is a numeral that is a multiple of a quarter. -/
def isQuarterNumeral (s : Text) : Bool :=
  (Numeral.ofText? s).any Numeral.isQuarters

/-- Whether a text consists of decimal digits. -/
def isWholeNumeral (s : Text) : Bool :=
  let t := s.dropFinalNewline
  !t.isEmpty && t.all isDecimal

end Text

end UtilityCss
