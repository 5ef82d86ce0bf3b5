import UtilityCss.Decimal.Rounding
import UtilityCss.Text.Basic

/-!
# Decimals with a fixed number of places

A quotient is written with so many digits after the point, rounded to the nearest
such decimal, and a tie goes to the even digit. The shortened form drops the zeros
at the end, and the point when nothing stands after it.
-/

namespace UtilityCss

/-- A quotient with `places` digits after the point. -/
def fixedText (places num den : Nat) : Text :=
  let scale := Nat.pow 10 places
  let scaled := roundHalfEven (num * scale) den
  let fraction := Text.ofNat (scaled % scale)
  Text.ofNat (scaled / scale) ++ '.' :: List.replicate (places - fraction.length) '0' ++ fraction

/-- A quotient with up to `places` digits after the point, without zeros at the end. -/
def shortFixedText (places num den : Nat) : Text :=
  Text.dropEndWhile (· = '.') (Text.dropEndWhile (· = '0') (fixedText places num den))

end UtilityCss
