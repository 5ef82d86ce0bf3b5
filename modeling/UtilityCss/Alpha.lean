import UtilityCss.Candidate.Basic
import UtilityCss.Decimal.Binary64
import UtilityCss.Decimal.Fixed
import UtilityCss.Text.Blank
import UtilityCss.Text.Numeral
import UtilityCss.Theme.Basic

/-!
# Alpha

The modifier of a color says how much of its opacity it keeps.

* `Modifier.alpha?`: the alpha that a modifier stands for. A named one is looked up
  among the variables `--opacity-…`, and else is a percentage up to 100 in steps of
  a quarter. A bracketed number is a fraction of one, and any other bracketed text
  stands for itself.
* `faded`: a color mixed with transparent, unless the alpha is full.

Numbers are compared and multiplied as binary floating-point numbers, so a numeral
is first rounded to one.
-/

namespace UtilityCss

namespace Numeral

/-- The floating-point number nearest to a numeral, unless it is too large. -/
def toBinary64? (n : Numeral) : Option Binary64 :=
  Binary64.round? n.digits n.scale

end Numeral

/-- A number as a percentage with up to four places. -/
def percentText (x : Binary64) : Text :=
  shortFixedText 4 x.units Binary64.one ++ ['%']

/-- A fraction of one as a percentage, unless it is too large. -/
def fractionAsPercent? (n : Numeral) : Option Text :=
  (n.toBinary64?.bind (·.scale? 100)).map percentText

/-- Whether a numeral is at most 100 and a multiple of a quarter, after rounding. -/
def isAlphaStep (n : Numeral) : Bool :=
  n.toBinary64?.any fun x =>
    x.units ≤ 100 * Binary64.one && 4 * x.units % Binary64.one = 0

namespace Modifier

/-- The alpha that a modifier stands for. -/
def alpha? (t : Theme) : Modifier → Option Text
  | arbitrary value =>
    match Numeral.ofText? value with
    | some n => fractionAsPercent? n
    | none => some value
  | named value =>
    match t.get? (Theme.variableName "--opacity" value) with
    | some alpha => some alpha
    | none => if (Numeral.ofText? value).any isAlphaStep then some (value ++ ['%']) else none

end Modifier

/-- Whether an alpha is full: the number one, or one hundred percent. -/
def isOpaque (alpha : Text) : Bool :=
  let (number, whole) := if alpha.endsWith "%" then (alpha.dropLast, 100) else (alpha, 1)
  ((Numeral.ofText? number).bind Numeral.toBinary64?).any (·.units = whole * Binary64.one)

/-- A color that keeps `alpha` of its opacity. -/
def faded (colorSpace value alpha : Text) : Text :=
  if isOpaque (Text.strip alpha) then value
  else Text.join [] ["color-mix(in ", colorSpace, ", ", value, " ", alpha, ", transparent)"]

end UtilityCss
