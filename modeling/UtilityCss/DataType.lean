import UtilityCss.Text.Case
import UtilityCss.Text.Digit

/-!
# Data types

The kind of CSS value that a bracketed value is, as far as its spelling shows it.

* `Text.spellsColor` and its neighbors: one test for each data type;
* `DataType.ofName?`: the data types by name;
* `Text.dataTypeAmong?`: the first of some data types that a value satisfies. A value
  that begins with `var(` could be anything, and satisfies none.

The tests for numbers, lengths and hexadecimal colors overlook a line break at the
end. Units and keywords are compared without regard to case.
-/

namespace UtilityCss

/-- A kind of CSS value. -/
inductive DataType where
  | color
  | length
  | percentage
  | number
  | integer
  | url
  | image
  | familyName
  deriving DecidableEq, Repr

/-- The text after a sign, if there is one, else the whole text. -/
def afterSign : Text → Text
  | [] => []
  | c :: rest => if c = '+' ∨ c = '-' then rest else c :: rest

/-- The text after an exponent such as `e-3`, if there is one, else the whole text. -/
def afterExponent : Text → Text
  | [] => []
  | c :: rest =>
    let digits := afterSign rest
    if lowered c = 'e' && digits.head?.any isDecimal then digits.dropWhile isDecimal
    else c :: rest

/-- The text after the digits of a number. There are digits before the point or
    after it. -/
def afterMantissa? (s : Text) : Option Text :=
  let rest := s.dropWhile isDecimal
  match rest with
  | '.' :: places =>
    if s.head? = some '.' && !places.head?.any isDecimal then none
    else some (places.dropWhile isDecimal)
  | _ => if s.head?.any isDecimal then some rest else none

/-- The text after a number with sign and exponent. -/
def afterNumber? (s : Text) : Option Text :=
  (afterMantissa? (afterSign s)).map afterExponent

/-- The units of length. -/
def lengthUnits : List String :=
  ["px", "rem", "em", "ex", "ch", "cap", "ic", "lh", "rlh", "vw", "vh", "vi", "vb", "vmin", "vmax",
    "svw", "svh", "lvw", "lvh", "dvw", "dvh", "cqw", "cqh", "cqi", "cqb", "cqmin", "cqmax", "cm",
    "mm", "q", "in", "pt", "pc"]

/-- How values begin that compute a length. -/
def mathFunctions : List String :=
  ["calc(", "min(", "max(", "clamp("]

/-- How values begin that compute a color. -/
def colorFunctions : List String :=
  ["rgb(", "rgba(", "hsl(", "hsla(", "hwb(", "lab(", "lch(", "oklab(", "oklch(", "color(",
    "color-mix(", "light-dark("]

/-- How values begin that compute an image. -/
def imageFunctions : List String :=
  ["linear-gradient(", "radial-gradient(", "conic-gradient(", "repeating-linear-gradient(",
    "repeating-radial-gradient(", "repeating-conic-gradient(", "image-set(", "cross-fade("]

/-- The keywords that name a color. -/
def colorNames : List String :=
  ["transparent", "currentcolor", "black", "white", "red", "green", "blue", "yellow", "orange",
    "purple", "pink", "gray", "grey", "silver", "maroon", "olive", "lime", "teal", "navy",
    "fuchsia", "aqua", "cyan", "magenta", "brown", "gold", "indigo", "violet", "coral", "salmon",
    "tomato", "crimson", "rebeccapurple"]

namespace Text

/-- Whether a text begins with one of some words, without regard to case. -/
def startsWithAny (words : List String) (s : Text) : Bool :=
  words.any fun word => (lower s).startsWith word

/-- Whether a character is a hexadecimal digit. -/
def isHexDigit (c : Char) : Bool :=
  c.isDigit || ('a' ≤ c.toLower && c.toLower ≤ 'f')

/-- Whether a text is a color in hexadecimal: three, four, six or eight digits. -/
def spellsHexColor (s : Text) : Bool :=
  match s.dropFinalNewline with
  | '#' :: digits => [3, 4, 6, 8].contains digits.length && digits.all isHexDigit
  | _ => false

/-- Whether a value is spelled as a color. -/
def spellsColor (s : Text) : Bool :=
  spellsHexColor s || colorNames.any (fun name => lower s = name.toList)
    || startsWithAny colorFunctions s

/-- Whether a value is spelled as a length. -/
def spellsLength (s : Text) : Bool :=
  s = ['0']
    || (afterNumber? s.dropFinalNewline).any
      (fun unit => lengthUnits.any fun known => fold unit = known.toList)
    || startsWithAny mathFunctions s

/-- Whether a value is spelled as a percentage. -/
def spellsPercentage (s : Text) : Bool :=
  afterNumber? s.dropFinalNewline = some ['%']

/-- Whether a value is spelled as a number. -/
def spellsNumber (s : Text) : Bool :=
  afterNumber? s.dropFinalNewline = some []

/-- Whether a value is spelled as an integer. -/
def spellsInteger (s : Text) : Bool :=
  let digits := afterSign s.dropFinalNewline
  !digits.isEmpty && digits.all isDecimal

/-- Whether a value is spelled as the address of a resource. -/
def spellsUrl (s : Text) : Bool :=
  startsWithAny ["url("] s

/-- Whether a value is spelled as an image. -/
def spellsImage (s : Text) : Bool :=
  spellsUrl s || startsWithAny imageFunctions s

/-- Whether a value is spelled as a name of a font family, or as several. -/
def spellsFamilyName (s : Text) : Bool :=
  s.head?.any (fun c => c = '\'' || c = '"') || s.contains ','

end Text

namespace DataType

/-- The data types with their names. -/
def named : List (Text × DataType) :=
  [("color", color), ("length", length), ("percentage", percentage), ("number", number),
    ("integer", integer), ("url", url), ("image", image), ("family-name", familyName)]

/-- The data type with a name. -/
def ofName? (name : Text) : Option DataType :=
  named.lookup name

/-- Whether a value is spelled as a data type asks. -/
def admits : DataType → Text → Bool
  | color => Text.spellsColor
  | length => Text.spellsLength
  | percentage => Text.spellsPercentage
  | number => Text.spellsNumber
  | integer => Text.spellsInteger
  | url => Text.spellsUrl
  | image => Text.spellsImage
  | familyName => Text.spellsFamilyName

end DataType

/-- The first of `types` that a value satisfies. Unknown names are passed over. -/
def Text.dataTypeAmong? (value : Text) (types : List Text) : Option Text :=
  if value.startsWith "var(" then none
  else types.find? fun name => (DataType.ofName? name).any (·.admits value)

end UtilityCss
