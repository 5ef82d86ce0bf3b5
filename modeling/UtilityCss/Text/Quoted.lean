import UtilityCss.Text.Printable

/-!
# Quoted texts

How messages show a text: between quotes, with everything that would not show
written as an escape. Single quotes are used, unless the text holds a single
quote and no double quote.

* `Text.quoted`: the shown form;
* `escapeOf`: the shown form of one character.
-/

namespace UtilityCss

/-- A number in hexadecimal, with zeros in front to at least `width` digits. -/
def hexadecimal (width n : Nat) : Text :=
  let digits := Nat.toDigits 16 n
  List.replicate (width - digits.length) '0' ++ digits

/-- A character inside a text that is quoted by `quote`. -/
def escapeOf (quote c : Char) : Text :=
  if c = quote ∨ c = '\\' then ['\\', c]
  else if c = '\n' then "\\n"
  else if c = '\r' then "\\r"
  else if c = '\t' then "\\t"
  else if isPrintable c then [c]
  else if c.toNat < 0x100 then '\\' :: 'x' :: hexadecimal 2 c.toNat
  else if c.toNat < 0x10000 then '\\' :: 'u' :: hexadecimal 4 c.toNat
  else '\\' :: 'U' :: hexadecimal 8 c.toNat

namespace Text

/-- The quote that a text is shown between. -/
def quoteFor (s : Text) : Char :=
  if s.contains '\'' && !s.contains '"' then '"' else '\''

/-- A text as messages show it. -/
def quoted (s : Text) : Text :=
  let quote := quoteFor s
  [quote] ++ s.flatMap (escapeOf quote) ++ [quote]

end Text

end UtilityCss
