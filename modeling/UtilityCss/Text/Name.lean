import UtilityCss.Text.Basic

/-!
# Names

The shapes of the names that a class is made of. All of them are ASCII: letters,
digits, and a few signs.

* `isKey`, `isIdentifier`: arguments and modifiers of variants. A line break at
  their end is overlooked;
* `isNamedValue`: values and modifiers of utilities;
* `isCustomProperty`, `isProperty`: what a declaration may set.
-/

namespace UtilityCss

/-- Whether a character is an ASCII letter or digit. -/
def isAlphanumeric (c : Char) : Bool :=
  c.isAlphanum

/-- Whether a character is an ASCII letter or digit, or one of `signs`. -/
def isAlphanumericOr (signs : List Char) (c : Char) : Bool :=
  isAlphanumeric c || signs.contains c

namespace Text

/-- A letter or digit, then letters, digits, `_`, `.` and `-`. -/
def isKey (s : Text) : Bool :=
  match s.dropFinalNewline with
  | [] => false
  | c :: rest => isAlphanumeric c && rest.all (isAlphanumericOr ['_', '.', '-'])

/-- Letters, digits, `_` and `-`, at least one. -/
def isIdentifier (s : Text) : Bool :=
  let t := s.dropFinalNewline
  !t.isEmpty && t.all (isAlphanumericOr ['_', '-'])

/-- Letters, digits, `_`, `.`, `%` and `-`: the first is a letter or digit, and
    the last a letter, a digit or `%`. -/
def isNamedValue (s : Text) : Bool :=
  match s with
  | [] => false
  | c :: rest =>
    isAlphanumeric c && rest.all (isAlphanumericOr ['_', '.', '%', '-'])
      && rest.getLast?.all (isAlphanumericOr ['%'])

/-- Two hyphens, then letters, digits, `_` and `-`, at least one. -/
def isCustomProperty (s : Text) : Bool :=
  match s with
  | '-' :: '-' :: name => !name.isEmpty && name.all (isAlphanumericOr ['_', '-'])
  | _ => false

/-- A letter, possibly after one hyphen, then letters, digits and `-`. -/
def isPlainProperty (s : Text) : Bool :=
  match (if s.head? = some '-' then s.tail else s) with
  | [] => false
  | c :: rest => c.isAlpha && rest.all (isAlphanumericOr ['-'])

/-- The name of a property that a declaration may set. -/
def isProperty (s : Text) : Bool :=
  isCustomProperty s || isPlainProperty s

end Text

end UtilityCss
