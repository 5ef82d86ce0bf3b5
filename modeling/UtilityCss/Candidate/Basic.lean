import UtilityCss.Variant.Basic

/-!
# Candidates

A candidate is a class that was read: the utility it names, a value, a modifier
after a slash, its variants from left to right, and two marks, for importance and
for the sign.
-/

namespace UtilityCss

/-- The value of a utility. -/
inductive Value where
  /-- A key, keyword or number. `fraction` holds value and modifier when both are
      numerals, as in `1/2`. -/
  | named (value : Text) (fraction : Option Text)
  /-- The decoded content of brackets, with the data type written before it. -/
  | arbitrary (value : Text) (dataType : Option Text)
  deriving DecidableEq, Repr

/-- What stands after the slash of a utility. -/
inductive Modifier where
  | named (value : Text)
  | arbitrary (value : Text)
  deriving DecidableEq, Repr

/-- How a candidate names what it declares. -/
inductive CandidateKind where
  /-- A utility without a value. -/
  | static
  /-- A utility with a value. -/
  | functional
  /-- A property and its value in brackets. -/
  | arbitrary
  deriving DecidableEq, Repr

/-- A class that was read. -/
structure Candidate where
  raw : Text
  kind : CandidateKind
  /-- The name of the utility; empty when a property is given. -/
  root : Text
  value : Option Value
  modifier : Option Modifier
  /-- The variants, the outermost first. -/
  variants : List Variant
  important : Bool
  negative : Bool
  property : Option Text
  deriving DecidableEq, Repr

namespace Value

/-- The text of a value without its brackets. -/
def text : Value → Text
  | named value _ => value
  | arbitrary value _ => value

end Value

namespace Modifier

/-- The text of a modifier without its brackets. -/
def text : Modifier → Text
  | named value => value
  | arbitrary value => value

end Modifier

end UtilityCss
