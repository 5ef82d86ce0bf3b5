import UtilityCss.Text.Quoted
import UtilityCss.Utility.Template

/-!
# Refusals and faults

Two things may stand between a candidate and its declarations.

* A *refusal* is an ordinary answer: the class gives no CSS, for a reason that is
  told to the user (`Refusal.message`).
* A *fault* breaks the work off: a utility, or a candidate put together by hand, is
  not fit to be compiled. Reading a class gives no such candidate.
-/

namespace UtilityCss

/-- Why a class gives no CSS. -/
inductive Refusal where
  | unparsable
  | unknownUtility (root : Text)
  | takesNoValue (name : Text)
  | requiresValue (name : Text)
  | rejectsDataType (name dataType : Text)
  | rejectsArbitrary (name value : Text)
  | unknownValue (name value : Text)
  | rejectsNegative (name : Text)
  | modifierWithoutColor
  | invalidAlpha (modifier : Text)
  | inapplicableVariant
  deriving DecidableEq, Repr

/-- What breaks the work off. -/
inductive Fault where
  /-- A utility has a default value and no rule to declare it. -/
  | missingRule
  /-- A property has no value. -/
  | missingValue
  /-- A percentage has no digits left besides a line break. -/
  | blankPercentage
  /-- A template cannot be filled. -/
  | template (fault : TemplateFault)
  deriving DecidableEq, Repr

namespace Refusal

/-- The wording of a refusal. -/
def message : Refusal → Text
  | unparsable => "unparsable candidate"
  | unknownUtility root => Text.join [] ["unknown utility '", root, "'"]
  | takesNoValue name => Text.join [] ["'", name, "' takes no value"]
  | requiresValue name => Text.join [] ["'", name, "' requires a value"]
  | rejectsDataType name dataType =>
    Text.join [] ["'", name, "' does not accept ", dataType, " values"]
  | rejectsArbitrary name value =>
    Text.join [] ["'", name, "' cannot use arbitrary value ", value.quoted]
  | unknownValue name value => Text.join [] ["'", name, "' has no value ", value.quoted]
  | rejectsNegative name => Text.join [] ["'", name, "' does not support negative values"]
  | modifierWithoutColor => "modifier used on a utility without a color value"
  | invalidAlpha modifier => "invalid alpha modifier ".toList ++ modifier.quoted
  | inapplicableVariant => "variant cannot be applied to this utility"

end Refusal

/-- What stops the work on a candidate. -/
inductive Stop where
  | refused (reason : Refusal)
  | faulty (fault : Fault)
  deriving DecidableEq, Repr

end UtilityCss
