import UtilityCss.OrderedMap
import UtilityCss.Utility.Template

/-!
# Utilities

A utility is what a class names: a *static* one always declares the same, a
*dynamic* one turns a value into declarations by the first of its rules that knows
the value.

* `UtilityRule`: the keywords, namespaces, bare forms and data types that a rule
  knows, and the properties that it declares;
* `Utility`: the utilities themselves.
-/

namespace UtilityCss

/-- A form of value that needs no entry in the theme. -/
inductive BareForm where
  | integer
  | number
  | percentage
  /-- A multiple of the spacing unit. -/
  | spacing
  | fraction
  deriving DecidableEq, Repr

/-- One way in which a dynamic utility turns a value into declarations. -/
structure UtilityRule where
  properties : List Text
  /-- The namespaces of the theme that values are looked up in. -/
  namespaces : List Text
  keywords : OrderedMap Text
  bare : List BareForm
  /-- What becomes of a value in a bare form other than a fraction. -/
  template : Template
  /-- The data types of bracketed values that the rule takes. -/
  dataTypes : List Text
  /-- Whether the rule takes bracketed values of no known type. -/
  fallback : Bool
  /-- Whether the value is a color. -/
  color : Bool
  /-- Further properties, each with the ending of the nested variable for it. -/
  companions : List (Text × Text)
  /-- Nested namespaces whose variables the rule passes over. -/
  ignored : List Text

/-- A utility. -/
inductive Utility where
  /-- The same declarations always. -/
  | static (name : Text) (declarations : List (Text × Text))
  /-- Declarations by value. `default` is the value of the bare name. -/
  | dynamic (name : Text) (rules : List UtilityRule) (default : Option Text)
      (signed : Bool)

namespace BareForm

/-- The forms with their names. -/
def named : List (Text × BareForm) :=
  [("integer", integer), ("number", number), ("percentage", percentage), ("spacing", spacing),
    ("fraction", fraction)]

/-- The form with a name. -/
def ofName? (name : Text) : Option BareForm :=
  named.lookup name

end BareForm

namespace UtilityRule

/-- The rule that declares some properties and knows no value. -/
def ofProperties (properties : List Text) : UtilityRule where
  properties
  namespaces := []
  keywords := .empty
  bare := []
  template := .hole
  dataTypes := []
  fallback := false
  color := false
  companions := []
  ignored := []

/-- Whether a variable of the theme lies in a nested namespace that is passed over. -/
def ignores (rule : UtilityRule) (name : Text) : Bool :=
  rule.ignored.any fun nested => name.startsWith (nested ++ ['-'])

end UtilityRule

namespace Utility

/-- The name of a utility. -/
def name : Utility → Text
  | static name _ => name
  | dynamic name _ _ _ => name

/-- Whether a utility can take a value. -/
def takesValue : Utility → Bool
  | static _ _ => false
  | dynamic _ _ _ _ => true

/-- Whether a utility can stand without a value. -/
def standsBare : Utility → Bool
  | static _ _ => true
  | dynamic _ _ default _ => default.isSome

/-- The data types that some rules take, each once, in order. -/
def dataTypesOf (rules : List UtilityRule) : List Text :=
  (rules.flatMap (·.dataTypes)).eraseDups

end Utility

end UtilityCss
