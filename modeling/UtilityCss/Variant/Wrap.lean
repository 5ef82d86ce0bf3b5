import UtilityCss.DataType
import UtilityCss.Stylesheet.Identifier
import UtilityCss.Text.Blank
import UtilityCss.Theme.Basic
import UtilityCss.Variant.Basic

/-!
# Wraps

What a variant does to a rule: a *wrap* either changes the selector, by a template
in which `&` stands for the old one, or puts an at-rule around the rule. A table of
variants may make wraps in any way. Those of the stock variants come from three
sources.

* `Query.wrap?`: a functional variant asks for something by its argument, such
  as an attribute, a position among siblings, or the size of the viewport;
* `Relation.compound?`: a compound root turns the wrap of the variant inside it
  into one for a related element, or into its negation;
* `Relation.arbitrary?`: the same for a bracketed selector.
-/

namespace UtilityCss

/-- What a variant does to a rule. -/
inductive Wrap where
  /-- The selector becomes `template` with the old selector for `&`. -/
  | selector (template : Text)
  /-- The rule goes inside an at-rule. -/
  | atRule (name params : Text)
  deriving DecidableEq, Repr

/-- Whether a text holds the placeholder of a template. -/
def hasPlaceholder (s : Text) : Bool :=
  s.contains '&'

/-- A query for a size, of the viewport or of a container. -/
structure SizeQuery where
  /-- The theme that gives the named sizes. -/
  theme : Theme
  nameSpace : Text
  atRule : Text
  operator : Text
  /-- Whether a modifier may name the container. -/
  takesName : Bool

/-- What a functional variant of the stock asks for. -/
inductive Query where
  /-- A state among the `aria-` attributes. -/
  | aria
  /-- A `data-` attribute. -/
  | data
  /-- A position among the siblings. -/
  | position (pseudoClass : Text)
  /-- A feature of the browser. -/
  | supports
  | size (query : SizeQuery)

/-- How a compound root of the stock relates the element of the inner variant to its
    own. -/
inductive Relation where
  /-- The inner variant does not hold. -/
  | negation
  /-- The inner variant holds of the element that carries the class `name`, which
      stands before `combinator`. -/
  | marked (name combinator : Text)
  /-- The inner variant holds of an element inside. -/
  | containing
  /-- The inner variant holds of an element around. -/
  | within
  deriving DecidableEq, Repr

/-- The states that `aria` knows by name. -/
def ariaStates : List Text :=
  ["busy", "checked", "disabled", "expanded", "hidden", "pressed", "readonly", "required",
    "selected"]

/-- The at-rules with a condition. -/
def conditionalAtRules : List Text :=
  ["@media", "@supports", "@container"]

/-- How the conditions of `@supports` begin that need no declaration in brackets. -/
def supportsFunctions : List Text :=
  ["(", "selector(", "font-tech(", "font-format("]

namespace SizeQuery

/-- The size that an argument stands for: a named one of the theme, or a length or
    percentage. -/
def size? (q : SizeQuery) : Argument → Option Text
  | .key value => q.theme.valueFor? value [q.nameSpace]
  | .arbitrary value =>
    if (Text.dataTypeAmong? value ["length", "percentage"]).isSome then some value else none
  | .identifier _ => none

/-- The at-rule for a size, of the container with the name that the modifier gives. -/
def wrap? (q : SizeQuery) (argument : Argument) (modifier : Option Text) : Option Wrap :=
  if modifier.isSome && !q.takesName then none
  else (q.size? argument).map fun size =>
    let condition := Text.join [] ["(width ", q.operator, " ", size, ")"]
    .atRule q.atRule (match modifier with
      | none => condition
      | some name => name ++ ' ' :: condition)

end SizeQuery

/-- The condition of `@supports` for the text of an argument. -/
def supportsCondition (value : Text) : Text :=
  if supportsFunctions.any value.startsWith then value
  else if value.contains ':' then Text.join [] ["(", value, ")"]
  else Text.join [] ["(", value, ": var(--tw))"]

namespace Query

/-- The wrap for an argument and a modifier. Only sizes make use of a modifier; the
    others refuse it. -/
def wrap? : Query → Argument → Option Text → Option Wrap
  | aria, .key value, none =>
    if ariaStates.contains value then
      some (.selector (Text.join [] ["&[aria-", value, "=\"true\"]"]))
    else none
  | aria, .arbitrary value, none => some (.selector (Text.join [] ["&[aria-", value, "]"]))
  | data, .key value, none => some (.selector (Text.join [] ["&[data-", value, "]"]))
  | data, .arbitrary value, none => some (.selector (Text.join [] ["&[data-", value, "]"]))
  | position pseudoClass, .key value, none =>
    if !value.isEmpty && value.all isDigitSign then
      some (.selector (Text.join [] ["&:", pseudoClass, "(", value, ")"]))
    else none
  | position pseudoClass, .arbitrary value, none =>
    some (.selector (Text.join [] ["&:", pseudoClass, "(", value, ")"]))
  | supports, .key value, none => some (.atRule "@supports" (supportsCondition value))
  | supports, .arbitrary value, none => some (.atRule "@supports" (supportsCondition value))
  | size query, argument, modifier => query.wrap? argument modifier
  | _, _, _ => none

end Query

/-- The negation of the condition of an at-rule. A name in front stays there. -/
def negateCondition (params : Text) : Text :=
  if params.startsWith "not " then params.drop 4
  else
    let head := Text.strip (params.takeWhile (· ≠ '('))
    match params.dropWhile (· ≠ '(') with
    -- What stands before the condition is the name of a container.
    | _ :: condition =>
      if head.isEmpty then "not ".toList ++ params
      else Text.join [] [head, " not (", condition]
    | [] => "not ".toList ++ params

namespace Relation

/-- The selector for the element that carries the class of a group. -/
def groupSelector (name : Text) (modifier : Option Text) : Text :=
  Text.join [] [":where(.", Text.escapeIdentifier (name ++ renderModifier modifier), ")"]

/-- A selector with every `&` replaced by the universal selector. -/
def universal (selector : Text) : Text :=
  selector.substitute '&' ['*']

/-- The wrap of a compound root around the wrap of the variant inside it. -/
def compound? : Relation → Wrap → Option Text → Option Wrap
  | negation, .selector template, none =>
    some (.selector (Text.join [] ["&:not(", universal template, ")"]))
  | negation, .atRule name params, none =>
    if conditionalAtRules.contains name then some (.atRule name (negateCondition params)) else none
  | marked name combinator, .selector template, modifier =>
    let inner := template.substitute '&' (groupSelector name modifier)
    some (.selector (Text.join [] ["&:is(", inner, combinator, ")"]))
  | containing, .selector template, none =>
    some (.selector (Text.join [] ["&:has(", universal template, ")"]))
  | within, .selector template, none =>
    some (.selector (Text.join [] [":where(", universal template, ") &"]))
  | _, _, _ => none

/-- The wrap of a compound root around a bracketed selector. -/
def arbitrary? : Relation → Text → Option Text → Option Wrap
  | negation, selector, none =>
    some (.selector (Text.join [] ["&:not(", universal selector, ")"]))
  | marked name combinator, selector, modifier =>
    let group := groupSelector name modifier
    let inner := if hasPlaceholder selector then selector.substitute '&' group
      else Text.join [] [group, ":is(", selector, ")"]
    some (.selector (Text.join [] ["&:is(", inner, combinator, ")"]))
  | containing, selector, none =>
    some (.selector (Text.join [] ["&:has(", universal selector, ")"]))
  | within, selector, none =>
    some (.selector (Text.join [] [":where(", universal selector, ") &"]))
  | _, _, _ => none

end Relation

end UtilityCss
