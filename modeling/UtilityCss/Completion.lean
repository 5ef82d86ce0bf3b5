import UtilityCss.Design

/-!
# Completions

What an editor can offer: the classes that the tables and the theme can form, and
the variants. Both follow from the tables and the theme alone; nothing is compiled.

* `Design.classOffers`: every class with its modifiers, each name once, in order;
* `Design.variantOffers`: every variant, in cascade order.
-/

namespace UtilityCss

/-- A class to offer, and the modifiers that it can take. -/
structure ClassOffer where
  name : Text
  modifiers : List Text
  deriving DecidableEq, Repr

/-- A variant to offer. -/
structure VariantOffer where
  name : Text
  /-- Whether a bracketed argument can follow. -/
  isArbitrary : Bool
  /-- The arguments known by name. -/
  values : List Text
  /-- Whether a hyphen stands before an argument. -/
  hasDash : Bool
  deriving DecidableEq, Repr

/-- The percentages that are offered. -/
def offeredPercentages : List Text :=
  (List.range 21).map fun n => Text.ofNat (5 * n)

/-- The fractions that are offered. -/
def offeredFractions : List Text :=
  ["1/2", "1/3", "2/3", "1/4", "2/4", "3/4"]

namespace UtilityRule

/-- The keys of a namespace that the rule knows, in the order of the theme. -/
def keysUnder (rule : UtilityRule) (theme : Theme) (nameSpace : Text) : List Text :=
  (theme.keysUnder nameSpace).filter fun key => !rule.ignores (Theme.variableName nameSpace key)

/-- The keys that the rule knows from the theme, namespace by namespace. -/
def themeKeys (rule : UtilityRule) (theme : Theme) : List Text :=
  rule.namespaces.flatMap (rule.keysUnder theme)

/-- The values to offer for a rule. -/
def offeredValues (rule : UtilityRule) (theme : Theme) : List Text :=
  rule.keywords.keys ++ rule.themeKeys theme
    ++ (if rule.bare.contains .fraction then offeredFractions else [])
    ++ (if rule.bare.contains .percentage then offeredPercentages else [])

/-- The classes to offer for a rule of the utility `name`. Keywords have no negative
    form. -/
def offeredClasses (rule : UtilityRule) (theme : Theme) (name : Text) (signed : Bool) :
    List ClassOffer :=
  let modifiers := if rule.color then offeredPercentages else []
  (rule.offeredValues theme).flatMap fun value =>
    let positive := name ++ '-' :: value
    if signed && !rule.keywords.contains value then
      [⟨positive, modifiers⟩, ⟨'-' :: positive, modifiers⟩]
    else [⟨positive, modifiers⟩]

end UtilityRule

namespace Utility

/-- The classes to offer for a utility. -/
def offeredClasses (theme : Theme) : Utility → List ClassOffer
  | static name _ => [⟨name, []⟩]
  | dynamic name rules default signed =>
    (if default.isSome then [⟨name, []⟩] else [])
      ++ rules.flatMap fun rule => rule.offeredClasses theme name signed

end Utility

namespace Design

/-- Every class to offer. Of several entries with one name the first stays. -/
def classOffers (d : Design) : List ClassOffer :=
  (d.utilities.entries.flatMap fun e => e.utility.offeredClasses d.theme).eraseDupsBy
    fun a b => a.name == b.name

/-- The names of the fixed variants that may stand inside a compound root. -/
def compoundable (d : Design) : List Text :=
  d.variants.definitions.filterMap fun definition =>
    match definition.behavior with
    | .fixed _ true => some definition.name
    | _ => none

/-- Every variant to offer. -/
def variantOffers (d : Design) : List VariantOffer :=
  d.variants.definitions.map fun definition =>
    let hasDash := definition.name ≠ ['@']
    match definition.behavior with
    | .fixed _ _ => ⟨definition.name, false, [], hasDash⟩
    | .functional _ values => ⟨definition.name, true, values, hasDash⟩
    | .compound root => ⟨definition.name, root.takesSelector, d.compoundable, hasDash⟩

end Design

end UtilityCss
