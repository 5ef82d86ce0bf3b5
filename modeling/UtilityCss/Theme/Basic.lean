import UtilityCss.OrderedMap

/-!
# Themes

A theme gives values to variables with names such as `--color-red-500`. The
leading part of a name is its *namespace* (`--color`), the remainder its *key*
(`red-500`). A key with a double hyphen is nested: `sm--line-height` belongs to
`sm` and is no key of its own.

* `Theme.variableFor?`: the variable for a key, in the first namespace that has it;
* `Theme.keysUnder`: the keys directly under a namespace, in the order of the theme.
-/

namespace UtilityCss

/-- The values of the variables of a design. -/
structure Theme where
  values : OrderedMap Text

namespace Theme

/-- The value of a variable. -/
def get? (t : Theme) (name : Text) : Option Text :=
  t.values.get? name

/-- Whether a variable has a value. -/
def contains (t : Theme) (name : Text) : Bool :=
  t.values.contains name

/-- The names of all variables, in order. -/
def names (t : Theme) : List Text :=
  t.values.keys

/-- The number of variables. -/
def size (t : Theme) : Nat :=
  t.values.size

/-- The name of the variable for a key in a namespace. -/
def variableName (nameSpace key : Text) : Text :=
  nameSpace ++ '-' :: key

/-- The variable for `key` in the first namespace that has one. -/
def variableFor? (t : Theme) (key : Text) (namespaces : List Text) : Option Text :=
  (namespaces.map (variableName · key)).find? t.contains

/-- The value for `key` in the first namespace that has one. -/
def valueFor? (t : Theme) (key : Text) (namespaces : List Text) : Option Text :=
  (t.variableFor? key namespaces).bind t.get?

/-- The key of a variable that stands directly under a namespace. -/
def keyUnder? (nameSpace name : Text) : Option Text :=
  let start := variableName nameSpace []
  if name.startsWith start then
    let key := name.drop start.length
    if key.isEmpty || Text.hasInside "--" key then none else some key
  else none

/-- The keys directly under a namespace, in order. -/
def keysUnder (t : Theme) (nameSpace : Text) : List Text :=
  t.names.filterMap (keyUnder? nameSpace)

/-- The theme with the variables `removed` taken away and then the values `set`
    given one after the other. -/
def revise (t : Theme) (removed : List Text) (set : List (Text × Text)) : Theme :=
  ⟨set.foldl (fun m p => m.insert p.1 p.2) (removed.foldl OrderedMap.erase t.values)⟩

/-- Whether two themes give every variable the same value, in whatever order. -/
def sameValues (t₁ t₂ : Theme) : Bool :=
  t₁.values.sameEntries t₂.values

/-- A short description: how many variables there are. -/
def describe (t : Theme) : Text :=
  "Theme(values=".toList ++ Text.ofNat t.size ++ ")".toList

end Theme

end UtilityCss
