import UtilityCss.Variant.Parser

/-!
# Resolving variants

A variant applies through one wrap. The leaf gives the first one, and each compound
root around it, from the innermost on, makes a new one of it. A leaf may refuse to
stand inside a compound root.

* `Variant.wrap?`: the wrap of a variant, if it applies at all.
-/

namespace UtilityCss

/-- A wrap, and whether a compound root may stand around it. -/
abbrev LeafWrap := Wrap × Bool

namespace Wrap

/-- Whether a wrap changes the selector. -/
def isSelector : Wrap → Bool
  | selector _ => true
  | atRule _ _ => false

end Wrap

namespace Leaf

/-- The wrap of a bracketed selector or at-rule. A selector without `&` is taken as
    a condition on the element itself. -/
def wrapOfSelector (selector : Text) : LeafWrap :=
  if selector.head? = some '@' then
    let (name, params) := splitAtRule selector
    (.atRule name params, false)
  else if hasPlaceholder selector then (.selector selector, true)
  else (.selector (Text.join [] ["&:is(", selector, ")"]), true)

/-- The wrap of a name with an argument. -/
def wrapOfArgument? (table : VariantTable) (name : Text) (argument : Argument)
    (modifier : Option Text) : Option Wrap :=
  match table.behavior? name, argument with
  | some (.functional wrap? _), _ => wrap? argument modifier
  | some (.compound root), .arbitrary selector => root.arbitrary? selector modifier
  | _, _ => none

/-- The wrap of a leaf. -/
def wrap? (table : VariantTable) : Leaf → Option LeafWrap
  | arbitrary selector => some (wrapOfSelector selector)
  | named (.static name) =>
    match table.behavior? name with
    | some (.fixed wrap compounds) => some (wrap, compounds)
    | _ => none
  | named (.functional name argument modifier) =>
    (wrapOfArgument? table name argument modifier).map fun wrap => (wrap, wrap.isSelector)

end Leaf

namespace Variant

/-- The wrap of a compound root around a wrap. -/
def compound? (table : VariantTable) (outer : Atom) (wrap : Wrap) : Option Wrap :=
  match table.behavior? outer.name with
  | some (.compound root) => root.compound? wrap outer.groupName?
  | _ => none

/-- The wrap that a variant applies through. -/
def wrap? (table : VariantTable) (v : Variant) : Option Wrap :=
  match v.leaf.wrap? table with
  | none => none
  | some (wrap, compounds) =>
    if compounds || v.outers.isEmpty then
      v.outers.foldr (fun outer inner => inner.bind (compound? table outer)) (some wrap)
    else none

end Variant

end UtilityCss
