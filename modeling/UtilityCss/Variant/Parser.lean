import UtilityCss.Bracket.Nesting
import UtilityCss.Bracket.Root
import UtilityCss.Bracket.Value
import UtilityCss.Settings
import UtilityCss.Text.Name
import UtilityCss.Variant.Table

/-!
# Reading variants

A segment in front of a colon is a variant when it has one of these forms.

* `[selector]` or `[@at-rule params]`;
* the name of a fixed variant;
* the name of a functional variant, a hyphen, and a key or a bracketed argument,
  possibly with a modifier behind a slash;
* the name of a compound root, a hyphen, and a variant or a bracketed selector.
  Only the outermost root of a chain may have a group name behind a slash.

`Variant.ofText?` takes off one compound root after the other, as many as the
settings allow. The longest name that leads to a variant wins at each step.
-/

namespace UtilityCss

/-- The name of an at-rule and its parameters. -/
def splitAtRule (selector : Text) : Text × Text :=
  let name := selector.takeWhile fun c => !isBlank c && c ≠ '('
  (name, Text.strip (selector.drop name.length))

/-- The decoded form of a bracketed text, unless it is empty. -/
def decodeNonempty? (s : Text) : Option Text :=
  s.decode?.filter (!·.isEmpty)

namespace Leaf

/-- The variant of a bracketed selector. It holds no character that could end a
    block, and an at-rule must be a conditional one with parameters. -/
def ofSelector? (content : Text) : Option Leaf :=
  match decodeNonempty? content with
  | none => none
  | some selector =>
    if selector.any ['\x7b', '\x7d', ';'].contains then none
    else if selector.head? = some '@' then
      let (name, params) := splitAtRule selector
      if conditionalAtRules.contains name && !params.isEmpty then some (.arbitrary selector)
      else none
    else some (.arbitrary selector)

end Leaf

namespace Argument

/-- The argument that a text after the hyphen stands for. -/
def ofText? (s : Text) : Option Argument :=
  if s.head? = some '[' then
    if s.endsWith "]" then (decodeNonempty? s.inner).map arbitrary else none
  else if s.isKey then some (key s)
  else none

end Argument

namespace Variant

/-- What one step of reading a variant finds: a leaf, or a compound root with the
    text of the variant inside it. -/
inductive Step where
  | leaf (leaf : Leaf)
  | compound (outer : Atom) (rest : Text)
  deriving DecidableEq, Repr

/-- The step for a name, the text of its value, and a modifier. -/
def stepAt? (table : VariantTable) (modifier : Option Text) (root value : Text) : Option Step :=
  if value.isEmpty then none
  else match table.behavior? root with
    | none => none
    | some (.fixed _ _) => none
    | some (.functional _ _) =>
      (Argument.ofText? value).map fun argument =>
        .leaf (.named (.functional root argument modifier))
    | some (.compound _) =>
      -- A bracketed selector cannot hold a further variant, so the chain ends with it.
      if value.head? = some '[' then
        (Argument.ofText? value).map fun argument =>
          .leaf (.named (.functional root argument modifier))
      else some (.compound (match modifier with
        | none => .static root
        | some group => .functional root (.identifier group) none) value)

/-- Whether a name is that of a fixed variant. -/
def isFixed (table : VariantTable) (name : Text) : Bool :=
  match table.behavior? name with
  | some (.fixed _ _) => true
  | _ => false

/-- The step for a name with its value in one text, and a modifier. -/
def stepOf? (table : VariantTable) (base : Text) (modifier : Option Text) : Option Step :=
  if modifier.isNone && isFixed table base then some (.leaf (.named (.static base)))
  else (base.rootSplits table.contains).findSome? fun (root, value) =>
    stepAt? table modifier root value

/-- One step of reading a variant. -/
def step? (table : VariantTable) (outermost : Bool) (s : Text) : Option Step :=
  if s.head? = some '[' && s.endsWith "]" then (Leaf.ofSelector? s.inner).map .leaf
  else match s.segments '/' with
    | [base] => if base.isEmpty then none else stepOf? table base none
    | [base, modifier] =>
      if base.isEmpty || !modifier.isIdentifier || !outermost then none
      else stepOf? table base (some modifier)
    | _ => none

/-- Reads a variant in at most so many steps. -/
def chainOf? (table : VariantTable) : Nat → Bool → Text → Option Variant
  | 0, _, _ => none
  | steps + 1, outermost, s =>
    match step? table outermost s with
    | none => none
    | some (.leaf leaf) => some (ofLeaf leaf)
    | some (.compound outer rest) => (chainOf? table steps false rest).map (inside outer)

/-- Reads a segment as a variant. -/
def ofText? (table : VariantTable) (settings : Settings) (s : Text) : Option Variant :=
  if s.isEmpty || !s.isBalanced settings.maxOpenGroups then none
  else chainOf? table (settings.maxCompoundRoots + 1).toNat true s

end Variant

end UtilityCss
