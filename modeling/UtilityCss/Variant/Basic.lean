import UtilityCss.Text.Basic

/-!
# Variants

A variant says when a declaration applies: `hover`, `max-md`, `group-hover`,
`[&_p]`. It is a chain of compound roots (`group`, `not`, …), the outermost first,
around one *leaf*. The roots and most leaves are *atoms*: a name, bare or with an
argument.

* `Variant.render`: the segment that a variant is written as.
-/

namespace UtilityCss

/-- What follows the name of an atom. -/
inductive Argument where
  /-- A key, such as `md` in `max-md`. -/
  | key (value : Text)
  /-- The decoded content of brackets, such as `state=open` in `data-[state=open]`. -/
  | arbitrary (value : Text)
  /-- The name of a group, such as `sidebar` in `group-hover/sidebar`. -/
  | identifier (name : Text)
  deriving DecidableEq, Repr

/-- A named part of a variant. -/
inductive Atom where
  | static (name : Text)
  | functional (name : Text) (argument : Argument) (modifier : Option Text)
  deriving DecidableEq, Repr

/-- The innermost part of a variant. -/
inductive Leaf where
  | named (atom : Atom)
  /-- A bracketed selector or at-rule. -/
  | arbitrary (selector : Text)
  deriving DecidableEq, Repr

/-- A leaf inside the compound roots `outers`, of which the first is the outermost. -/
structure Variant where
  outers : List Atom
  leaf : Leaf
  deriving DecidableEq, Repr

namespace Argument

/-- How an argument is written. -/
def render : Argument → Text
  | key value => value
  | arbitrary value => Text.join [] ["[", value, "]"]
  | identifier name => name

end Argument

namespace Atom

/-- The name of an atom. -/
def name : Atom → Text
  | static name => name
  | functional name _ _ => name

/-- The name of the group that an atom refers to, if it does. -/
def groupName? : Atom → Option Text
  | functional _ (.identifier name) _ => some name
  | _ => none

end Atom

/-- A text with its spaces written as underscores. -/
def underscored (s : Text) : Text :=
  s.map fun c => if c = ' ' then '_' else c

/-- A slash and the modifier, if there is one. -/
def renderModifier : Option Text → Text
  | none => []
  | some modifier => '/' :: modifier

namespace Leaf

/-- How a leaf is written. The name `@` is not divided from its argument. -/
def render : Leaf → Text
  | named (.static name) => name
  | named (.functional name argument modifier) =>
    let joint : Text := if name = "@".toList then [] else ['-']
    name ++ joint ++ underscored argument.render ++ renderModifier modifier
  | arbitrary selector => Text.join [] ["[", underscored selector, "]"]

end Leaf

namespace Variant

/-- The variant that is a leaf alone. -/
def ofLeaf (leaf : Leaf) : Variant := ⟨[], leaf⟩

/-- The variant inside one more compound root. -/
def inside (outer : Atom) (v : Variant) : Variant := ⟨outer :: v.outers, v.leaf⟩

/-- The name of the group that the chain refers to: the innermost one counts. -/
def groupName? (v : Variant) : Option Text :=
  v.outers.reverse.findSome? Atom.groupName?

/-- The segment that a variant is written as. -/
def render (v : Variant) : Text :=
  v.outers.flatMap (fun outer => outer.name ++ ['-']) ++ v.leaf.render
    ++ renderModifier v.groupName?

end Variant

end UtilityCss
