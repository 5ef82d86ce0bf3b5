import UtilityCss.Cascade.NaturalOrder
import UtilityCss.Compilation.Basic

/-!
# Cascade order

The rules of several classes come in the order of their *keys*. A class with fewer
variants comes first. Then decide, one after the other: the variants from the
outermost on, each by its place in the table and its argument; the utility; the
value; the sign, with negative values behind; the modifier; the importance; and at
last the class itself, so that no two classes have the same key.

* `Variant.cascadeKey`: what a variant contributes;
* `Candidate.cascadeKey`: the key of a candidate;
* `CascadeKey.compare`: the order of two keys;
* `ranked`: classes with their ranks.
-/

namespace UtilityCss

/-- What a variant contributes to a key: its place, and its argument. -/
abbrev VariantKey := Nat × Chunks

/-- What the rule of a class is ordered by. -/
structure CascadeKey where
  variants : List VariantKey
  utility : Nat
  value : Chunks
  negative : Bool
  modifier : Chunks
  important : Bool
  raw : Text
  deriving DecidableEq, Repr

namespace Leaf

/-- The place of a leaf in cascade order; bracketed selectors come after all names. -/
def order (table : VariantTable) : Leaf → Nat
  | named atom => table.order atom.name
  | arbitrary _ => table.size

/-- The argument and the modifier of a leaf, as written, or the bracketed selector. -/
def detail : Leaf → Text
  | named (.static _) => []
  | named (.functional _ argument modifier) => argument.render ++ renderModifier modifier
  | arbitrary selector => selector

end Leaf

/-- A number with zeros in front to at least six digits. -/
def sixDigits (n : Nat) : Text :=
  let digits := Text.ofNat n
  List.replicate (6 - digits.length) '0' ++ digits

namespace Variant

/-- What a variant contributes to a key. A chain is placed by its outermost root, then
    by its leaf. -/
def cascadeKey (table : VariantTable) (v : Variant) : VariantKey :=
  match v.outers with
  | [] => (v.leaf.order table, Text.chunks v.leaf.detail)
  | outer :: _ =>
    -- The place of the leaf stands in front, so it decides before the spelling does.
    (table.order outer.name, Text.chunks (sixDigits (v.leaf.order table) ++ ':' :: v.render))

end Variant

namespace Value

/-- The text that a value is ordered by: the fraction if there is one, and brackets
    around a bracketed value. -/
def orderText : Value → Text
  | named value fraction => (fraction.filter (!·.isEmpty)).getD value
  | arbitrary value _ => Text.join [] ["[", value, "]"]

end Value

namespace Candidate

/-- The key of a candidate whose declarations come from `source`. -/
def cascadeKey (d : Design) (source : Source) (c : Candidate) : CascadeKey where
  variants := c.variants.map (Variant.cascadeKey d.variants)
  utility := source.order d.utilities
  value := Text.chunks (c.value.elim [] Value.orderText)
  negative := c.negative
  modifier := Text.chunks (c.modifier.elim [] Modifier.text)
  important := c.important
  raw := c.raw

end Candidate

namespace CascadeKey

/-- The order of the contributions of two variants. -/
def compareVariants (a b : VariantKey) : Ordering :=
  compareLex (compareOn (·.1)) (fun a b => Chunks.compare a.2 b.2) a b

/-- The order of two keys. -/
def compare (a b : CascadeKey) : Ordering :=
  compareLex (compareOn (·.variants.length)) (compareLex
    (fun a b => List.compareLex compareVariants a.variants b.variants) (compareLex
    (compareOn (·.utility)) (compareLex
    (fun a b => Chunks.compare a.value b.value) (compareLex
    (compareOn (·.negative)) (compareLex
    (fun a b => Chunks.compare a.modifier b.modifier) (compareLex
    (compareOn (·.important))
    (fun a b => compareTexts a.raw b.raw))))))) a b

/-- Whether a key comes before another, or is the same. -/
def le (a b : CascadeKey) : Bool :=
  (compare a b).isLE

end CascadeKey

/-- A class with its key. -/
abbrev KeyedClass := Text × CascadeKey

/-- Classes in the order of their keys. -/
def inCascadeOrder (keyed : List KeyedClass) : List Text :=
  (keyed.mergeSort fun a b => a.2.le b.2).map Prod.fst

/-- Each class with its place among the keyed ones, if it is one of them. -/
def ranked (keyed : List KeyedClass) (classes : List Text) : List (Text × Option Nat) :=
  let inOrder := inCascadeOrder keyed
  classes.map fun raw => (raw, inOrder.idxOf? raw)

end UtilityCss
