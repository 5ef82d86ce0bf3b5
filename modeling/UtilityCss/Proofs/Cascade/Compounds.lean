import UtilityCss.Cascade.Key
import UtilityCss.Proofs.Cascade.NaturalOrder

/-!
# Compound variants go by their leaf

The key of a compound variant is a text: the place of its leaf, filled up with zeros, then a colon
and the variant as written. It is compared in natural order, where the colon ends the run of digits
and zeros in front do not count, so the place is compared as the number that it is. What is written
behind only decides between two variants with leaves at the same place.

* `Chunks.compare_sixDigits`: a number with zeros in front decides before what is written behind it;
* `Variant.compareVariants_inside`: what two compound variants are ordered by;
* `Variant.inside_lt_of_leaf_lt`: inside the same root, the leaf decides.
-/

namespace UtilityCss

/-! ## Numbers with zeros in front -/

theorem isDigits_sixDigits (n : Nat) : (sixDigits n).IsDigits := by
  have hdigits := Text.isDigits_ofNat n
  refine ⟨List.append_ne_nil_of_right_ne_nil _ hdigits.1, fun c hc => ?_⟩
  rcases List.mem_append.1 hc with hc | hc
  · rw [List.eq_of_mem_replicate hc]
    rfl
  · exact hdigits.2 c hc

theorem digitsValue_sixDigits (n : Nat) : (sixDigits n).digitsValue = n := by
  rw [sixDigits, Text.digitsValue_append, Text.digitsValue_replicate_zero, Nat.zero_mul,
    Nat.zero_add, Text.digitsValue_ofNat]

namespace Chunk

theorem compare_sixDigits (m n : Nat) :
    (ofPart (sixDigits m)).compare (ofPart (sixDigits n)) = Ord.compare m n := by
  have hlt {m n : Nat} (h : m < n) :
      (ofPart (sixDigits m)).compare (ofPart (sixDigits n)) = .lt := by
    refine compare_of_digitsValue_lt (isDigits_sixDigits m) (isDigits_sixDigits n) ?_
    rwa [digitsValue_sixDigits, digitsValue_sixDigits]
  rcases Nat.lt_trichotomy m n with h | rfl | h
  · rw [hlt h, Nat.compare_eq_lt.2 h]
  · have hself : (ofPart (sixDigits m)).compare (ofPart (sixDigits m)) = .eq :=
      Std.ReflCmp.compare_self
    rw [hself, Nat.compare_eq_eq.2 rfl]
  · have hswap : (ofPart (sixDigits m)).compare (ofPart (sixDigits n))
        = ((ofPart (sixDigits n)).compare (ofPart (sixDigits m))).swap := Std.OrientedCmp.eq_swap
    rw [hswap, hlt h, Nat.compare_eq_gt.2 h]
    rfl

end Chunk

namespace Chunks

/-- A number with zeros in front decides before what is written behind it. -/
theorem compare_sixDigits {s t : Text} (m n : Nat) (hs : ∀ c ∈ s.head?, isDecimal c = false)
    (ht : ∀ c ∈ t.head?, isDecimal c = false) :
    compare (Text.chunks (sixDigits m ++ s)) (Text.chunks (sixDigits n ++ t))
      = (Ord.compare m n).then (compare s.chunks t.chunks) := by
  have hfront : ∀ c ∈ ([] : Text).getLast?, isDecimal c = false := nofun
  have hcut {s : Text} (n : Nat) (hs : ∀ c ∈ s.head?, isDecimal c = false) :
      Text.chunks (sixDigits n ++ s) = Chunk.ofPart (sixDigits n) :: s.chunks :=
    Text.chunks_digits (isDigits_sixDigits n) hfront hs
  rw [hcut m hs, hcut n ht, compare, List.compareLex_cons_cons, Chunk.compare_sixDigits]
  cases Ord.compare m n <;> rfl

end Chunks

namespace Variant

/-! ## Compound variants -/

variable {table : VariantTable} {outer outer' : Atom} {inner inner' : Variant}

/-- What compound variants are ordered by: the place of the outermost root, the place of the leaf,
    and then the variants as written. -/
theorem compareVariants_inside :
    CascadeKey.compareVariants ((inner.inside outer).cascadeKey table)
        ((inner'.inside outer').cascadeKey table)
      = (compare (table.order outer.name) (table.order outer'.name)).then
          ((compare (inner.leaf.order table) (inner'.leaf.order table)).then
            (Chunks.compare (Text.chunks (':' :: (inner.inside outer).render))
              (Text.chunks (':' :: (inner'.inside outer').render)))) := by
  have hcolon {s : Text} : ∀ c ∈ (':' :: s).head?, isDecimal c = false := by
    rintro c ⟨⟩
    decide
  rw [← Chunks.compare_sixDigits _ _ hcolon hcolon]
  rfl

/-- *Inside the same root, the leaf decides*: of two compound variants with the same outermost root
    the one whose leaf has the earlier place comes first, whatever stands between root and leaf. -/
theorem inside_lt_of_leaf_lt (hname : outer.name = outer'.name)
    (hleaf : inner.leaf.order table < inner'.leaf.order table) :
    CascadeKey.compareVariants ((inner.inside outer).cascadeKey table)
      ((inner'.inside outer').cascadeKey table) = .lt := by
  rw [compareVariants_inside, hname, Nat.compare_eq_eq.2 rfl, Nat.compare_eq_lt.2 hleaf]
  rfl

/-- A leaf at place nine comes before a bracketed selector, which is placed behind all twelve
    variants, though the names of the groups and the digits of the numbers are the other way
    round. -/
theorem inside_lt_of_leaf_lt_dozen :
    let dozen : VariantTable :=
      ⟨(List.range 12).map fun n => .atRule ('v' :: Text.ofNat n) "@media" "print", true⟩
    let ninth : Variant := .inside (.static "not") (.ofLeaf (.named (.static "v9")))
    let selector : Variant := .ofLeaf (.arbitrary "&_a")
    let inGroup (name : Text) := Variant.inside (.functional "group" (.identifier name) none)
    ninth.leaf.order dozen = 9 ∧ selector.leaf.order dozen = 12 ∧
      CascadeKey.compareVariants ((inGroup "z" ninth).cascadeKey dozen)
        ((inGroup "a" selector).cascadeKey dozen) = .lt :=
  ⟨by decide, by decide, inside_lt_of_leaf_lt rfl (by decide)⟩

end Variant

end UtilityCss
