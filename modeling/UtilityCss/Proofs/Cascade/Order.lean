import UtilityCss.Cascade.Key

/-!
# The cascade order is total

A key is compared field by field, and its fields are numbers, flags, texts and rows of such.
Each comparison is built from those of its parts, so that it is oriented and transitive because
they are. The class itself is the last field: keys that compare equal belong to one class.

* `CascadeKey.transCmp`: the order of keys is oriented and transitive;
* `CascadeKey.raw_eq_of_compare_eq`: only keys of the same class are equal in it.
-/

namespace UtilityCss

/-- An order of values orders what has such a value. -/
theorem transCmp_comap {α β : Type} (cmp : β → β → Ordering) [Std.TransCmp cmp] (f : α → β) :
    Std.TransCmp fun a b => cmp (f a) (f b) where
  eq_swap := Std.OrientedCmp.eq_swap
  isLE_trans := Std.TransCmp.isLE_trans

instance transCmp_compareTexts : Std.TransCmp compareTexts :=
  inferInstanceAs (Std.TransCmp (List.compareLex compare))

instance lawfulEqCmp_compareTexts : Std.LawfulEqCmp compareTexts :=
  inferInstanceAs (Std.LawfulEqCmp (List.compareLex compare))

instance Chunk.transCmp : Std.TransCmp Chunk.compare :=
  have := transCmp_comap compareTexts fun c : Chunk => c.fields.2.2.1
  have := transCmp_comap compareTexts fun c : Chunk => c.fields.2.2.2
  inferInstanceAs (Std.TransCmp (compareLex _ (compareLex _ (compareLex _ _))))

instance Chunks.transCmp : Std.TransCmp Chunks.compare :=
  inferInstanceAs (Std.TransCmp (List.compareLex Chunk.compare))

namespace CascadeKey

instance transCmp_compareVariants : Std.TransCmp compareVariants :=
  have := transCmp_comap Chunks.compare fun v : VariantKey => v.2
  inferInstanceAs (Std.TransCmp (compareLex _ _))

/-- The order of keys is oriented and transitive. -/
instance transCmp : Std.TransCmp compare :=
  have := transCmp_comap (List.compareLex compareVariants) CascadeKey.variants
  have := transCmp_comap Chunks.compare CascadeKey.value
  have := transCmp_comap Chunks.compare CascadeKey.modifier
  have := transCmp_comap compareTexts CascadeKey.raw
  inferInstanceAs (Std.TransCmp (compareLex _ (compareLex _ (compareLex _ (compareLex _
    (compareLex _ (compareLex _ (compareLex _ _))))))))

/-- Keys that compare equal belong to the same class. -/
theorem raw_eq_of_compare_eq {a b : CascadeKey} (h : a.compare b = .eq) : a.raw = b.raw := by
  simp only [compare, compareLex_eq_eq] at h
  exact Std.LawfulEqCmp.eq_of_compare h.2.2.2.2.2.2.2

theorem le_trans {a b c : CascadeKey} (hab : a.le b = true) (hbc : b.le c = true) :
    a.le c = true :=
  Std.TransCmp.isLE_trans hab hbc

theorem le_total (a b : CascadeKey) : (a.le b || b.le a) = true := by
  have h : b.compare a = (a.compare b).swap := Std.OrientedCmp.eq_swap
  rw [le, le, h]
  cases a.compare b <;> rfl

end CascadeKey

end UtilityCss
