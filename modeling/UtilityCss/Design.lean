import UtilityCss.Settings
import UtilityCss.Theme.Stock
import UtilityCss.Utility.Stock
import UtilityCss.Variant.Stock

/-!
# Designs

A design is all that the meaning of a class depends on: a theme, a table of
utilities, a table of variants, and the settings. Its tables are frozen, so that
what is remembered about a class stays true.

* `Design.build`: the design of given parts; tables that are not given are the stock
  ones for the theme.
-/

namespace UtilityCss

/-- What the meaning of a class depends on. -/
structure Design where
  theme : Theme
  utilities : UtilityTable
  variants : VariantTable
  settings : Settings
  utilities_frozen : utilities.frozen = true
  variants_frozen : variants.frozen = true

namespace Design

/-- The design of given parts. The stock variants of a theme may fail to make a
    table. -/
def build (theme : Theme) (utilities : Option UtilityTable) (variants : Option VariantTable)
    (settings : Settings) : Except VariantTableError Design := do
  let variants ← match variants with
    | some table => pure table
    | none => VariantTable.stock theme
  return ⟨theme, (utilities.getD (.stock theme)).freeze, variants.freeze, settings, rfl, rfl⟩

/-- A design that is built with the stock variants has the given parts, and the stock table of
    variants for its theme. -/
theorem parts_of_build {theme : Theme} {utilities : Option UtilityTable} {settings : Settings}
    {d : Design} (h : build theme utilities none settings = .ok d) :
    d.theme = theme ∧ d.utilities = (utilities.getD (.stock theme)).freeze ∧
      VariantTable.stock d.theme = .ok d.variants ∧ d.settings = settings := by
  unfold build at h
  cases hvariants : VariantTable.stock theme with
  | error e =>
    rw [hvariants] at h
    cases h
  | ok table =>
    rw [hvariants] at h
    cases h
    refine ⟨rfl, rfl, ?_, rfl⟩
    rw [hvariants, VariantTable.build_eq_ok hvariants]
    rfl

/-- The design of the stock parts. -/
def stock : Except VariantTableError Design :=
  build .stock none none .stock

end Design

end UtilityCss
