import UtilityCss.Text.Basic

/-!
# Settings

What a design decides beyond its theme and its tables: two limits on how deep a
class may nest, and the color space in which colors fade.
-/

namespace UtilityCss

/-- The settings of a design. -/
structure Settings where
  /-- How many groups may stand open at once in a class. -/
  maxOpenGroups : Int
  /-- How many compound roots a variant may have. -/
  maxCompoundRoots : Int
  /-- The color space that colors are mixed in. -/
  mixingSpace : Text
  deriving DecidableEq, Repr

namespace Settings

/-- The settings of a design that names none. -/
def stock : Settings := ⟨32, 16, "oklab"⟩

end Settings

end UtilityCss
