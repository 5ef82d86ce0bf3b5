import UtilityCss.Decimal.Rounding

/-!
# Binary floating-point numbers

The numbers of the 64-bit binary format that are not negative, held exactly: each
is a multiple of the smallest one, 2⁻¹⁰⁷⁴.

* `Binary64.round?`: the number nearest to a quotient, ties to even, unless it is
  too large for the format.
-/

namespace UtilityCss

/-- A number of the format, as a multiple of 2⁻¹⁰⁷⁴. -/
structure Binary64 where
  units : Nat
  deriving DecidableEq, Repr

namespace Binary64

/-- How many units are one. -/
def one : Nat := Nat.pow 2 1074

/-- The first multiple of a unit that is too large for the format. -/
def limit : Nat := Nat.pow 2 2098

/-- The number of low bits that a multiple of a unit loses: 53 bits stay. -/
def droppedBits (units : Nat) : Nat :=
  Nat.log2 units - 52

/-- The number nearest to `num / den`, ties to even; none if it is too large. -/
def round? (num den : Nat) : Option Binary64 :=
  let scaled := num * one
  let spacing := Nat.pow 2 (droppedBits (scaled / den))
  -- The bits that do not fit are rounded away in one step.
  let units := roundHalfEven scaled (den * spacing) * spacing
  if units < limit then some ⟨units⟩ else none

/-- The number nearest to a multiple of a number. -/
def scale? (x : Binary64) (factor : Nat) : Option Binary64 :=
  round? (x.units * factor) one

end Binary64

end UtilityCss
