import UtilityCss.Proofs.Candidate.Soundness
import UtilityCss.Proofs.Stylesheet.IdentifierReading

/-!
# Candidates that fit their table

A candidate holds the name of a utility, or a property, and what it means depends on the table. A
candidate that is read *fits* the table (`Candidate.WellFormed`): a name without a value is one that
stands bare, a name with a value is one that takes values, and a property has a value. So the
compiler need not ask again (`Candidate.wellFormed_of_ofText?`).
-/

namespace UtilityCss

/-- A value is a name, or what is left of a bracketed text, with a known data type or none. -/
inductive Value.WellFormed : Value → Prop
  | named {key : Text} {fraction : Option Text} : key.isNamedValue = true →
      WellFormed (.named key fraction)
  | arbitrary {value : Text} {hint : Option Text} : value ≠ [] →
      (∀ name, hint = some name → (DataType.ofName? name).isSome = true) →
      WellFormed (.arbitrary value hint)

/-- A candidate is a name that stands bare, a name with a value that takes values, or a property
    with a value. CSS reads the name of a property as one identifier. -/
inductive Candidate.WellFormed (table : UtilityTable) (c : Candidate) : Prop
  | static : c.kind = .static → c.value = none → c.property = none →
      table.standsBare c.root = true → WellFormed table c
  | functional {value : Value} : c.kind = .functional → c.value = some value → value.WellFormed →
      c.property = none → table.takesValue c.root = true → WellFormed table c
  | arbitrary {property value : Text} : c.kind = .arbitrary → c.root = [] → c.negative = false →
      c.value = some (.arbitrary value none) → value ≠ [] → c.property = some property →
      property.isProperty = true → Text.readIdentifier? property = some (property, []) →
      WellFormed table c

theorem decodeStripped?_ne_nil {s value : Text} (h : decodeStripped? s = some value) :
    value ≠ [] := by
  have hvalue := (Option.filter_eq_some_iff.1 h).2
  rintro rfl
  cases hvalue

theorem Hinted.isSome_ofName? {content name body : Text} (h : Hinted content (some name) body) :
    (DataType.ofName? name).isSome = true := by
  cases h with
  | known hname => exact hname

theorem ValueSpelling.wellFormed {modifier : Option Modifier} {value : Value} {text : Text}
    (h : ValueSpelling modifier value text) : value.WellFormed := by
  cases h with
  | named hkey => exact .named hkey
  | bracketed hhinted hdecoded =>
    refine .arbitrary (decodeStripped?_ne_nil hdecoded) fun name hname => ?_
    subst hname
    exact hhinted.isSome_ofName?
  | custom hhinted =>
    refine .arbitrary (List.cons_ne_nil _ _) fun name hname => ?_
    subst hname
    exact hhinted.isSome_ofName?

/-- What is read fits the table. -/
theorem Candidate.wellFormed_of_ofText? {settings : Settings} {table : UtilityTable}
    {read : Text → Option Variant} {raw : Text} {c : Candidate}
    (h : ofText? settings table read raw = some c) : c.WellFormed table := by
  obtain ⟨_, _, _, _, _, _, hspelled⟩ := ofText?_spelledBy h
  obtain ⟨_, _, _, hfront, _⟩ := hspelled.base.parts
  cases hfront with
  | static hkind hvalue hproperty hbare => exact .static hkind hvalue hproperty hbare
  | functional hkind hvalue hproperty _ hroot hspelling =>
    exact .functional hkind hvalue hspelling.wellFormed hproperty hroot.isRoot
  | arbitrary hkind hroot hvalue hproperty hnegative hname hdecoded =>
    exact .arbitrary hkind hroot hnegative hvalue (decodeStripped?_ne_nil hdecoded) hproperty
      hname (Text.readIdentifier?_of_isProperty hname)

theorem Candidate.WellFormed.wellFormed_of_value {table : UtilityTable} {c : Candidate}
    (h : c.WellFormed table) (value : Value) (hvalue : c.value = some value) :
    value.WellFormed := by
  cases h with
  | static _ hnone =>
    rw [hnone] at hvalue
    cases hvalue
  | functional _ hsome hwell =>
    rw [hsome] at hvalue
    cases hvalue
    exact hwell
  | arbitrary _ _ _ hsome hne =>
    rw [hsome] at hvalue
    cases hvalue
    exact .arbitrary hne nofun

end UtilityCss
