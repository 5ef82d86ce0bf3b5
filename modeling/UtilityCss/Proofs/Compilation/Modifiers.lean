import Mathlib.Control.Monad.Basic
import UtilityCss.Proofs.Candidate.Texts
import UtilityCss.Proofs.Compilation.Assigning

/-!
# What becomes of a modifier

No modifier is lost. A utility that takes a candidate with a modifier has made one of two things of
it (`Utility.Uses`). Either it is the second number of a fraction that a rule knows as a whole, or
it is an alpha. An alpha goes to the colors and to nothing else: the utility takes the candidate
without the modifier as well, and the assignments are the same, but that there the properties of the
rule have the color without the alpha. A property in brackets knows alphas only.

* `UtilityRule.map_withAlpha_declared`: where an alpha goes in what a rule declares;
* `Candidate.formsFraction_of_ofText?`: a fraction that was read ends in the modifier;
* `Candidate.uses_modifier`: what becomes of the modifier of a candidate.
-/

namespace UtilityCss

variable {theme : Theme} {settings : Settings} {c : Candidate} {m : Modifier}

namespace UtilityRule

variable {rule : UtilityRule} {found : NamedResult} {negative : Bool}

theorem declared_of_color (hcolor : rule.color = true) : rule.declared found negative
    = rule.properties.map (⟨·, found.entry.signedValue negative, true⟩)
      ++ found.entry.companions := by
  rw [declared, hcolor]

/-- A rule with a color gives the alpha to its properties, and to nothing that goes along. -/
theorem map_withAlpha_declared (hcolor : rule.color = true)
    (hcompanions : ∀ a ∈ found.entry.companions, a.color = false) (alpha : Text) :
    (rule.declared found negative).map (·.withAlpha settings alpha)
      = rule.properties.map
          (⟨·, faded settings.mixingSpace (found.entry.signedValue negative) alpha, true⟩)
        ++ found.entry.companions := by
  rw [declared_of_color hcolor, List.map_append, List.map_map]
  congr 1
  refine (List.map_congr_left fun a ha => ?_).trans (List.map_id _)
  rw [Assignment.withAlpha, hcompanions a ha, if_neg Bool.false_ne_true, id]

end UtilityRule

namespace Candidate

/-- The candidate without its modifier, and without the fraction that its value forms with it. -/
def withoutModifier (c : Candidate) : Candidate :=
  { c with value := c.value.map Value.withoutFraction, modifier := none }

/-- Without a fraction the value stays. -/
theorem value_withoutModifier (h : ∀ key fraction, c.value ≠ some (.named key (some fraction))) :
    c.withoutModifier.value = c.value := by
  rw [withoutModifier]
  cases hvalue : c.value with
  | none => rfl
  | some value =>
    cases value with
    | arbitrary value dataType => rfl
    | named key fraction =>
      cases fraction with
      | none => rfl
      | some fraction => exact absurd hvalue (h key fraction)

/-- The fraction that comes with a key is the one that the key forms with the modifier. -/
def FormsFraction (c : Candidate) : Prop :=
  ∀ key fraction, c.value = some (.named key (some fraction)) →
    fractionOf key c.modifier = some fraction

/-- What was read forms its fraction. -/
theorem formsFraction_of_ofText? {table : UtilityTable} {read : Text → Option Variant}
    {raw : Text} (h : ofText? settings table read raw = some c) : c.FormsFraction := by
  intro key fraction hvalue
  obtain ⟨_, _, _, _, _, _, hspelled⟩ := ofText?_spelledBy h
  obtain ⟨_, _, _, hfront, _⟩ := hspelled.base.parts
  cases hfront with
  | static _ hnone | arbitrary _ _ hnone =>
    rw [hvalue] at hnone
    cases hnone
  | functional _ hsome _ _ _ hspelling =>
    rw [hvalue] at hsome
    cases hsome
    generalize some fraction = f at hspelling ⊢
    cases hspelling with
    | named => rfl

end Candidate

namespace Utility

variable {u : Utility} {name : Text} {rules : List UtilityRule} {default : Option Text}
  {signed : Bool} {rule : UtilityRule} {result : List Assignment}

/-- What a utility has made of the modifier of a candidate, and its assignments. -/
inductive Uses (theme : Theme) (settings : Settings) (c : Candidate) (m : Modifier) :
    Utility → List Assignment → Prop
  /-- The modifier is the second number of a fraction that a rule knows as a whole. -/
  | fraction {name : Text} {rules : List UtilityRule} {default : Option Text} {signed : Bool}
      {rule : UtilityRule} {key fraction : Text} {entry : RuleEntry} : rule ∈ rules →
      c.value = some (.named key (some fraction)) →
      rule.findFraction? theme fraction = some entry →
      (c.FormsFraction → ∃ number, m = .named number ∧ fraction = key ++ '/' :: number) →
      Uses theme settings c m (.dynamic name rules default signed)
        (rule.declared ⟨entry, true⟩ c.negative)
  /-- The modifier is an alpha for the properties of a rule with a color. -/
  | alpha {name : Text} {rules : List UtilityRule} {default : Option Text} {signed : Bool}
      {rule : UtilityRule} {value alpha : Text} {companions : List Assignment} : rule ∈ rules →
      rule.color = true → rule.properties ≠ [] → (∀ a ∈ companions, a.color = false) →
      m.alpha? theme = some alpha →
      (dynamic name rules default signed).assign theme settings c.withoutModifier
        = .ok (rule.properties.map (⟨·, value, true⟩) ++ companions) →
      Uses theme settings c m (.dynamic name rules default signed)
        (rule.properties.map (⟨·, faded settings.mixingSpace value alpha, true⟩) ++ companions)

/-- A static utility has no color, and so no modifier. -/
theorem assign_static_ne_ok {declarations : List (Text × Text)} (hm : c.modifier = some m) :
    (static name declarations).assign theme settings c ≠ .ok result := by
  intro h
  obtain ⟨plain, _, hplain, happly⟩ := assign_eq_ok.1 h
  obtain ⟨hcolor, rfl⟩ := color_of_static hplain
  rw [if_neg Bool.false_ne_true, hm] at happly
  exact ne_true_of_eq_false hcolor (applyModifier_eq_ok.1 happly).1

/-- A utility uses the modifier of a candidate that it takes. -/
theorem uses_of_assign (hm : c.modifier = some m) (h : u.assign theme settings c = .ok result) :
    Uses theme settings c m u result := by
  cases u with
  | static name declarations => exact absurd h (assign_static_ne_ok hm)
  | dynamic name rules default signed =>
    obtain ⟨_, _, hplain, happly⟩ := assign_eq_ok.1 h
    obtain ⟨rule, found, htakes, hsign, rfl, rfl⟩ := assignments_eq_ok.1 hplain
    cases huses : found.usesModifier with
    | true =>
      obtain ⟨key, fraction, hvalue, hentry⟩ := htakes.findFraction? huses
      rw [huses, if_pos rfl] at happly
      cases happly
      obtain ⟨entry, _⟩ := found
      cases huses
      refine .fraction htakes.mem hvalue hentry fun hc => ?_
      obtain ⟨number, hnumber, hfraction⟩ := fractionOf_eq_some (hc key fraction hvalue)
      exact ⟨number, Option.some.inj (hm.symm.trans hnumber), hfraction⟩
    | false =>
      rw [huses, if_neg Bool.false_ne_true, hm] at happly
      obtain ⟨hany, alpha, halpha, rfl⟩ := applyModifier_eq_ok.1 happly
      obtain ⟨hcolor, hproperties⟩ := htakes.any_color_declared.1 hany
      have hcompanions : ∀ a ∈ found.entry.companions, a.color = false :=
        fun a ha => htakes.color_of_mem ha
      rw [UtilityRule.map_withAlpha_declared hcolor hcompanions]
      refine .alpha htakes.mem hcolor hproperties hcompanions halpha ?_
      -- The same rule takes the value without the fraction.
      have htakes' : Takes theme name rules default c.withoutModifier.value rule found :=
        htakes.withoutFraction huses
      rw [← UtilityRule.declared_of_color hcolor, assign_of_takes htakes' hsign, huses]
      rfl

/-- A modifier is part of the value only in a fraction. -/
theorem exists_fraction_of_assignments {plain : List Assignment}
    (h : u.assignments theme c = .ok (plain, true)) :
    ∃ key fraction, c.value = some (.named key (some fraction)) := by
  cases u with
  | static name declarations => cases (color_of_static h).2
  | dynamic name rules default signed =>
    obtain ⟨_, found, htakes, _, _, huses⟩ := assignments_eq_ok.1 h
    obtain ⟨key, fraction, hvalue, _⟩ := htakes.findFraction? huses.symm
    exact ⟨key, fraction, hvalue⟩

/-- Where there is no fraction, all that is asked of a modifier is an alpha, and a color for it. -/
theorem assign_of_withoutModifier (hm : c.modifier = some m)
    (hvalue : ∀ key fraction, c.value ≠ some (.named key (some fraction)))
    {plain : List Assignment} (hplain : u.assign theme settings c.withoutModifier = .ok plain)
    (hcolor : plain.any (·.color) = true) {alpha : Text} (halpha : m.alpha? theme = some alpha) :
    u.assign theme settings c = .ok (plain.map (·.withAlpha settings alpha)) := by
  have hsame : u.assignments theme c.withoutModifier = u.assignments theme c := by
    cases u with
    | static | dynamic =>
      rw [assignments, assignments, Candidate.value_withoutModifier hvalue]
      rfl
  obtain ⟨plain', usesModifier, hassignments, happly⟩ := assign_eq_ok.1 hplain
  cases usesModifier with
  | true =>
    obtain ⟨key, fraction, hfraction⟩ := exists_fraction_of_assignments (hsame ▸ hassignments)
    exact absurd hfraction (hvalue key fraction)
  | false =>
    cases happly
    refine assign_eq_ok.2 ⟨plain, false, hsame ▸ hassignments, ?_⟩
    rw [if_neg Bool.false_ne_true, hm]
    exact applyModifier_eq_ok.2 ⟨hcolor, alpha, halpha, rfl⟩

end Utility

namespace UtilityTable

variable {table : UtilityTable} {resolved : Source × List Assignment}

/-- What a property in brackets has made of the modifier of a candidate: an alpha for its value,
    which is a color. -/
inductive Fades (table : UtilityTable) (theme : Theme) (settings : Settings) (c : Candidate)
    (m : Modifier) : Source × List Assignment → Prop
  | alpha {value alpha : Text} : c.value.map Value.text = some value → value.spellsColor = true →
      m.alpha? theme = some alpha →
      table.assign theme settings c.withoutModifier
        = .ok (.arbitraryProperty, [⟨c.property.getD [], value, true⟩]) →
      Fades table theme settings c m (.arbitraryProperty,
        [⟨c.property.getD [], faded settings.mixingSpace value alpha, true⟩])

/-- A property in brackets uses the modifier of a candidate that it takes. -/
theorem fades_of_assign (hm : c.modifier = some m) (hkind : c.kind = .arbitrary)
    (h : table.assign theme settings c = .ok resolved) :
    table.Fades theme settings c m resolved := by
  obtain ⟨value, result, hvalue, happly, rfl⟩ := (assign_arbitrary_eq_ok hkind).1 h
  rw [hm] at happly
  obtain ⟨hany, alpha, halpha, rfl⟩ := applyModifier_eq_ok.1 happly
  have hcolor : value.text.spellsColor = true := by
    simpa using hany
  rw [List.map_singleton, Assignment.withAlpha, if_pos hcolor, hcolor]
  refine .alpha (by rw [hvalue]; rfl) hcolor halpha ?_
  have hvalue' : c.withoutModifier.value = some value.withoutFraction := by
    rw [Candidate.withoutModifier, hvalue]
    rfl
  refine (assign_arbitrary_eq_ok (c := c.withoutModifier) hkind).2 ⟨_, _, hvalue', rfl, ?_⟩
  rw [Value.text_withoutFraction, hcolor]
  rfl

end UtilityTable

namespace Candidate

/-- A modifier is lost nowhere. Where a utility takes a candidate, it is used, as part of a fraction
    or as an alpha; and where there is no fraction, an alpha is enough for a utility that has a
    color without the modifier. A property in brackets uses it as an alpha. -/
theorem uses_modifier {c : Candidate} {m : Modifier} (hm : c.modifier = some m) (theme : Theme)
    (settings : Settings) :
    (∀ u result, Utility.assign theme settings c u = .ok result →
      Utility.Uses theme settings c m u result) ∧
    ((∀ key fraction, c.value ≠ some (.named key (some fraction))) →
      ∀ u plain alpha, Utility.assign theme settings c.withoutModifier u = .ok plain →
        plain.any (·.color) = true → m.alpha? theme = some alpha →
          Utility.assign theme settings c u = .ok (plain.map (·.withAlpha settings alpha))) ∧
    (∀ table resolved, c.kind = .arbitrary →
      UtilityTable.assign table theme settings c = .ok resolved →
        table.Fades theme settings c m resolved) ∧
    ∀ table read raw, ofText? settings table read raw = some c → c.FormsFraction :=
  ⟨fun _ _ h => Utility.uses_of_assign hm h,
    fun hvalue _ _ _ hplain hcolor halpha =>
      Utility.assign_of_withoutModifier hm hvalue hplain hcolor halpha,
    fun _ _ hkind h => UtilityTable.fades_of_assign hm hkind h,
    fun _ _ _ h => formsFraction_of_ofText? h⟩

/-- A utility that knows fractions of a width, and else colors with something along. -/
def tint : Utility :=
  .dynamic "tint"
    [{ UtilityRule.ofProperties ["width"] with bare := [.fraction] },
      { UtilityRule.ofProperties ["color", "fill"] with
        namespaces := ["--color"], color := true, companions := [("flex", "--ratio")] }]
    none false

/-- The class `tint-7/0`, or `tint-7/2`, and so on. -/
def tinted (number : Text) : Candidate where
  raw := "tint-7/".toList ++ number
  kind := .functional
  root := "tint"
  value := some (.named "7" (some ("7/".toList ++ number)))
  modifier := some (.named number)
  variants := []
  important := false
  negative := false
  property := none

/-- A fraction that divides by zero is none, so the number is an alpha there. -/
theorem uses_modifier_of_tint :
    let theme : Theme := ⟨.ofList [("--color-7", "#777"), ("--color-7--ratio", "1")]⟩
    let half : List Assignment := [⟨"width", "calc(7/2 * 100%)", false⟩]
    let clear : List Assignment :=
      [⟨"color", "color-mix(in oklab, #777 0%, transparent)", true⟩,
        ⟨"fill", "color-mix(in oklab, #777 0%, transparent)", true⟩, ⟨"flex", "1", false⟩]
    ofText? .stock (.ofUtilities [tint]) (fun _ => none) "tint-7/0" = some (tinted "0") ∧
      tint.assign theme .stock (tinted "2") = .ok half ∧
      tint.Uses theme .stock (tinted "2") (.named "2") half ∧
      tint.assign theme .stock (tinted "0") = .ok clear ∧
      tint.Uses theme .stock (tinted "0") (.named "0") clear := by
  intro theme half clear
  have hread : ofText? .stock (.ofUtilities [tint]) (fun _ => none) "tint-7/0"
      = some (tinted "0") := by decide +kernel
  have hhalf : tint.assign theme .stock (tinted "2") = .ok half := by decide +kernel
  have hclear : tint.assign theme .stock (tinted "0") = .ok clear := by decide +kernel
  exact ⟨hread, hhalf, (uses_modifier (c := tinted "2") rfl theme .stock).1 _ _ hhalf, hclear,
    (uses_modifier (c := tinted "0") rfl theme .stock).1 _ _ hclear⟩

end Candidate

end UtilityCss
