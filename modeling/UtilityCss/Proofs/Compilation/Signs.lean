import Mathlib.Control.Monad.Basic
import UtilityCss.Completion
import UtilityCss.Proofs.Compilation.Named
import UtilityCss.Theme.Stock

/-!
# Negative values

A sign turns the value of a utility around, wherever its rule has found it, and whether the utility
takes the candidate does not depend on the sign (`Utility.exists_assign_negative_iff`). So a keyword
is turned around as a number is. The classes to offer know better: of the values of a rule they
have the negative forms of those that are no keywords (`Utility.exists_offer_negative_iff`).

* `Utility.TakesKeyword`: a rule takes a named value by one of its keywords;
* `Utility.assign_negative_keyword`: what such a value declares when it is negative, and which
  negative forms are offered.
-/

namespace UtilityCss

variable {theme : Theme} {settings : Settings} {c : Candidate} {name : Text}
  {rules : List UtilityRule} {default : Option Text} {rule : UtilityRule} {found : NamedResult}

/-! ## Keywords -/

namespace UtilityRule

variable {key value : Text} {fraction : Option Text}

/-- What a rule finds among its keywords: a fraction as a whole, or else a key. -/
inductive FindsKeyword (rule : UtilityRule) (theme : Theme) (key : Text) :
    Option Text → NamedResult → Prop
  | fraction {whole value : Text} : rule.keywords.get? whole = some value →
      FindsKeyword rule theme key (some whole) ⟨⟨value, []⟩, true⟩
  | key {fraction : Option Text} {value : Text} :
      fraction.bind (rule.findFraction? theme) = none → rule.keywords.get? key = some value →
      FindsKeyword rule theme key fraction ⟨⟨value, []⟩, false⟩

theorem lookUp?_of_keyword (h : rule.keywords.get? key = some value) :
    rule.lookUp? theme key = some ⟨value, []⟩ := by
  rw [lookUp?, h]

theorem FindsKeyword.findNamed? (h : rule.FindsKeyword theme key fraction found) :
    rule.findNamed? theme key fraction = .ok (some found) := by
  cases h with
  | fraction h =>
    refine findNamed?_of_fraction ?_
    rw [Option.bind_some, findFraction?, lookUp?_of_keyword h]
  | key hfraction h =>
    rw [findNamed?_of_key hfraction, findKey?, lookUp?_of_keyword h]
    rfl

/-- Nothing goes along with a keyword. -/
theorem FindsKeyword.companions (h : rule.FindsKeyword theme key fraction found) :
    found.entry.companions = [] := by
  cases h with
  | fraction | key => rfl

/-- The negative forms to offer for a rule are those of the values that are no keywords. -/
theorem exists_offer_negative_iff (hname : name ≠ []) (hsign : name.head? ≠ some '-') :
    (∃ o ∈ rule.offeredClasses theme name true, o.name = '-' :: (name ++ '-' :: value)) ↔
      value ∈ rule.offeredValues theme ∧ rule.keywords.contains value = false := by
  have hpositive (value' : Text) : name ++ '-' :: value' ≠ '-' :: (name ++ '-' :: value) := by
    obtain ⟨x, rest, rfl⟩ := List.exists_cons_of_ne_nil hname
    exact fun h => hsign (congrArg List.head? h)
  simp only [offeredClasses, List.mem_flatMap, Bool.true_and]
  constructor
  · rintro ⟨o, ⟨value', hvalue, ho⟩, heq⟩
    split at ho
    · next hkeyword =>
      rcases List.mem_cons.1 ho with rfl | ho
      · exact absurd heq (hpositive value')
      · rw [List.mem_singleton.1 ho] at heq
        obtain rfl : value' = value := by
          simpa using heq
        exact ⟨hvalue, by simpa using hkeyword⟩
    · rw [List.mem_singleton.1 ho] at heq
      exact absurd heq (hpositive value')
  · rintro ⟨hvalue, hkeyword⟩
    refine ⟨⟨_, if rule.color then offeredPercentages else []⟩, ⟨value, hvalue, ?_⟩, rfl⟩
    rw [hkeyword]
    exact .tail _ (.head _)

end UtilityRule

namespace Utility

/-- A rule takes a named value by one of its keywords, as the rules in front of it find nothing. -/
inductive TakesKeyword (theme : Theme) :
    List UtilityRule → Option Value → UtilityRule → NamedResult → Prop
  | named {before after : List UtilityRule} {rule : UtilityRule} {key : Text}
      {fraction : Option Text} {found : NamedResult} :
      (∀ rule' ∈ before, rule'.findNamed? theme key fraction = .ok none) →
      rule.FindsKeyword theme key fraction found →
      TakesKeyword theme (before ++ rule :: after) (some (.named key fraction)) rule found

theorem TakesKeyword.takes {value : Option Value} (h : TakesKeyword theme rules value rule found) :
    Takes theme name rules default value rule found := by
  cases h with
  | named hbefore hfound => exact .named hbefore hfound.findNamed?

theorem TakesKeyword.companions {value : Option Value}
    (h : TakesKeyword theme rules value rule found) : found.entry.companions = [] := by
  cases h with
  | named _ hfound => exact hfound.companions

/-! ## Signs -/

/-- Whether a utility that takes signs takes a candidate does not depend on its sign. -/
theorem exists_assign_negative_iff (h : Takes theme name rules default c.value rule found) :
    (∃ result, (dynamic name rules default true).assign theme settings c = .ok result) ↔
      ∃ result, (dynamic name rules default true).assign theme settings
        { c with negative := false } = .ok result := by
  rw [exists_assign_of_takes h, exists_assign_of_takes (c := { c with negative := false }) h]
  simp

/-- The negative forms to offer for a utility are those that some rule has. -/
theorem exists_offer_negative_iff {value : Text} (hname : name ≠ [])
    (hsign : name.head? ≠ some '-') :
    (∃ o ∈ (dynamic name rules default true).offeredClasses theme,
      o.name = '-' :: (name ++ '-' :: value)) ↔
      ∃ rule ∈ rules, value ∈ rule.offeredValues theme ∧
        rule.keywords.contains value = false := by
  simp only [← UtilityRule.exists_offer_negative_iff hname hsign, offeredClasses,
    List.mem_append, List.mem_flatMap, List.mem_ite_nil_right, List.mem_singleton]
  constructor
  · rintro ⟨o, ⟨_, rfl⟩ | ⟨rule, hrule, ho⟩, heq⟩
    · -- The name that stands bare has no sign.
      exact absurd (congrArg List.head? heq) hsign
    · exact ⟨rule, hrule, o, ho, heq⟩
  · rintro ⟨rule, hrule, o, ho, heq⟩
    exact ⟨o, .inr ⟨rule, hrule, ho⟩, heq⟩

/-- A keyword is turned around like any other value, and a utility takes the negative candidate if
    it takes the positive one. But the negative forms that it offers are only those of values that
    a rule has other than as a keyword. -/
theorem assign_negative_keyword (h : TakesKeyword theme rules c.value rule found)
    (hnegative : c.negative = true) :
    (dynamic name rules default true).assign theme settings c
      = (applyModifier theme settings (if found.usesModifier then none else c.modifier)
          (rule.properties.map (⟨·, negated found.entry.value, rule.color⟩))).mapError
            Stop.refused ∧
    ((∃ result, (dynamic name rules default true).assign theme settings c = .ok result) ↔
      ∃ result, (dynamic name rules default true).assign theme settings
        { c with negative := false } = .ok result) ∧
    (name ≠ [] → name.head? ≠ some '-' → ∀ value,
      (∃ o ∈ (dynamic name rules default true).offeredClasses theme,
        o.name = '-' :: (name ++ '-' :: value)) ↔
        ∃ rule ∈ rules, value ∈ rule.offeredValues theme ∧
          rule.keywords.contains value = false) := by
  refine ⟨?_, exists_assign_negative_iff h.takes,
    fun hname hsign _ => exists_offer_negative_iff hname hsign⟩
  rw [assign_of_takes h.takes fun _ => rfl, UtilityRule.declared, RuleEntry.signedValue, hnegative,
    if_pos rfl, h.companions, List.append_nil]

/-- The class of a negative value without a modifier. -/
def negativeOf (name key : Text) : Candidate where
  raw := '-' :: (name ++ '-' :: key)
  kind := .functional
  root := name
  value := some (.named key none)
  modifier := none
  variants := []
  important := false
  negative := true
  property := none

/-- A keyword that the first rule does not know. It compiles, but of the two values of the second
    rule only the other is offered with a sign. -/
theorem assign_negative_keyword_of_full :
    let numbers : UtilityRule := { UtilityRule.ofProperties ["order"] with bare := [.integer] }
    let lengths : UtilityRule := { UtilityRule.ofProperties ["offset"] with
      keywords := .ofList [("full", "100%")], namespaces := ["--spacing"] }
    let theme : Theme := ⟨.ofList [("--spacing-sm", "4px")]⟩
    let u : Utility := .dynamic "shift" [numbers, lengths] none true
    TakesKeyword theme [numbers, lengths] (negativeOf "shift" "full").value lengths
        ⟨⟨"100%", []⟩, false⟩ ∧ (negativeOf "shift" "full").negative = true ∧
      u.assign theme .stock (negativeOf "shift" "full")
        = .ok [⟨"offset", "calc(100% * -1)", false⟩] ∧
      (¬ ∃ o ∈ u.offeredClasses theme, o.name = "-shift-full".toList) ∧
      ∃ o ∈ u.offeredClasses theme, o.name = "-shift-sm".toList := by
  intro numbers lengths theme u
  have hkeyword : TakesKeyword theme ([numbers] ++ lengths :: [])
      (negativeOf "shift" "full").value lengths ⟨⟨"100%", []⟩, false⟩ :=
    .named (by decide) (.key rfl rfl)
  obtain ⟨hassign, _, hoffers⟩ := @assign_negative_keyword theme .stock (negativeOf "shift" "full")
    "shift" [numbers, lengths] none lengths ⟨⟨"100%", []⟩, false⟩ hkeyword rfl
  have hoffers := hoffers (by decide) (by decide)
  exact ⟨hkeyword, rfl, hassign, mt (hoffers "full").1 (by decide),
    (hoffers "sm").2 (by decide)⟩

/-- A margin has no opposite of `auto`. The class compiles, but is not offered. -/
theorem assign_negative_of_auto :
    let rule := UtilityRule.spacingRule ["margin"] [("auto", "auto")] false
    let u := ofSignedRule "m" rule
    u ∈ stockSpacing ∧
      Candidate.ofText? .stock (.stock .stock) (fun _ => none) "-m-auto"
        = some (negativeOf "m" "auto") ∧
      TakesKeyword .stock [rule] (negativeOf "m" "auto").value rule ⟨⟨"auto", []⟩, false⟩ ∧
      (negativeOf "m" "auto").negative = true ∧
      u.assign .stock .stock (negativeOf "m" "auto")
        = .ok [⟨"margin", "calc(auto * -1)", false⟩] ∧
      ¬ ∃ o ∈ u.offeredClasses .stock, o.name = "-m-auto".toList := by
  intro rule u
  have hread : Candidate.ofText? .stock (.stock .stock) (fun _ => none) "-m-auto"
      = some (negativeOf "m" "auto") := by decide +kernel
  have hkeyword : TakesKeyword .stock ([] ++ rule :: []) (negativeOf "m" "auto").value rule
      ⟨⟨"auto", []⟩, false⟩ := .named nofun (.key rfl rfl)
  refine ⟨.head _, hread, hkeyword, rfl, rfl, fun hoffer => ?_⟩
  obtain ⟨rule', hrule', _, hnone⟩ :=
    (@exists_offer_negative_iff .stock "m" [rule] none "auto" (by decide) (by decide)).1 hoffer
  cases List.mem_singleton.1 hrule'
  cases hnone

end Utility

end UtilityCss
