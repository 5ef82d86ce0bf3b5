import Mathlib.Data.List.Nodup
import UtilityCss.Completion
import UtilityCss.Proofs.Candidate.Plain
import UtilityCss.Proofs.Compilation.Named

/-!
# What the stock utilities have in common

The stock utilities of two themes differ in the value of one default only, so that what is said of
their names and rules can be looked through once and for all (`Utility.stockForms`).

* `Utility.Regular`: what holds of each of them;
* `Utility.name_mem_sideNames`: one name goes on where another ends only for the utilities that are
  for some sides of a border or a gap;
* `Utility.exists_border`: the utilities for borders have a rule for widths, and then one for
  colors.
-/

namespace UtilityCss

/-- The namespaces that the stock utilities look keys up in. -/
def stockNamespaces : List Text :=
  ["--spacing", "--container", "--font-weight", "--font", "--text", "--leading", "--tracking",
    "--color", "--radius", "--opacity"]

/-- The utilities for the border at some sides. -/
def borderSides : List Text :=
  ["border-x", "border-y", "border-t", "border-r", "border-b", "border-l"]

/-- The utilities for borders. -/
def borderNames : List Text :=
  "border".toList :: borderSides

/-- The utilities for some sides whose name begins with that of another utility. -/
def sideNames : List Text :=
  "gap-x".toList :: "gap-y".toList :: borderSides

namespace Utility

/-- The rules of a utility. -/
def rules : Utility → List UtilityRule
  | static _ _ => []
  | dynamic _ rules _ _ => rules

/-- Whether a utility takes a sign. -/
def signed : Utility → Bool
  | static _ _ => false
  | dynamic _ _ _ signed => signed

theorem takesValue_of_mem_rules {u : Utility} {rule : UtilityRule} (h : rule ∈ u.rules) :
    u.takesValue = true := by
  cases u with
  | static => cases h
  | dynamic => rfl

/-- The utility with the value of its default left out. -/
def blurred : Utility → Utility
  | static name declarations => static name declarations
  | dynamic name rules default signed => dynamic name rules (default.map fun _ => []) signed

section Blurred

variable (u : Utility)

@[simp] theorem name_blurred : u.blurred.name = u.name := by
  cases u <;> rfl

@[simp] theorem rules_blurred : u.blurred.rules = u.rules := by
  cases u <;> rfl

@[simp] theorem signed_blurred : u.blurred.signed = u.signed := by
  cases u <;> rfl

@[simp] theorem takesValue_blurred : u.blurred.takesValue = u.takesValue := by
  cases u <;> rfl

@[simp] theorem standsBare_blurred : u.blurred.standsBare = u.standsBare := by
  cases u <;> simp [blurred, standsBare]

end Blurred

/-- The stock utilities with the values of their defaults left out. -/
def stockForms : List Utility :=
  (stockUtilities ⟨.empty⟩).map blurred

/-- The stock utilities of all themes are of the same forms. -/
theorem map_blurred_stockUtilities (theme : Theme) :
    (stockUtilities theme).map blurred = stockForms := rfl

variable {theme : Theme} {u v : Utility}

theorem blurred_mem_stockForms (hu : u ∈ stockUtilities theme) : u.blurred ∈ stockForms := by
  rw [← map_blurred_stockUtilities theme]
  exact List.mem_map_of_mem hu

/-! ## Each by itself -/

end Utility

/-- What holds of the rules of stock utilities: the first namespace with a key is the only one, or
    no variable is passed over; and the keywords are joined. -/
structure UtilityRule.Regular (rule : UtilityRule) : Prop where
  namespaces : ∀ nameSpace ∈ rule.namespaces, nameSpace ∈ stockNamespaces
  unshadowed : rule.namespaces.length ≤ 1 ∨ rule.ignored = []
  keywords : ∀ key ∈ rule.keywords.keys, key.isJoined = true
  fillable : rule.template.isFillable = true

namespace Utility

/-- What holds of the stock utilities, each by itself. -/
structure Regular (u : Utility) : Prop where
  name : IsRootName u.name
  sound : u.isSound = true
  rules : ∀ rule ∈ u.rules, rule.Regular
  /-- Fractions are no colors, and colors have no sign. -/
  colors : ∀ rule ∈ u.rules, rule.color = true →
    u.signed = false ∧ rule.properties ≠ [] ∧ ∀ rule' ∈ u.rules, .fraction ∉ rule'.bare
  fractions : ∀ rule ∈ u.rules, .fraction ∈ rule.bare → u.rules = [rule]
  /-- In front of a rule for colors there is no bare form but that of widths. -/
  order : u.rules.Pairwise fun rule rule' => rule'.color = true → rule.color = false ∧
    (rule.bare = [] ∨ rule.bare = [.integer] ∧ u.name ∈ borderNames)

theorem isSound_blurred (u : Utility) : u.blurred.isSound = u.isSound := by
  cases u with
  | static => rfl
  | dynamic name rules default signed => cases default <;> rfl

theorem regular_of_mem (hu : u ∈ stockUtilities theme) : u.Regular := by
  have hmem := blurred_mem_stockForms hu
  have hname : ∀ u ∈ stockForms, u.name.head?.any Char.isAlpha = true ∧
      u.name.all (isAlphanumericOr ['-']) = true := by decide +kernel
  have hsound : ∀ u ∈ stockForms, u.isSound = true := by decide +kernel
  have hrules : ∀ u ∈ stockForms, ∀ rule ∈ u.rules,
      (∀ nameSpace ∈ rule.namespaces, nameSpace ∈ stockNamespaces) ∧
        (rule.namespaces.length ≤ 1 ∨ rule.ignored = []) ∧
        (∀ key ∈ rule.keywords.keys, key.isJoined = true) ∧
        rule.template.isFillable = true := by decide +kernel
  have hcolors : ∀ u ∈ stockForms, ∀ rule ∈ u.rules, rule.color = true →
      u.signed = false ∧ rule.properties ≠ [] ∧
        ∀ rule' ∈ u.rules, BareForm.fraction ∉ rule'.bare := by decide +kernel
  have hfractions : ∀ u ∈ stockForms, ∀ rule ∈ u.rules, BareForm.fraction ∈ rule.bare →
      u.rules.length = 1 := by decide +kernel
  have horder : ∀ u ∈ stockForms, u.rules.Pairwise fun rule rule' => rule'.color = true →
      rule.color = false ∧ (rule.bare = [] ∨
        rule.bare = [BareForm.integer] ∧ u.name ∈ borderNames) := by decide +kernel
  replace hname := hname _ hmem
  replace hsound := hsound _ hmem
  replace hrules := hrules _ hmem
  replace hcolors := hcolors _ hmem
  replace hfractions := hfractions _ hmem
  replace horder := horder _ hmem
  simp only [name_blurred, rules_blurred, isSound_blurred] at hname hsound hrules
  simp only [name_blurred, rules_blurred, signed_blurred] at hcolors hfractions horder
  refine ⟨⟨hname.1, hname.2⟩, hsound, fun rule hrule => ?_, hcolors, fun rule hrule hf => ?_,
    horder⟩
  · obtain ⟨hnamespaces, hunshadowed, hkeywords, hfillable⟩ := hrules rule hrule
    exact ⟨hnamespaces, hunshadowed, hkeywords, hfillable⟩
  · obtain ⟨rule', hrule'⟩ := List.length_eq_one_iff.1 (hfractions rule hrule hf)
    rw [hrule', List.mem_singleton] at hrule
    rw [hrule', hrule]

/-! ## Names -/

/-- A utility that takes values is the only one of its name. -/
theorem rules_eq_of_name (hu : u ∈ stockUtilities theme) (hv : v ∈ stockUtilities theme)
    (htakes : u.takesValue = true) (htakes' : v.takesValue = true) (hname : u.name = v.name) :
    u.rules = v.rules ∧ u.signed = v.signed := by
  have hnodup : ((stockForms.filter (·.takesValue)).map (·.name)).Nodup := by decide +kernel
  have hmem {u : Utility} (hu : u ∈ stockUtilities theme) (htakes : u.takesValue = true) :
      u.blurred ∈ stockForms.filter (·.takesValue) :=
    List.mem_filter.2 ⟨blurred_mem_stockForms hu, (takesValue_blurred u).trans htakes⟩
  have hblurred : u.blurred = v.blurred :=
    List.inj_on_of_nodup_map hnodup (hmem hu htakes) (hmem hv htakes') (by simpa using hname)
  rw [← rules_blurred, ← signed_blurred, hblurred, rules_blurred, signed_blurred]
  exact ⟨rfl, rfl⟩

/-- One name goes on where another ends only for the utilities that are for some sides. -/
theorem name_mem_sideNames (hu : u ∈ stockUtilities theme) (hv : v ∈ stockUtilities theme)
    (htakes : u.takesValue = true) (htakes' : v.takesValue = true) {rest : Text}
    (hname : v.name = u.name ++ '-' :: rest) :
    v.name ∈ sideNames ∧ u.name ∉ sideNames ∧ u.signed = false ∧
      ∀ rule ∈ u.rules, rule.color = true → u.name = "border" ∧ v.name ∈ borderSides := by
  have hall : ∀ u ∈ stockForms, u.takesValue = true → ∀ v ∈ stockForms, v.takesValue = true →
      (u.name ++ ['-']).isPrefixOf v.name = true →
        v.name ∈ sideNames ∧ u.name ∉ sideNames ∧ u.signed = false ∧
          ∀ rule ∈ u.rules, rule.color = true →
            u.name = "border" ∧ v.name ∈ borderSides := by decide +kernel
  have h := hall _ (blurred_mem_stockForms hu) ((takesValue_blurred u).trans htakes)
    _ (blurred_mem_stockForms hv) ((takesValue_blurred v).trans htakes')
  simp only [name_blurred, rules_blurred, signed_blurred] at h
  refine h (List.isPrefixOf_iff_prefix.2 ⟨rest, ?_⟩)
  rw [hname, List.append_assoc, List.singleton_append]

/-- Every one of these names is that of a utility that takes values. -/
theorem exists_of_name_mem (theme : Theme) {name : Text}
    (h : name ∈ sideNames ∨ name ∈ borderNames) :
    ∃ u ∈ stockUtilities theme, u.name = name ∧ u.takesValue = true := by
  have hall : ∀ name ∈ sideNames ++ borderNames, ∃ u ∈ stockForms,
      u.name = name ∧ u.takesValue = true := by decide +kernel
  obtain ⟨form, hform, hname, htakes⟩ := hall name (List.mem_append.2 h)
  rw [← map_blurred_stockUtilities theme] at hform
  obtain ⟨u, hu, rfl⟩ := List.mem_map.1 hform
  exact ⟨u, hu, (name_blurred u).symm.trans hname, (takesValue_blurred u).symm.trans htakes⟩

/-- A name that stands bare is a name with a value only if it is for some sides of a border, or if
    nobody offers the value. -/
theorem name_mem_borderSides_of_bare (hu : u ∈ stockUtilities theme)
    (hv : v ∈ stockUtilities theme) (htakes : u.takesValue = true)
    (hbare : v.standsBare = true) {value : Text} (hname : v.name = u.name ++ '-' :: value) :
    value ∉ ["1".toList, "2".toList, "3".toList] ∧
      (v.name ∈ borderSides ∧ u.signed = false ∨ ∀ rule ∈ u.rules, rule.namespaces = [] ∧
        .percentage ∉ rule.bare ∧ value ∉ rule.keywords.keys) := by
  have hall : ∀ u ∈ stockForms, u.takesValue = true → ∀ v ∈ stockForms, v.standsBare = true →
      (u.name ++ ['-']).isPrefixOf v.name = true →
        v.name.drop (u.name.length + 1) ∉ ["1".toList, "2".toList, "3".toList] ∧
          (v.name ∈ borderSides ∧ u.signed = false ∨
            ∀ rule ∈ u.rules, rule.namespaces = [] ∧ BareForm.percentage ∉ rule.bare ∧
              v.name.drop (u.name.length + 1) ∉ rule.keywords.keys) := by decide +kernel
  have h := hall _ (blurred_mem_stockForms hu) ((takesValue_blurred u).trans htakes)
    _ (blurred_mem_stockForms hv) ((standsBare_blurred v).trans hbare)
  simp only [name_blurred, rules_blurred, signed_blurred] at h
  have hsplit : v.name = u.name ++ ['-'] ++ value := by
    rw [hname, List.append_assoc, List.singleton_append]
  have hdrop : v.name.drop (u.name.length + 1) = value :=
    hsplit ▸ List.drop_left' (by simp)
  rw [hdrop] at h
  exact h (List.isPrefixOf_iff_prefix.2 ⟨value, hsplit.symm⟩)

/-- What stands bare does not begin like a utility for some sides with a value. -/
theorem not_prefix_of_bare (hu : u ∈ stockUtilities theme) (hbare : u.standsBare = true)
    {name : Text} (hname : name ∈ sideNames) : ¬ name ++ ['-'] <+: u.name := by
  have hall : ∀ u ∈ stockForms, u.standsBare = true → ∀ name ∈ sideNames,
      ¬ name ++ ['-'] <+: u.name := by decide +kernel
  have h := hall _ (blurred_mem_stockForms hu) ((standsBare_blurred u).trans hbare) name hname
  rwa [name_blurred] at h

/-- Neither does what is offered with a fraction. -/
theorem not_prefix_of_fraction (hu : u ∈ stockUtilities theme) {rule : UtilityRule}
    (hrule : rule ∈ u.rules) (hform : .fraction ∈ rule.bare) {name fraction : Text}
    (hname : name ∈ sideNames) (hfraction : fraction ∈ offeredFractions) :
    ¬ name ++ ['-'] <+: u.name ++ '-' :: fraction := by
  have hall : ∀ u ∈ stockForms, ∀ rule ∈ u.rules, BareForm.fraction ∈ rule.bare →
      ∀ name ∈ sideNames, ∀ fraction ∈ offeredFractions,
        ¬ name ++ ['-'] <+: u.name ++ '-' :: fraction := by decide +kernel
  have h := hall _ (blurred_mem_stockForms hu)
  rw [rules_blurred, name_blurred] at h
  exact h rule hrule hform name hname fraction hfraction

/-! ## Borders -/

/-- Whether some rules are one for widths in whole pixels, and then one for colors. -/
def isBorder : List UtilityRule → Bool
  | [pixels, colors] =>
    !pixels.color && pixels.bare = [.integer] && pixels.namespaces.isEmpty
      && pixels.keywords.keys.isEmpty && colors.color
  | _ => false

/-- The utilities for borders have a rule for widths, and then one for colors. -/
theorem exists_border (hu : u ∈ stockUtilities theme) (hname : u.name ∈ borderNames) :
    u.takesValue = true ∧ u.standsBare = true ∧ ∃ pixels colors, u.rules = [pixels, colors] ∧
      pixels.color = false ∧ pixels.bare = [.integer] ∧ pixels.namespaces = [] ∧
      pixels.keywords.keys = [] ∧ colors.color = true := by
  have hall : ∀ u ∈ stockForms, u.name ∈ borderNames →
      u.takesValue = true ∧ u.standsBare = true ∧ isBorder u.rules = true := by decide +kernel
  have h := hall _ (blurred_mem_stockForms hu)
  simp only [name_blurred, rules_blurred, takesValue_blurred, standsBare_blurred] at h
  obtain ⟨htakes, hbare, hborder⟩ := h hname
  refine ⟨htakes, hbare, ?_⟩
  unfold isBorder at hborder
  split at hborder
  · next pixels colors hrules =>
    simp only [Bool.and_eq_true, Bool.not_eq_true', decide_eq_true_eq, List.isEmpty_iff] at hborder
    obtain ⟨⟨⟨⟨hcolor, hforms⟩, hnamespaces⟩, hkeywords⟩, hcolors⟩ := hborder
    exact ⟨pixels, colors, hrules, hcolor, hforms, hnamespaces, hkeywords, hcolors⟩
  · cases hborder

end Utility

end UtilityCss
