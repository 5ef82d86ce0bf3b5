import Mathlib.Data.List.Basic
import UtilityCss.Completion
import UtilityCss.Compilation.Value
import UtilityCss.Text.Name
import UtilityCss.Utility.Stock

/-!
# Looked up keys and listed keys

A rule reads the theme in two ways. To compile a value, it makes the name of a variable from each
of its namespaces and the key, and the first that the theme has decides (`UtilityRule.lookUp?`). To
list its keys, it cuts the namespaces off the names in the theme, and leaves out nested keys and
ignored variables one by one (`UtilityRule.themeKeys`).

Both come down to the variables that a rule *takes* for a key (`UtilityRule.takes`): the list asks
for any namespace with such a variable (`mem_themeKeys`), and the lookup for the first namespace
that has a variable at all (`isSome_lookUp?_iff`). So they differ in two ways, and in no other:

* `UtilityRule.readsNested`: the lookup finds a nested variable, which no list has;
* `UtilityRule.shadows`: an ignored variable hides one that is taken, in a later namespace.
-/

namespace UtilityCss

namespace Theme

variable {t : Theme} {nameSpace name key : Text}

theorem variableName_append (nameSpace key : Text) :
    variableName nameSpace key = variableName nameSpace [] ++ key := by
  simp [variableName]

theorem keyUnder?_eq_some : keyUnder? nameSpace name = some key ↔
    name = variableName nameSpace key ∧ key ≠ [] ∧ Text.hasInside "--" key = false := by
  rw [variableName_append, keyUnder?]
  constructor
  · intro h
    obtain ⟨hstart, h⟩ := Option.ite_none_right_eq_some.1 h
    obtain ⟨rest, rfl⟩ := List.isPrefixOf_iff_prefix.1 hstart
    rw [List.drop_left] at h
    obtain ⟨hrest, h⟩ := Option.ite_none_left_eq_some.1 h
    cases h
    rw [Bool.or_eq_true, not_or, List.isEmpty_iff, Bool.not_eq_true] at hrest
    exact ⟨rfl, hrest⟩
  · rintro ⟨rfl, hkey, hnested⟩
    have hstart :
        (variableName nameSpace [] ++ key).startsWith (variableName nameSpace []) = true :=
      List.isPrefixOf_iff_prefix.2 (List.prefix_append _ _)
    rw [if_pos hstart]
    dsimp only
    rw [List.drop_left, hnested, Bool.or_false, if_neg (by simpa using hkey)]

/-- The keys under a namespace are those of its variables that are not nested. -/
theorem mem_keysUnder : key ∈ t.keysUnder nameSpace ↔
    t.contains (variableName nameSpace key) = true ∧ key ≠ [] ∧
      Text.hasInside "--" key = false := by
  rw [contains, OrderedMap.contains_iff, keysUnder, List.mem_filterMap]
  simp only [keyUnder?_eq_some]
  constructor
  · rintro ⟨name, hname, rfl, hkey⟩
    exact ⟨hname, hkey⟩
  · rintro ⟨hname, hkey⟩
    exact ⟨_, hname, rfl, hkey⟩

end Theme

namespace UtilityRule

open Theme

variable {rule : UtilityRule} {theme : Theme} {key nameSpace : Text}

/-- The first namespace of the rule that has a variable for a key. -/
def namespaceOf? (rule : UtilityRule) (theme : Theme) (key : Text) : Option Text :=
  rule.namespaces.find? fun nameSpace => theme.contains (variableName nameSpace key)

/-- Whether a namespace has a variable for a key that the rule does not pass over. -/
def takes (rule : UtilityRule) (theme : Theme) (key nameSpace : Text) : Bool :=
  theme.contains (variableName nameSpace key) && !rule.ignores (variableName nameSpace key)

/-- Whether the lookup of a key with a double hyphen finds a variable. -/
def readsNested (rule : UtilityRule) (theme : Theme) (key : Text) : Bool :=
  Text.hasInside "--" key && (rule.namespaceOf? theme key).any (rule.takes theme key)

/-- Whether the first variable for a key is passed over, though a later namespace has one that is
    not. -/
def shadows (rule : UtilityRule) (theme : Theme) (key : Text) : Bool :=
  !Text.hasInside "--" key && (rule.namespaceOf? theme key).any (!rule.takes theme key ·)
    && rule.namespaces.any (rule.takes theme key)

theorem variableFor?_eq (theme : Theme) (key : Text) (namespaces : List Text) :
    theme.variableFor? key namespaces = (namespaces.find? fun nameSpace =>
      theme.contains (variableName nameSpace key)).map (variableName · key) := by
  rw [variableFor?, List.find?_map]
  rfl

/-- A key that is no keyword is known if its first variable is taken. -/
theorem isSome_lookUp?_iff (hkeyword : rule.keywords.contains key = false) :
    (rule.lookUp? theme key).isSome = true ↔
      (rule.namespaceOf? theme key).any (rule.takes theme key) = true := by
  have hnone : rule.keywords.get? key = none := by
    rwa [OrderedMap.contains, Option.isSome_eq_false_iff, Option.isNone_iff_eq_none] at hkeyword
  rw [lookUp?, hnone, variableFor?_eq, namespaceOf?]
  cases hfind : rule.namespaces.find? fun nameSpace =>
      theme.contains (variableName nameSpace key) with
  | none => simp
  | some nameSpace =>
    have hcontains := List.find?_some hfind
    have hvalue : (theme.get? (variableName nameSpace key)).isSome = true := hcontains
    rw [Option.map_some, Option.any_some, takes, hcontains, Bool.true_and]
    dsimp only
    by_cases hignores : rule.ignores (variableName nameSpace key) = true
    · simp [hignores]
    · rw [if_neg hignores, entryOf?, Option.isSome_map, hvalue, eq_false_of_ne_true hignores]
      rfl

/-- A key is listed if one of its variables is taken, unless it is nested. -/
theorem mem_themeKeys : key ∈ rule.themeKeys theme ↔
    rule.namespaces.any (rule.takes theme key) = true ∧ key ≠ [] ∧
      Text.hasInside "--" key = false := by
  simp only [themeKeys, keysUnder, List.mem_flatMap, List.mem_filter, mem_keysUnder,
    List.any_eq_true, takes, Bool.and_eq_true]
  constructor
  · rintro ⟨nameSpace, hmem, ⟨hcontains, hkey⟩, hignores⟩
    exact ⟨⟨nameSpace, hmem, hcontains, hignores⟩, hkey⟩
  · rintro ⟨⟨nameSpace, hmem, hcontains, hignores⟩, hkey⟩
    exact ⟨nameSpace, hmem, ⟨hcontains, hkey⟩, hignores⟩

/-- What the lookup takes is taken in some namespace. -/
theorem any_takes_of_namespaceOf?
    (h : (rule.namespaceOf? theme key).any (rule.takes theme key) = true) :
    rule.namespaces.any (rule.takes theme key) = true := by
  obtain ⟨nameSpace, hfind, htakes⟩ := (Option.any_eq_true ..).1 h
  exact List.any_eq_true.2 ⟨nameSpace, List.mem_of_find?_eq_some hfind, htakes⟩

/-- If a variable is taken for a key, the key has a first variable. -/
theorem exists_namespaceOf? (h : rule.namespaces.any (rule.takes theme key) = true) :
    ∃ nameSpace, rule.namespaceOf? theme key = some nameSpace := by
  obtain ⟨nameSpace, hmem, htakes⟩ := List.any_eq_true.1 h
  refine Option.isSome_iff_exists.1 (List.find?_isSome.2 ⟨nameSpace, hmem, ?_⟩)
  exact (Bool.and_eq_true_iff.1 htakes).1

/-- A key that is no keyword is looked up with success exactly if it is listed, unless the rule
    reads a nested variable for it or has one shadowed. -/
theorem isSome_lookUp?_iff_mem_themeKeys (hkey : key ≠ [])
    (hkeyword : rule.keywords.contains key = false) :
    ((rule.lookUp? theme key).isSome = true ↔ key ∈ rule.themeKeys theme) ↔
      rule.readsNested theme key = false ∧ rule.shadows theme key = false := by
  rw [isSome_lookUp?_iff hkeyword, mem_themeKeys, readsNested, shadows]
  cases hnested : Text.hasInside "--" key with
  | true => simp
  | false =>
    cases hfirst : rule.namespaceOf? theme key with
    | none =>
      have hany : rule.namespaces.any (rule.takes theme key) = false := by
        refine eq_false_of_ne_true fun hany => ?_
        obtain ⟨nameSpace, hsome⟩ := exists_namespaceOf? hany
        rw [hfirst] at hsome
        cases hsome
      simp [hany]
    | some nameSpace =>
      have hany : rule.takes theme key nameSpace = true →
          rule.namespaces.any (rule.takes theme key) = true := fun htakes =>
        any_takes_of_namespaceOf? (by rw [hfirst, Option.any_some, htakes])
      by_cases htakes : rule.takes theme key nameSpace = true
      · simp [htakes, hany htakes, hkey]
      · simp [htakes, hkey]

/-- The rule for font families passes over the weights, which its list leaves out. -/
theorem isSome_lookUp?_iff_mem_themeKeys_of_weight :
    let rule : UtilityRule := { ofProperties ["font-family"] with
      namespaces := ["--font"], ignored := ["--font-weight"] }
    let theme : Theme := ⟨.ofList [("--font-sans", "sans-serif"), ("--font-weight-bold", "700")]⟩
    let key : Text := "weight-bold"
    key ≠ [] ∧ rule.keywords.contains key = false ∧
      ((rule.lookUp? theme key).isSome = true ↔ key ∈ rule.themeKeys theme) := by
  intro rule theme key
  have hkey : key ≠ [] := by decide
  have hkeyword : rule.keywords.contains key = false := by decide
  exact ⟨hkey, hkeyword, (isSome_lookUp?_iff_mem_themeKeys hkey hkeyword).2
    ⟨by decide, by decide⟩⟩

/-- The stock rule for text sizes takes the line height that is nested in a size for a size of its
    own, as in `text-sm--line-height`. It is not listed. -/
theorem isSome_lookUp?_of_lineHeight :
    let rule : UtilityRule := { ofProperties ["font-size"] with
      namespaces := ["--text"], dataTypes := ["length", "percentage"],
      companions := [("line-height", "--line-height")] }
    let theme : Theme :=
      ⟨.ofList [("--text-sm", "0.875rem"), ("--text-sm--line-height", "1.25rem")]⟩
    let key : Text := "sm--line-height"
    Utility.dynamic "text" [rule, colorRule ["color"]] none false ∈ Utility.stockTypography ∧
      key.isNamedValue = true ∧ rule.keywords.contains key = false ∧
      (rule.lookUp? theme key).isSome = true ∧ key ∉ rule.themeKeys theme := by
  intro rule theme key
  have hnested : Text.hasInside "--" key = true := by decide
  refine ⟨.tail _ (.head _), by decide, by decide, by decide, fun hmem => ?_⟩
  rw [(mem_themeKeys.1 hmem).2.2] at hnested
  cases hnested

end UtilityRule

end UtilityCss
