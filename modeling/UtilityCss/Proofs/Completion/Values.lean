import Mathlib.Data.List.TakeWhile
import UtilityCss.Completion
import UtilityCss.Proofs.Compilation.Lookup
import UtilityCss.Proofs.Design.StockUtilities

/-!
# Offered values

The values that are offered for a stock utility are known to one of its rules, when the keys of the
theme are joined (`Theme.HasJoinedKeys`): a keyword and a key of the theme are looked up
(`UtilityRule.Regular.isSome_lookUp?_iff`), a percentage is a bare form, and a fraction is known as
a whole. Two numerals that a theme has no key for are no fraction that is looked up
(`UtilityRule.Regular.lookUp?_fraction`).

* `UtilityRule.Regular.of_mem_offeredValues`: what is known of an offered value;
* `Utility.Regular.find?_color`: the first rule that knows an offered color is the one that offers
  it, except for whole numerals at borders.
-/

namespace UtilityCss

/-- Whether the keys that stock utilities look up are letters and digits, joined by single hyphens
    or dots. -/
def Theme.HasJoinedKeys (theme : Theme) : Prop :=
  ∀ nameSpace ∈ stockNamespaces, ∀ key ∈ theme.keysUnder nameSpace, key.isJoined = true

/-! ## Percentages and fractions -/

theorem hyphen_mem_of_hasInside {s : Text} (h : Text.hasInside "--" s = true) : '-' ∈ s := by
  induction s with
  | nil => cases h
  | cons c s ih =>
    rw [Text.hasInside, Bool.or_eq_true] at h
    rcases h with h | h
    · obtain ⟨rest, hrest⟩ := List.isPrefixOf_iff_prefix.1 h
      rw [← hrest]
      exact List.mem_append_left rest (by decide)
    · exact .tail c (ih h)

theorem hyphen_not_mem_of_isNumeral {s : Text} (hs : s.isNamedValue = true)
    (h : s.isNumeral = true) : '-' ∉ s := by
  have hhyphen : isDecimal '-' = false := by decide
  have hbreak : '\n' ∉ s := fun hmem => by
    cases isNameChar_of_isNamedValue hs hmem
  rw [Text.isNumeral, Numeral.ofText?, Text.dropFinalNewline_eq_self hbreak] at h
  rw [← List.takeWhile_append_dropWhile (p := isDecimal) (l := s), List.mem_append]
  rintro (hmem | hmem)
  · have := List.mem_takeWhile_imp hmem
    rw [hhyphen] at this
    cases this
  · split at h
    · cases h
    · split at h
      · next hdrop =>
        rw [hdrop] at hmem
        cases hmem
      · next c places hdrop =>
        rw [hdrop] at hmem
        split at h
        · next hplaces =>
          simp only [Bool.and_eq_true, decide_eq_true_eq, List.all_eq_true] at hplaces
          obtain ⟨⟨rfl, _⟩, hplaces⟩ := hplaces
          rcases List.mem_cons.1 hmem with hmem | hmem
          · cases hmem
          · have := hplaces _ hmem
            rw [hhyphen] at this
            cases this
        · cases h

/-- The percentages that are offered are names, known as percentages and as alphas. -/
theorem of_mem_offeredPercentages (theme : Theme) {value : Text} (h : value ∈ offeredPercentages) :
    value.isJoined = true ∧ (∃ percentage, percentageValue? value = .ok (some percentage)) ∧
      ((Modifier.named value).alpha? theme).isSome = true := by
  have hall : ∀ value ∈ offeredPercentages, value.isJoined = true ∧
      (percentageValue? value).toOption.join.isSome = true ∧
      (Numeral.ofText? value).any isAlphaStep = true := by decide +kernel
  obtain ⟨hjoined, hpercentage, hstep⟩ := hall value h
  refine ⟨hjoined, ?_, ?_⟩
  · cases hvalue : percentageValue? value with
    | error fault =>
      rw [hvalue] at hpercentage
      cases hpercentage
    | ok percentage =>
      rw [hvalue] at hpercentage
      obtain ⟨text, rfl⟩ := Option.isSome_iff_exists.1 hpercentage
      exact ⟨text, rfl⟩
  · rw [Modifier.alpha?, if_pos hstep]
    cases theme.get? _ <;> rfl

namespace UtilityRule

variable {theme : Theme} {rule : UtilityRule} {key value : Text}

/-- A numeral with a slash and a numeral is not looked up. -/
theorem Regular.lookUp?_fraction (h : rule.Regular) (htheme : theme.HasJoinedKeys)
    (hkey : key.isNamedValue = true) {name fraction : Text} (hname : name.isNamedValue = true)
    (hfraction : fractionOf key (some (.named name)) = some fraction) :
    rule.lookUp? theme fraction = none := by
  obtain ⟨hnumerals, hfraction⟩ := Option.ite_none_right_eq_some.1 hfraction
  obtain ⟨hnumeral, hnumeral'⟩ := Bool.and_eq_true_iff.1 hnumerals
  cases hfraction
  have hjoined : Text.isJoined (key ++ '/' :: name) ≠ true := fun hjoined => by
    have hmem : '/' ∈ key ++ '/' :: name := List.mem_append_right _ (.head _)
    cases isNameChar_of_isNamedValue (Text.isNamedValue_of_isJoined hjoined) hmem
  have hnested : Text.hasInside "--" (key ++ '/' :: name) = false := by
    refine eq_false_of_ne_true fun hinside => ?_
    rcases List.mem_append.1 (hyphen_mem_of_hasInside hinside) with hmem | hmem
    · exact hyphen_not_mem_of_isNumeral hkey hnumeral hmem
    · rcases List.mem_cons.1 hmem with hmem | hmem
      · cases hmem
      · exact hyphen_not_mem_of_isNumeral hname hnumeral' hmem
  have hkeyword : rule.keywords.contains (key ++ '/' :: name) = false := by
    refine eq_false_of_ne_true fun hcontains => hjoined ?_
    exact h.keywords _ ((OrderedMap.contains_iff ..).1 hcontains)
  rw [← Option.not_isSome_iff_eq_none, isSome_lookUp?_iff hkeyword]
  intro htakes
  obtain ⟨nameSpace, hmem, htakes⟩ := List.any_eq_true.1 (any_takes_of_namespaceOf? htakes)
  refine hjoined (htheme nameSpace (h.namespaces nameSpace hmem) _ (Theme.mem_keysUnder.2
    ⟨(Bool.and_eq_true_iff.1 htakes).1, by simp, hnested⟩))

theorem Regular.findFraction?_eq_none (h : rule.Regular) (htheme : theme.HasJoinedKeys)
    (hkey : key.isNamedValue = true) {name fraction : Text} (hname : name.isNamedValue = true)
    (hfraction : fractionOf key (some (.named name)) = some fraction)
    (hform : .fraction ∉ rule.bare) : rule.findFraction? theme fraction = none := by
  have hform : rule.bare.contains .fraction = false :=
    eq_false_of_ne_true (mt List.contains_iff_mem.1 hform)
  rw [findFraction?, h.lookUp?_fraction htheme hkey hname hfraction, hform]
  rfl

/-! ## Values -/

/-- A joined key is looked up with success exactly if it is listed. -/
theorem Regular.isSome_lookUp?_iff (h : rule.Regular) (hkey : key.isJoined = true) :
    (rule.lookUp? theme key).isSome = true ↔
      key ∈ rule.keywords.keys ∨ key ∈ rule.themeKeys theme := by
  by_cases hkeyword : rule.keywords.contains key = true
  · obtain ⟨value, hvalue⟩ := Option.isSome_iff_exists.1 hkeyword
    rw [lookUp?, hvalue]
    exact iff_of_true rfl (.inl ((OrderedMap.contains_iff ..).1 hkeyword))
  · have hne : key ≠ [] := by
      rintro rfl
      cases hkey
    have hnone := mt (OrderedMap.contains_iff ..).2 hkeyword
    rw [or_iff_right hnone]
    refine (isSome_lookUp?_iff_mem_themeKeys hne (eq_false_of_ne_true hkeyword)).2 ⟨?_, ?_⟩
    · rw [readsNested, Text.hasInside_of_isJoined hkey, Bool.false_and]
    · rw [shadows, Text.hasInside_of_isJoined hkey, Bool.not_false, Bool.true_and]
      refine Bool.and_eq_false_imp.2 fun hfirst => ?_
      obtain ⟨nameSpace, hnamespace, hnot⟩ := (Option.any_eq_true ..).1 hfirst
      rw [Bool.not_eq_true'] at hnot
      rcases h.unshadowed with hlength | hignored
      · -- There is one namespace only, and it is passed over.
        have hmem := List.mem_of_find?_eq_some hnamespace
        obtain ⟨only, hnamespaces⟩ : ∃ only, rule.namespaces = [only] :=
          List.length_eq_one_iff.1 (Nat.le_antisymm hlength (List.length_pos_of_mem hmem))
        rw [hnamespaces, List.mem_singleton] at hmem
        rw [hnamespaces, List.any_cons, List.any_nil, Bool.or_false, ← hmem, hnot]
      · -- Nothing is passed over.
        have hcontains := List.find?_some hnamespace
        rw [takes, hcontains, ignores, hignored] at hnot
        cases hnot

/-- A value that is offered is a joined key that the rule knows, or a fraction. -/
theorem Regular.of_mem_offeredValues (h : rule.Regular) (htheme : theme.HasJoinedKeys)
    (hvalue : value ∈ rule.offeredValues theme) :
    (value.isJoined = true ∧ rule.knows theme value = true ∧
      (rule.namespaces ≠ [] ∨ .percentage ∈ rule.bare ∨ value ∈ rule.keywords.keys)) ∨
    .fraction ∈ rule.bare ∧ value ∈ offeredFractions := by
  rw [offeredValues, List.mem_append, List.mem_append, List.mem_append] at hvalue
  have hknows (hjoined : value.isJoined = true) :=
    @knows_iff theme value rule (Text.isNamedValue_of_isJoined hjoined) h.fillable
  rcases hvalue with ((hkeyword | hkey) | hfraction) | hpercentage
  · have hjoined := h.keywords value hkeyword
    exact .inl ⟨hjoined, (hknows hjoined).2 (.inl ((h.isSome_lookUp?_iff hjoined).2
      (.inl hkeyword))), .inr (.inr hkeyword)⟩
  · obtain ⟨htakes, _⟩ := mem_themeKeys.1 hkey
    have hjoined : value.isJoined = true := by
      obtain ⟨nameSpace, hnamespace, hkey⟩ := List.mem_flatMap.1 hkey
      exact htheme nameSpace (h.namespaces nameSpace hnamespace) value (List.mem_filter.1 hkey).1
    refine .inl ⟨hjoined, (hknows hjoined).2 (.inl ((h.isSome_lookUp?_iff hjoined).2
      (.inr hkey))), .inl ?_⟩
    intro hnil
    rw [hnil] at htakes
    cases htakes
  · obtain ⟨hform, hvalue⟩ := List.mem_ite_nil_right.1 hfraction
    exact .inr ⟨List.contains_iff_mem.1 hform, hvalue⟩
  · obtain ⟨hform, hvalue⟩ := List.mem_ite_nil_right.1 hpercentage
    have hform := List.contains_iff_mem.1 hform
    obtain ⟨hjoined, hpercentage, _⟩ := of_mem_offeredPercentages theme hvalue
    exact .inl ⟨hjoined, (hknows hjoined).2 (.inr ⟨.percentage, hform, hpercentage⟩),
      .inr (.inl hform)⟩

/-- A joined key that a rule with no other bare form than integers knows is offered for it, or it
    is a whole numeral. -/
theorem Regular.of_knows (h : rule.Regular) (hkey : key.isJoined = true)
    (hbare : rule.bare ⊆ [.integer]) (hknows : rule.knows theme key = true) :
    key ∈ rule.offeredValues theme ∨ rule.bare ≠ [] ∧ key.isWholeNumeral = true := by
  rcases (knows_iff (Text.isNamedValue_of_isJoined hkey) h.fillable).1 hknows with
    hlookUp | ⟨form, hform, value, hvalue⟩
  · left
    rw [offeredValues, List.append_assoc, List.mem_append, List.mem_append]
    exact .inl ((h.isSome_lookUp?_iff hkey).1 hlookUp)
  · right
    rw [List.mem_singleton.1 (hbare hform), BareForm.value?] at hvalue
    obtain ⟨hwhole, _⟩ := Option.ite_none_right_eq_some.1 (Except.ok.inj hvalue)
    exact ⟨List.ne_nil_of_mem hform, hwhole⟩

end UtilityRule

namespace Utility

variable {theme : Theme} {u : Utility} {rule : UtilityRule} {key : Text}

/-- The first rule of a utility for borders that knows a key is the one for colors, unless the key
    is a whole numeral. -/
theorem exists_find?_border (hu : u ∈ stockUtilities theme) (hname : u.name ∈ borderNames)
    (hkey : key.isJoined = true) :
    (∃ rule, u.rules.find? (·.knows theme key) = some rule ∧ rule.color = true) ↔
      u.rules.any (·.knows theme key) = true ∧ key.isWholeNumeral = false := by
  obtain ⟨_, _, pixels, colors, hrules, hcolor, hbare, hnamespaces, hkeywords, hcolors⟩ :=
    exists_border hu hname
  have hpixels : pixels.Regular := (regular_of_mem hu).rules pixels (by simp [hrules])
  have hlookUp : ¬ (pixels.lookUp? theme key).isSome = true := by
    rw [hpixels.isSome_lookUp?_iff hkey, hkeywords, UtilityRule.themeKeys, hnamespaces]
    simp
  have hknows : pixels.knows theme key = key.isWholeNumeral := by
    rw [Bool.eq_iff_iff, UtilityRule.knows_iff (Text.isNamedValue_of_isJoined hkey)
      hpixels.fillable, or_iff_right hlookUp, hbare]
    simp [BareForm.value?]
  rw [hrules, List.find?_cons, List.any_cons, hknows]
  cases key.isWholeNumeral with
  | true => simp [hcolor]
  | false =>
    cases hcolorsKnow : colors.knows theme key with
    | true => simp [hcolorsKnow, hcolors]
    | false => simp [hcolorsKnow]

/-- An offered modifier asks a rule for a color, and for nothing else. -/
theorem Regular.alpha_iff (hu : u.Regular) (hrule : rule ∈ u.rules) {modifier : Option Text}
    (hmodifier : ∀ m ∈ modifier, m ∈ offeredPercentages) :
    (∀ m, modifier.map Modifier.named = some m →
      (rule.color = true ∧ rule.properties ≠ []) ∧ (m.alpha? theme).isSome = true) ↔
    (modifier.isSome = true → rule.color = true) := by
  cases modifier with
  | none => simp
  | some m =>
    have halpha := (of_mem_offeredPercentages theme (hmodifier m rfl)).2.2
    have hproperties := fun hcolor => (hu.colors rule hrule hcolor).2.1
    simp only [Option.map_some, Option.some_inj, forall_eq', halpha, and_true,
      Option.isSome_some, true_imp_iff]
    exact and_iff_left_of_imp hproperties

/-- A rule for colors is the first to know a value that it is the first to offer, unless it is one
    of a utility for borders. -/
theorem Regular.find?_color (hu : u.Regular) {before after : List UtilityRule}
    (hrules : u.rules = before ++ rule :: after) (hcolor : rule.color = true)
    (hname : u.name ∉ borderNames) (hkey : key.isJoined = true)
    (hknows : rule.knows theme key = true)
    (hbefore : ∀ rule' ∈ before, key ∉ rule'.offeredValues theme) :
    u.rules.find? (·.knows theme key) = some rule := by
  have horder := hu.order
  rw [hrules, List.pairwise_append] at horder
  rw [hrules, List.find?_eq_some_iff_append]
  refine ⟨hknows, before, after, rfl, fun rule' hrule' => ?_⟩
  obtain ⟨_, hforms⟩ := horder.2.2 rule' hrule' rule (.head _) hcolor
  have hbare : rule'.bare = [] := hforms.resolve_right fun hborder => hname hborder.2
  have hregular := hu.rules rule' (hrules ▸ List.mem_append_left _ hrule')
  rw [Bool.not_eq_true']
  refine eq_false_of_ne_true fun hknows' => ?_
  rcases hregular.of_knows hkey (by simp [hbare]) hknows' with hoffered | ⟨hne, _⟩
  · exact hbefore rule' hrule' hoffered
  · exact hne hbare

end Utility

end UtilityCss
