import UtilityCss.Proofs.Completion.Names
import UtilityCss.Proofs.Design.Stock

/-!
# Offered classes

The classes to offer are put together from the names of utilities, the keywords of rules and the
keys of the theme, and never read. So what is read of such a class may be something else than what
it was put together from, as the longest name wins: with a color `x-brand` in the theme,
`border-x-brand` is the name `border` with a color, but is read as the utility `border-x` with the
color `brand`, which there may not be.

For themes with joined keys this is the only way in which an offered class fails to compile
(`Design.hides`). An offered modifier fails in one more way: a class that could be a color or a
width of a border is read as the width (`setsWidth`). Both are told exactly by
`Design.styles_offer_iff`.

* `Utility.Offers`: what is known of an offer;
* `Design.Reading.hides_iff`, `Design.Reading.setsWidth_iff`: what the two ways to fail say of the
  name and the key that are read;
* `Design.styles_value_iff`, `Design.styles_alpha_iff`: offers with a joined value, and their
  modifiers.
-/

namespace UtilityCss

/-! ## Hidden classes -/

/-- Whether a class could set the width of a border: it is the name of a utility for borders, by
    itself or with a whole numeral. -/
def setsWidth (raw : Text) : Bool :=
  borderNames.any fun name => raw = name ||
    (name ++ ['-']).isPrefixOf raw && Text.isWholeNumeral (raw.drop (name.length + 1))

/-- Whether a rule of a utility knows a key. -/
def Utility.knows (u : Utility) (theme : Theme) (key : Text) : Bool :=
  u.rules.any (·.knows theme key)

namespace Design

/-- Whether a utility with the given name knows a key. -/
def knows (d : Design) (name key : Text) : Bool :=
  (d.utilities.get name).any (·.utility.knows d.theme key)

/-- Whether a class begins with the name of a utility for some sides that does not know what
    follows. -/
def hides (d : Design) (raw : Text) : Bool :=
  sideNames.any fun name =>
    (name ++ ['-']).isPrefixOf raw && !d.knows name (raw.drop (name.length + 1))

end Design

theorem isPrefixOf_hyphen_iff {name raw : Text} :
    (name ++ ['-']).isPrefixOf raw = true ↔ ∃ key, raw = name ++ '-' :: key := by
  rw [List.isPrefixOf_iff_prefix]
  constructor
  · rintro ⟨key, rfl⟩
    exact ⟨key, by simp⟩
  · rintro ⟨key, rfl⟩
    exact ⟨key, by simp⟩

theorem drop_hyphen (name key : Text) : (name ++ '-' :: key).drop (name.length + 1) = key := by
  simp

theorem setsWidth_iff {raw : Text} : setsWidth raw = true ↔
    ∃ name ∈ borderNames, raw = name ∨
      ∃ key : Text, raw = name ++ '-' :: key ∧ key.isWholeNumeral = true := by
  simp only [setsWidth, List.any_eq_true, Bool.or_eq_true, Bool.and_eq_true, decide_eq_true_eq,
    isPrefixOf_hyphen_iff]
  refine exists_congr fun name => and_congr_right fun _ => or_congr_right ?_
  constructor
  · rintro ⟨⟨key, rfl⟩, hwhole⟩
    exact ⟨key, rfl, drop_hyphen name key ▸ hwhole⟩
  · rintro ⟨key, rfl, hwhole⟩
    exact ⟨⟨key, rfl⟩, (drop_hyphen name key).symm ▸ hwhole⟩

theorem Design.hides_eq_false_iff {d : Design} {raw : Text} : d.hides raw = false ↔
    ∀ name ∈ sideNames, ∀ key, raw = name ++ '-' :: key → d.knows name key = true := by
  simp only [hides, List.any_eq_false, Bool.and_eq_true, not_and, isPrefixOf_hyphen_iff,
    Bool.not_eq_true', Bool.not_eq_false]
  refine forall₂_congr fun name _ => ?_
  constructor
  · rintro h key rfl
    exact drop_hyphen name key ▸ h ⟨key, rfl⟩
  · rintro h ⟨key, rfl⟩
    exact (drop_hyphen name key).symm ▸ h key rfl

/-- A sign hides nothing. -/
theorem Design.hides_signed (d : Design) (raw : Text) : d.hides ('-' :: raw) = false := by
  refine hides_eq_false_iff.2 fun name hname key hsplit => ?_
  obtain ⟨u, hu, rfl, _⟩ := Utility.exists_of_name_mem d.theme (.inl hname)
  refine absurd ?_ ((Utility.regular_of_mem hu).name.head?_append_ne ('-' :: key))
  rw [← hsplit]
  rfl

/-! ## Offers -/

/-- A class that is offered for a utility, with its modifiers: the name by itself, or with a value
    that a rule offers. No rule in front of it offers a value without a sign. -/
inductive Utility.Offers (theme : Theme) (u : Utility) : ClassOffer → Prop
  | bare : u.standsBare = true → Offers theme u ⟨u.name, []⟩
  | valued {before after : List UtilityRule} {rule : UtilityRule} {value : Text}
      {negative : Bool} : u.rules = before ++ rule :: after →
      value ∈ rule.offeredValues theme → (negative = true → u.signed = true) →
      (negative = false → ∀ rule' ∈ before, value ∉ rule'.offeredValues theme) →
      Offers theme u ⟨signText negative ++ (u.name ++ '-' :: value),
        if rule.color then offeredPercentages else []⟩

/-- Of the elements with one key, the first is kept. -/
theorem mem_eraseDupsBy_iff {α β : Type} [BEq β] [LawfulBEq β] {f : α → β} {x : α} :
    (l : List α) →
      (x ∈ l.eraseDupsBy (fun a b => f a == f b) ↔ l.find? (fun a => f a == f x) = some x)
  | [] => by simp [List.eraseDupsBy, List.eraseDupsBy.loop]
  | a :: l => by
    rw [List.eraseDupsBy_cons, List.mem_cons, mem_eraseDupsBy_iff, List.find?_cons]
    by_cases ha : f a = f x
    · -- What has the key of the first element is not kept behind it.
      have hnone : (l.filter fun b => decide ((f b == f a) = false)).find? (fun b => f b == f x)
          ≠ some x := by
        intro h
        obtain ⟨_, hne⟩ := List.mem_filter.1 (List.mem_of_find?_eq_some h)
        simp [ha] at hne
      rw [beq_iff_eq.2 ha, or_iff_left hnone, Option.some_inj, eq_comm]
    · have hkept : (l.filter fun b => decide ((f b == f a) = false)).find? (fun b => f b == f x)
          = l.find? fun b => f b == f x := by
        rw [List.find?_filter]
        congr 1
        funext b
        by_cases hb : f b = f x
        · simp [hb, Ne.symm ha]
        · simp [hb]
      have hx : x ≠ a := fun h => ha (h ▸ rfl)
      rw [hkept, beq_false_of_ne ha, or_iff_right hx]
termination_by l => l.length
decreasing_by exact Nat.lt_succ_of_le (List.length_filter_le _ _)

theorem Utility.offers_of_find? {theme : Theme} {u : Utility} {o : ClassOffer}
    (h : (u.offeredClasses theme).find? (·.name == o.name) = some o) : u.Offers theme o := by
  cases u with
  | static name declarations =>
    rw [List.mem_singleton.1 (List.mem_of_find?_eq_some h)]
    exact .bare rfl
  | dynamic name rules default signed =>
    rw [offeredClasses, List.find?_append] at h
    rcases Option.or_eq_some_iff.1 h with h | ⟨_, h⟩
    · obtain ⟨hdefault, ho⟩ := List.mem_ite_nil_right.1 (List.mem_of_find?_eq_some h)
      rw [List.mem_singleton.1 ho]
      exact .bare hdefault
    · rw [List.find?_flatMap, List.findSome?_eq_some_iff] at h
      obtain ⟨before, rule, after, hrules, hfind, hbefore⟩ := h
      obtain ⟨value, hvalue, ho⟩ := List.mem_flatMap.1 (List.mem_of_find?_eq_some hfind)
      -- The class without a sign is among the offers of every rule that offers the value.
      have hpositive (rule' : UtilityRule) (hrule' : rule' ∈ before)
          (ho : o.name = name ++ '-' :: value) : value ∉ rule'.offeredValues theme := by
        intro hvalue'
        refine List.find?_eq_none.1 (hbefore rule' hrule')
          ⟨o.name, if rule'.color then offeredPercentages else []⟩
          (List.mem_flatMap.2 ⟨value, hvalue', ?_⟩) (beq_self_eq_true o.name)
        rw [ho]
        split
        · exact .head _
        · exact .head _
      split at ho
      · next hsigned =>
        have hsigned := (Bool.and_eq_true_iff.1 hsigned).1
        rcases List.mem_cons.1 ho with rfl | ho
        · exact @Offers.valued theme (dynamic name rules default signed) before after rule value
            false hrules hvalue nofun fun _ rule' hrule' => hpositive rule' hrule' rfl
        · rw [List.mem_singleton.1 ho]
          exact @Offers.valued theme (dynamic name rules default signed) before after rule value
            true hrules hvalue (fun _ => hsigned) nofun
      · rw [List.mem_singleton.1 ho] at hpositive ⊢
        exact @Offers.valued theme (dynamic name rules default signed) before after rule value
          false hrules hvalue nofun fun _ rule' hrule' => hpositive rule' hrule' rfl

namespace Design

open Utility

variable {d : Design} (hd : d.utilities = (UtilityTable.stock d.theme).freeze)
include hd

/-- Of the offers with one name, the first is made. -/
theorem mem_classOffers {o : ClassOffer} : o ∈ d.classOffers ↔
    ((stockUtilities d.theme).flatMap (offeredClasses d.theme)).find? (·.name == o.name)
      = some o := by
  rw [classOffers, mem_eraseDupsBy_iff, ← map_utility_entries hd, List.flatMap_map]

/-- An offer is made by a utility. -/
theorem exists_offer {o : ClassOffer} (ho : o ∈ d.classOffers) :
    ∃ u ∈ stockUtilities d.theme, u.Offers d.theme o := by
  rw [mem_classOffers hd, List.find?_flatMap] at ho
  obtain ⟨u, hu, hfind⟩ := List.exists_of_findSome?_eq_some ho
  exact ⟨u, hu, offers_of_find? hfind⟩

/-! ## The two ways to fail -/

section Reading

variable {u v : Utility} {value key : Text}

theorem Reading.knows_iff (h : d.Reading u value v key) :
    d.knows v.name key = true ↔ v.knows d.theme key = true := by
  rw [knows, List.any_eq_true]
  refine (@exists_mem_get d hd v.name (·.knows d.theme key = true)).trans
    ⟨?_, fun hknows => ⟨v, h.mem, rfl, hknows⟩⟩
  rintro ⟨w, hw, hname, hknows⟩
  obtain ⟨rule, hrule, _⟩ := List.any_eq_true.1 hknows
  rwa [Utility.knows,
    ← (rules_eq_of_name hw h.mem (takesValue_of_mem_rules hrule) h.takesValue hname).1]

/-- A class is hidden exactly if the utility that is read does not know its key. -/
theorem Reading.hides_iff (h : d.Reading u value v key) (hknows : u.knows d.theme value = true) :
    d.hides (u.name ++ '-' :: value) = false ↔ v.knows d.theme key = true := by
  rw [h.split, ← h.knows_iff hd, hides_eq_false_iff]
  constructor
  · intro hhides
    rcases h.same_or_side with ⟨rfl, rfl⟩ | ⟨_, hside, _⟩
    · exact (h.knows_iff hd).2 hknows
    · exact hhides v.name hside key rfl
  · rintro hknown name hname key' hsplit
    obtain ⟨w, hw, rfl, htakes⟩ := exists_of_name_mem d.theme (.inl hname)
    rcases eq_or_longer_of_longestRoot hd hw htakes h.longest hsplit with
      ⟨hname', rfl⟩ | ⟨rest, hname', _⟩
    · rwa [← hname']
    · -- No name goes on where that of a utility for some sides ends.
      exact absurd hname (name_mem_sideNames hw h.mem htakes h.takesValue hname').2.1

/-- A class could set a width exactly if its key is a whole numeral, and the utility that is read
    is for borders. -/
theorem Reading.setsWidth_iff (h : d.Reading u value v key)
    (hbare : d.utilities.standsBare (u.name ++ '-' :: value) = false) :
    setsWidth (u.name ++ '-' :: value) = true ↔
      v.name ∈ borderNames ∧ key.isWholeNumeral = true := by
  rw [h.split] at hbare ⊢
  rw [UtilityCss.setsWidth_iff]
  constructor
  · rintro ⟨name, hname, hraw⟩
    obtain ⟨w, hw, rfl, htakes⟩ := exists_of_name_mem d.theme (.inr hname)
    rcases hraw with hraw | ⟨key', hsplit, hwhole⟩
    · obtain ⟨_, hbare', _⟩ := exists_border hw hname
      rw [hraw, (standsBare_iff hd).2 ⟨w, hw, rfl, hbare'⟩] at hbare
      cases hbare
    · rcases eq_or_longer_of_longestRoot hd hw htakes h.longest hsplit with
        ⟨hname', rfl⟩ | ⟨rest, hname', rfl⟩
      · exact ⟨hname' ▸ hname, hwhole⟩
      · -- The hyphen in front of the key that is read is in no numeral.
        have hchars : ∀ c ∈ v.name ++ '-' :: key, isNameChar c = true :=
          isNameChar_front (regular_of_mem h.mem).name (Text.isNamedValue_of_isJoined h.joined)
        rw [hsplit] at hchars
        have hbreak : '\n' ∉ rest ++ '-' :: key := fun hmem => by
          cases hchars _ (List.mem_append_right _ (.tail _ hmem))
        rw [Text.isWholeNumeral, Text.dropFinalNewline_eq_self hbreak, Bool.and_eq_true,
          List.all_append, List.all_cons] at hwhole
        have hhyphen : isDecimal '-' = false := by decide
        simp [hhyphen] at hwhole
  · rintro ⟨hname, hwhole⟩
    exact ⟨v.name, hname, .inr ⟨key, rfl, hwhole⟩⟩

end Reading

/-! ## Offered classes -/

/-- A name that stands bare compiles, and is not hidden. -/
theorem styles_bare_iff_hides {u : Utility} (hu : u ∈ stockUtilities d.theme)
    (hbare : u.standsBare = true) : d.Styles u.name ↔ d.hides u.name = false := by
  refine iff_of_true (styles_bare hd hu hbare)
    (hides_eq_false_iff.2 fun name hname key hsplit => ?_)
  exact absurd ⟨key, by simp [hsplit]⟩ (not_prefix_of_bare hu hbare hname)

/-- The width that the name of a utility for borders stands for takes no alpha. -/
theorem styles_bare_alpha_iff {u : Utility} (hu : u ∈ stockUtilities d.theme)
    (hname : u.name ∈ borderNames) {m : Text} (hm : m ∈ offeredPercentages) :
    d.Styles (u.name ++ '/' :: m) ↔ d.hides u.name = false ∧ setsWidth u.name = false := by
  have hm := Text.isNamedValue_of_isJoined (of_mem_offeredPercentages d.theme hm).1
  refine iff_of_false (not_styles_bare hd hu hname hm) fun h => ?_
  rw [setsWidth_iff.2 ⟨u.name, hname, .inl rfl⟩] at h
  cases h.2

section Value

variable {u : Utility} {before after : List UtilityRule} {rule : UtilityRule} {value : Text}
  (htheme : d.theme.HasJoinedKeys) (hu : u ∈ stockUtilities d.theme)
  (hrules : u.rules = before ++ rule :: after) (hvalue : value.isJoined = true)
  (hknows : rule.knows d.theme value = true)
  (hbare : d.utilities.standsBare (u.name ++ '-' :: value) = false)
include htheme hu hrules hvalue hknows hbare

/-- A name with a joined value that a rule knows compiles unless it is hidden. -/
theorem styles_value_iff {negative : Bool} (hsigned : negative = true → u.signed = true) :
    d.Styles (signText negative ++ (u.name ++ '-' :: value)) ↔
      d.hides (signText negative ++ (u.name ++ '-' :: value)) = false := by
  have hrule : rule ∈ u.rules := hrules ▸ List.mem_append_right _ (.head _)
  have hknown : u.knows d.theme value = true := List.any_eq_true.2 ⟨rule, hrule, hknows⟩
  obtain ⟨v, key, hread⟩ := exists_reading hd hu (takesValue_of_mem_rules hrule) hvalue
  have hsigned' : negative = true → v.signed = true := fun hnegative => by
    rw [(hread.eq_of_signed (hsigned hnegative)).1]
    exact hsigned hnegative
  have hhides : d.hides (signText negative ++ (u.name ++ '-' :: value)) = false ↔
      v.knows d.theme key = true := by
    cases negative with
    | false => exact hread.hides_iff hd hknown
    | true =>
      obtain ⟨rfl, rfl⟩ := hread.eq_of_signed (hsigned rfl)
      exact iff_of_true (d.hides_signed _) hknown
  have hstyles := @styles_named d hd v key negative none htheme hread.mem hread.takesValue
    hread.joined (by simp) (hread.split ▸ hbare) hread.longest
  rw [renderModifier, List.append_nil, ← hread.split] at hstyles
  have hfind : (∃ rule, v.rules.find? (·.knows d.theme key) = some rule) ↔
      v.knows d.theme key = true := by
    rw [← Option.isSome_iff_exists, List.find?_isSome, Utility.knows, List.any_eq_true]
  rw [hstyles, hhides, ← hfind]
  exact exists_congr fun _ => and_iff_left ⟨hsigned', by simp⟩

/-- A name with a color that a rule is the first to offer takes an alpha unless it is hidden, or
    could set a width. -/
theorem styles_alpha_iff (hcolor : rule.color = true)
    (hbefore : ∀ rule' ∈ before, value ∉ rule'.offeredValues d.theme) {m : Text}
    (hm : m ∈ offeredPercentages) :
    d.Styles (u.name ++ '-' :: value ++ '/' :: m) ↔
      d.hides (u.name ++ '-' :: value) = false ∧ setsWidth (u.name ++ '-' :: value) = false := by
  have hrule : rule ∈ u.rules := hrules ▸ List.mem_append_right _ (.head _)
  have hknown : u.knows d.theme value = true := List.any_eq_true.2 ⟨rule, hrule, hknows⟩
  obtain ⟨v, key, hread⟩ := exists_reading hd hu (takesValue_of_mem_rules hrule) hvalue
  have hfractions : ∀ rule' ∈ v.rules, .fraction ∉ rule'.bare := by
    rcases hread.same_or_side with ⟨rfl, _⟩ | ⟨_, _, _, hcolors⟩
    · exact ((regular_of_mem hu).colors rule hrule hcolor).2.2
    · obtain ⟨_, _, _, colors, hrules', _, _, _, _, hcolors'⟩ :=
        exists_border hread.mem (.tail _ (hcolors rule hrule hcolor))
      exact ((regular_of_mem hread.mem).colors colors (by simp [hrules']) hcolors').2.2
  have hstyles : d.Styles (u.name ++ '-' :: value ++ '/' :: m) ↔
      ∃ rule, v.rules.find? (·.knows d.theme key) = some rule ∧ rule.color = true := by
    have h := @styles_named d hd v key false (some m) htheme hread.mem hread.takesValue
      hread.joined (fun _ h => Option.some.inj h ▸ ⟨hm, hfractions⟩) (hread.split ▸ hbare)
      hread.longest
    rw [← hread.split] at h
    refine h.trans (exists_congr fun rule' => and_congr_right fun _ => ?_)
    exact ⟨fun h => h.2 rfl, fun h => ⟨nofun, fun _ => h⟩⟩
  rw [hstyles, hread.hides_iff hd hknown, ← Bool.not_eq_true (setsWidth _),
    hread.setsWidth_iff hd hbare]
  by_cases hborder : v.name ∈ borderNames
  · rw [exists_find?_border hread.mem hborder hread.joined, and_iff_right hborder,
      Bool.not_eq_true]
    rfl
  · -- Only borders are read as something else than what they are offered for.
    obtain ⟨rfl, rfl⟩ := hread.same_or_side.resolve_right fun h =>
      hborder (.tail _ (h.2.2.2 rule hrule hcolor))
    have hfind := (regular_of_mem hu).find?_color hrules hcolor hborder hvalue hknows hbefore
    exact iff_of_true ⟨rule, hfind, hcolor⟩ ⟨hknown, fun h => hborder h.1⟩

end Value

/-- A fraction that is offered compiles, and is not hidden. -/
theorem styles_fraction_iff {u : Utility} {rule : UtilityRule} {value : Text} {negative : Bool}
    (htheme : d.theme.HasJoinedKeys) (hu : u ∈ stockUtilities d.theme) (hrule : rule ∈ u.rules)
    (hsigned : negative = true → u.signed = true) (hform : .fraction ∈ rule.bare)
    (hvalue : value ∈ offeredFractions) :
    d.Styles (signText negative ++ (u.name ++ '-' :: value)) ↔
      d.hides (signText negative ++ (u.name ++ '-' :: value)) = false := by
  have hall : ∀ value ∈ offeredFractions, ∃ key ∈ ["1".toList, "2".toList, "3".toList],
      ∃ m ∈ ["2".toList, "3".toList, "4".toList], value = key ++ '/' :: m ∧
        Text.isJoined key = true ∧ '-' ∉ key ∧ Text.isNamedValue m = true ∧
        fractionOf key (some (.named m)) = some value ∧
        (fractionValue? value).isSome = true := by decide +kernel
  refine iff_of_true ?_ ?_
  · obtain ⟨key, hmem, m, _, hsplit, hkey, hhyphen, hm, hfraction, hsome⟩ := hall value hvalue
    have htakes := takesValue_of_mem_rules hrule
    have hbare : d.utilities.standsBare (u.name ++ '-' :: key) = false :=
      eq_false_of_ne_true fun hbare => by
        obtain ⟨v, hv, hname, hbare⟩ := (standsBare_iff hd).1 hbare
        exact (name_mem_borderSides_of_bare hu hv htakes hbare hname).1 hmem
    obtain ⟨v, key', hread⟩ := exists_reading hd hu htakes hkey
    obtain ⟨rfl, rfl⟩ := hread.same_or_side.resolve_right fun h => hhyphen h.1
    have h := styles_of_fraction hd htheme hu hrule hsigned hform
      (Text.isNamedValue_of_isJoined hkey) hm hfraction hsome hbare hread.longest
    rwa [List.append_assoc, List.cons_append, ← hsplit] at h
  · cases negative with
    | true => exact d.hides_signed _
    | false =>
      refine hides_eq_false_iff.2 fun name hname key hsplit => ?_
      change u.name ++ '-' :: value = _ at hsplit
      exact absurd ⟨key, by simp [hsplit]⟩
        (not_prefix_of_fraction hu hrule hform hname hvalue)

omit hd in
/-- *Which offered classes compile*: in a design with the stock tables for a theme with joined
    keys, an offered class compiles exactly if it does not begin with the name of a utility for
    some sides that does not know what follows. With an offered modifier, it compiles exactly if
    besides it could not set the width of a border. -/
theorem styles_offer_iff {theme : Theme} {settings : Settings} {d : Design} {o : ClassOffer}
    (hd : build theme none none settings = .ok d) (htheme : theme.HasJoinedKeys)
    (ho : o ∈ d.classOffers) :
    (d.Styles o.name ↔ d.hides o.name = false) ∧
      ∀ m ∈ o.modifiers,
        (d.Styles (o.name ++ '/' :: m) ↔ d.hides o.name = false ∧ setsWidth o.name = false) := by
  obtain ⟨rfl, hutilities, _, _⟩ := parts_of_build hd
  replace hd : d.utilities = (UtilityTable.stock d.theme).freeze := hutilities
  obtain ⟨u, hu, hoffer⟩ := exists_offer hd ho
  have hregular := regular_of_mem hu
  cases hoffer with
  | bare hbare => exact ⟨styles_bare_iff_hides hd hu hbare, nofun⟩
  | @valued before after rule value negative hrules hvalue hsigned hbefore =>
    have hrule : rule ∈ u.rules := hrules ▸ List.mem_append_right _ (.head _)
    have hunsigned (hcolor : rule.color = true) : negative = false :=
      eq_false_of_ne_true fun hnegative => by
        have h := (hregular.colors rule hrule hcolor).1
        rw [hsigned hnegative] at h
        cases h
    -- Only a rule for colors has modifiers to offer.
    suffices h : (d.Styles (signText negative ++ (u.name ++ '-' :: value)) ↔
          d.hides (signText negative ++ (u.name ++ '-' :: value)) = false) ∧
        (rule.color = true → ∀ m ∈ offeredPercentages,
          (d.Styles (u.name ++ '-' :: value ++ '/' :: m) ↔
            d.hides (u.name ++ '-' :: value) = false ∧
              setsWidth (u.name ++ '-' :: value) = false)) by
      refine ⟨h.1, fun m hm => ?_⟩
      obtain ⟨hcolor, hm⟩ := List.mem_ite_nil_right.1 hm
      rw [hunsigned hcolor]
      exact h.2 hcolor m hm
    rcases (hregular.rules rule hrule).of_mem_offeredValues htheme hvalue with
      ⟨hjoined, hknows, hsource⟩ | ⟨hform, hfraction⟩
    · cases hbare : d.utilities.standsBare (u.name ++ '-' :: value) with
      | false =>
        exact ⟨styles_value_iff hd htheme hu hrules hjoined hknows hbare hsigned,
          fun hcolor m hm => styles_alpha_iff hd htheme hu hrules hjoined hknows hbare hcolor
            (hbefore (hunsigned hcolor)) hm⟩
      | true =>
        -- The class is read as the name for some sides of a border.
        obtain ⟨v, hv, hname, hbare⟩ := (standsBare_iff hd).1 hbare
        obtain ⟨hside, hunsigned⟩ : v.name ∈ borderSides ∧ u.signed = false := by
          refine (name_mem_borderSides_of_bare hu hv (takesValue_of_mem_rules hrule) hbare
            hname).2.resolve_right fun h => ?_
          obtain ⟨hnamespaces, hpercentage, hkeyword⟩ := h rule hrule
          exact hsource.elim (absurd hnamespaces) (Or.rec hpercentage hkeyword)
        have hnegative : negative = false := eq_false_of_ne_true fun hnegative => by
          rw [hsigned hnegative] at hunsigned
          cases hunsigned
        rw [hnegative, ← hname]
        exact ⟨styles_bare_iff_hides hd hv hbare, fun _ m hm =>
          styles_bare_alpha_iff hd hv (.tail _ hside) hm⟩
    · exact ⟨styles_fraction_iff hd htheme hu hrule hsigned hform hfraction, fun hcolor =>
        absurd hform ((hregular.colors rule hrule hcolor).2.2 rule hrule)⟩

omit hd

/-- Without breakpoints, the stock tables build. -/
theorem build_eq_ok_of_no_breakpoints {theme : Theme} {settings : Settings}
    (h : theme.keysUnder "--breakpoint" = []) : build theme none none settings
      = .ok ⟨theme, .stock theme, ⟨VariantTable.stockDefinitions theme, true⟩, settings, rfl,
        rfl⟩ := by
  rw [build, VariantTable.stock_eq_ok_of_nodup h (by decide +kernel) (by decide +kernel)]
  rfl

/-- A color on two sides of a border, which is known there. -/
theorem styles_offer_iff_of_brand :
    let theme : Theme := ⟨.ofList [("--color-brand", "#123456")]⟩
    let d : Design := ⟨theme, .stock theme, ⟨VariantTable.stockDefinitions theme, true⟩, .stock,
      rfl, rfl⟩
    let o : ClassOffer := ⟨"border-x-brand", offeredPercentages⟩
    build theme none none .stock = .ok d ∧ theme.HasJoinedKeys ∧ o ∈ d.classOffers ∧
      "50".toList ∈ o.modifiers ∧ d.Styles "border-x-brand" ∧ d.Styles "border-x-brand/50" := by
  intro theme d o
  have hd : build theme none none .stock = .ok d :=
    build_eq_ok_of_no_breakpoints (by decide +kernel)
  have htheme : ∀ nameSpace ∈ stockNamespaces, ∀ key ∈ theme.keysUnder nameSpace,
      key.isJoined = true := by decide +kernel
  have ho : o ∈ d.classOffers := by
    rw [mem_classOffers rfl]
    decide +kernel
  have hm : "50".toList ∈ o.modifiers := by decide +kernel
  have hhides : d.hides o.name = false := by decide +kernel
  have hwidth : setsWidth o.name = false := by decide
  obtain ⟨hname, hmodifiers⟩ := styles_offer_iff hd htheme ho
  exact ⟨hd, htheme, ho, hm, hname.2 hhides, (hmodifiers "50" hm).2 ⟨hhides, hwidth⟩⟩

/-- A color whose name begins like two sides is offered for a border, and does not compile. -/
theorem not_styles_of_side :
    let theme : Theme := ⟨.ofList [("--color-x-brand", "#123456")]⟩
    let d : Design := ⟨theme, .stock theme, ⟨VariantTable.stockDefinitions theme, true⟩, .stock,
      rfl, rfl⟩
    build theme none none .stock = .ok d ∧ theme.HasJoinedKeys ∧
      ⟨"border-x-brand", offeredPercentages⟩ ∈ d.classOffers ∧ ¬ d.Styles "border-x-brand" := by
  intro theme d
  have hd : build theme none none .stock = .ok d :=
    build_eq_ok_of_no_breakpoints (by decide +kernel)
  have htheme : ∀ nameSpace ∈ stockNamespaces, ∀ key ∈ theme.keysUnder nameSpace,
      key.isJoined = true := by decide +kernel
  have hread : d.candidateOf? "border-x-brand" = some
      { raw := "border-x-brand", kind := .functional, root := "border-x",
        value := some (.named "brand" none), modifier := none, variants := [],
        important := false, negative := false, property := none } := by
    subst theme d
    decide +kernel
  have hrefused : d.compilationOf "border-x-brand"
      = .ok (.refused (.unknownValue "border-x" "brand")) := by
    rw [compilationOf, hread]
    rfl
  refine ⟨hd, htheme, ?_, ?_⟩
  · rw [mem_classOffers rfl]
    decide +kernel
  · rintro ⟨node, source, h⟩
    rw [hrefused] at h
    cases h

end Design

end UtilityCss
