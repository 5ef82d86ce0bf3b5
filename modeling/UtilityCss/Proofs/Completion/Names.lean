import UtilityCss.Proofs.Completion.Values

/-!
# Classes of the stock utilities

When a class that is a name with a key compiles in a design with the stock utilities, for a theme
with joined keys.

* `Design.styles_bare`, `Design.not_styles_bare`: a name that stands bare compiles, and takes no
  alpha if it is that of a border;
* `Design.styles_named`: a name with a key is up to the first rule that knows the key;
* `Design.exists_reading`: which name and key a class is read as, when it is put together from a
  name and a value. It need not be these two, as a longer name wins (`Design.Reading`).
-/

namespace UtilityCss

/-- Of two names in front of hyphens, one is the other or goes on where it ends. -/
theorem eq_or_longer {name key name' key' : Text}
    (h : name ++ '-' :: key = name' ++ '-' :: key') (hle : name.length ≤ name'.length) :
    name' = name ∧ key' = key ∨ ∃ rest, name' = name ++ '-' :: rest ∧
      key = rest ++ '-' :: key' := by
  rcases List.append_eq_append_iff.1 h with ⟨rest, rfl, hkey⟩ | ⟨rest, rfl, hkey⟩
  · cases rest with
    | nil => exact .inl ⟨List.append_nil _, (List.cons.inj hkey).2.symm⟩
    | cons c rest =>
      obtain ⟨rfl, rfl⟩ := List.cons.inj hkey
      exact .inr ⟨rest, rfl, rfl⟩
  · have hnil : rest = [] := by
      rw [← List.length_eq_zero_iff]
      rw [List.length_append] at hle
      omega
    rw [hnil] at hkey
    exact .inl ⟨by rw [hnil, List.append_nil], (List.cons.inj hkey).2⟩

namespace Design

open Utility

variable {d : Design} (hd : d.utilities = (UtilityTable.stock d.theme).freeze)
include hd

/-- The entries of the table are the stock utilities. -/
theorem map_utility_entries : d.utilities.entries.map (·.utility) = stockUtilities d.theme := by
  rw [hd, UtilityTable.freeze, UtilityTable.stock, UtilityTable.ofUtilities, List.map_map]
  exact List.zipIdx_map_fst 0 _

theorem exists_mem_get {name : Text} {P : Utility → Prop} :
    (∃ e ∈ d.utilities.get name, P e.utility) ↔
      ∃ u ∈ stockUtilities d.theme, u.name = name ∧ P u := by
  rw [← map_utility_entries hd]
  simp only [UtilityTable.get, List.mem_filter, decide_eq_true_eq, List.mem_map]
  constructor
  · rintro ⟨e, ⟨he, hname⟩, hP⟩
    exact ⟨e.utility, ⟨e, he, rfl⟩, hname, hP⟩
  · rintro ⟨_, ⟨e, he, rfl⟩, hname, hP⟩
    exact ⟨e, ⟨he, hname⟩, hP⟩

theorem takesValue_iff {name : Text} : d.utilities.takesValue name = true ↔
    ∃ u ∈ stockUtilities d.theme, u.name = name ∧ u.takesValue = true := by
  rw [UtilityTable.takesValue, List.any_eq_true]
  exact @exists_mem_get d hd name (·.takesValue = true)

theorem standsBare_iff {name : Text} : d.utilities.standsBare name = true ↔
    ∃ u ∈ stockUtilities d.theme, u.name = name ∧ u.standsBare = true := by
  rw [UtilityTable.standsBare, List.any_eq_true]
  exact @exists_mem_get d hd name (·.standsBare = true)

theorem isSound_of_stock : d.isSound = true := by
  refine List.all_eq_true.2 fun e he => ?_
  have hmem := List.mem_map_of_mem (f := UtilityEntry.utility) he
  rw [map_utility_entries hd] at hmem
  exact (regular_of_mem hmem).sound

/-! ## Names by themselves -/

/-- Whether a name that stands bare compiles is up to the utilities with that name. -/
theorem styles_bare_iff {u : Utility} (hu : u ∈ stockUtilities d.theme)
    (hbare : u.standsBare = true) {modifier : Option Text}
    (hmodifier : ∀ m ∈ modifier, m.isNamedValue = true) :
    ∃ c : Candidate, c.value = none ∧ c.negative = false ∧ c.modifier = modifier.map .named ∧
      (d.Styles (u.name ++ renderModifier modifier) ↔
        ∃ v ∈ stockUtilities d.theme, v.name = u.name ∧
          ∃ result, v.assign d.theme d.settings c = .ok result) := by
  have hread := @candidateOf?_bare d u.name modifier (regular_of_mem hu).name
    ((standsBare_iff hd).2 ⟨u, hu, rfl, hbare⟩) hmodifier
  have hstyles := styles_of_candidateOf? (isSound_of_stock hd) hread rfl nofun
  exact ⟨_, rfl, rfl, rfl, hstyles.trans (@exists_mem_get d hd u.name
    fun v => ∃ result, v.assign d.theme d.settings _ = .ok result)⟩

/-- A name that stands bare compiles. -/
theorem styles_bare {u : Utility} (hu : u ∈ stockUtilities d.theme) (hbare : u.standsBare = true) :
    d.Styles u.name := by
  obtain ⟨c, hvalue, hnegative, hmodifier, hiff⟩ :=
    @styles_bare_iff d hd u hu hbare none (by simp)
  rw [renderModifier, List.append_nil] at hiff
  refine hiff.2 ⟨u, hu, rfl, ?_⟩
  have hsound := (regular_of_mem hu).sound
  cases u with
  | static name declarations => exact (exists_assign_static hvalue hnegative).2 hmodifier
  | dynamic name rules default signed =>
    obtain ⟨value, rfl⟩ := Option.isSome_iff_exists.1 hbare
    cases rules with
    | nil => cases hsound
    | cons rule rules =>
      have htakes : Takes d.theme name (rule :: rules) (some value) c.value rule
          ⟨⟨value, []⟩, false⟩ := hvalue ▸ .default
      refine (exists_assign_of_takes htakes).2 ⟨fun h => ?_, fun _ m hm => ?_⟩
      · rw [hnegative] at h
        cases h
      · rw [hmodifier] at hm
        cases hm

/-- The width that the name of a utility for borders stands for takes no alpha. -/
theorem not_styles_bare {u : Utility} (hu : u ∈ stockUtilities d.theme)
    (hname : u.name ∈ borderNames) {m : Text} (hm : m.isNamedValue = true) :
    ¬ d.Styles (u.name ++ '/' :: m) := by
  obtain ⟨_, hbare, _⟩ := exists_border hu hname
  obtain ⟨c, hvalue, _, hmodifier, hiff⟩ :=
    @styles_bare_iff d hd u hu hbare (some m) fun _ h => Option.some.inj h ▸ hm
  intro h
  obtain ⟨v, hv, hname', hresult⟩ := hiff.1 h
  obtain ⟨htakes, hbare', pixels, colors, hrules, hcolor, _⟩ := exists_border hv (hname' ▸ hname)
  cases v with
  | static => cases htakes
  | dynamic name rules default signed =>
    cases hrules
    obtain ⟨value, rfl⟩ := Option.isSome_iff_exists.1 hbare'
    have htakes : Takes d.theme name [pixels, colors] (some value) c.value pixels
        ⟨⟨value, []⟩, false⟩ := hvalue ▸ .default
    have hcolor' := (((exists_assign_of_takes htakes).1 hresult).2 rfl _ hmodifier).1.1
    rw [hcolor] at hcolor'
    cases hcolor'

/-! ## Names with a key -/

/-- Whether a name with a key compiles is up to the utilities with that name. -/
theorem styles_named_iff {u : Utility} {key : Text} {negative : Bool} {modifier : Option Text}
    (hu : u ∈ stockUtilities d.theme) (hkey : key.isNamedValue = true)
    (hmodifier : ∀ m ∈ modifier, m.isNamedValue = true)
    (hbare : d.utilities.standsBare (u.name ++ '-' :: key) = false)
    (hlongest : Text.LongestRoot d.utilities.takesValue (u.name ++ '-' :: key) u.name key) :
    ∃ c : Candidate, c.value = some (.named key (fractionOf key (modifier.map .named))) ∧
      c.negative = negative ∧ c.modifier = modifier.map .named ∧
      (d.Styles (signText negative ++ (u.name ++ '-' :: key ++ renderModifier modifier)) ↔
        ∃ v ∈ stockUtilities d.theme, v.name = u.name ∧
          ∃ result, v.assign d.theme d.settings c = .ok result) := by
  have hread := @candidateOf?_named d negative u.name key modifier (regular_of_mem hu).name hkey
    hmodifier hbare hlongest
  have hstyles := styles_of_candidateOf? (isSound_of_stock hd) hread rfl nofun
  exact ⟨_, rfl, rfl, rfl, hstyles.trans (@exists_mem_get d hd u.name
    fun v => ∃ result, v.assign d.theme d.settings _ = .ok result)⟩

/-- Whether a name with a key compiles is up to the first rule of its utility that knows the key:
    there has to be one, it has to take the sign, and a modifier needs a color. -/
theorem styles_named {u : Utility} {key : Text} {negative : Bool} {modifier : Option Text}
    (htheme : d.theme.HasJoinedKeys) (hu : u ∈ stockUtilities d.theme)
    (htakes : u.takesValue = true) (hkey : key.isJoined = true)
    (hmodifier : ∀ m ∈ modifier, m ∈ offeredPercentages ∧
      ∀ rule ∈ u.rules, .fraction ∉ rule.bare)
    (hbare : d.utilities.standsBare (u.name ++ '-' :: key) = false)
    (hlongest : Text.LongestRoot d.utilities.takesValue (u.name ++ '-' :: key) u.name key) :
    d.Styles (signText negative ++ (u.name ++ '-' :: key ++ renderModifier modifier)) ↔
      ∃ rule, u.rules.find? (·.knows d.theme key) = some rule ∧
        (negative = true → u.signed = true) ∧ (modifier.isSome = true → rule.color = true) := by
  have hregular := regular_of_mem hu
  have hkey' := Text.isNamedValue_of_isJoined hkey
  have hnamed : ∀ m ∈ modifier, m.isNamedValue = true := fun m hm =>
    Text.isNamedValue_of_isJoined (of_mem_offeredPercentages d.theme (hmodifier m hm).1).1
  obtain ⟨c, hvalue, hnegative, hmodifier', hc⟩ :=
    @styles_named_iff d hd u key negative modifier hu hkey' hnamed hbare hlongest
  have hfraction : ∀ f, fractionOf key (modifier.map .named) = some f → ∀ rule ∈ u.rules,
      rule.findFraction? d.theme f = none := by
    intro f hf rule hrule
    cases modifier with
    | none => cases hf
    | some m =>
      exact (hregular.rules rule hrule).findFraction?_eq_none htheme hkey' (hnamed m rfl) hf
        ((hmodifier m rfl).2 rule hrule)
  have hassign (v : Utility) (hv : v ∈ stockUtilities d.theme) (hname : v.name = u.name) :
      (∃ result, v.assign d.theme d.settings c = .ok result) ↔ v.takesValue = true ∧
        ∃ rule, u.rules.find? (·.knows d.theme key) = some rule ∧
          (negative = true → u.signed = true) ∧ (modifier.isSome = true → rule.color = true) := by
    cases v with
    | static name declarations =>
      refine iff_of_false ?_ fun h => by cases h.1
      rintro ⟨result, hresult⟩
      simp only [assign, assignments, hvalue] at hresult
      cases hresult
    | dynamic name rules default signed =>
      obtain ⟨hrules, hsigned⟩ := rules_eq_of_name hv hu rfl htakes hname
      rw [Utility.rules] at hrules
      rw [Utility.signed] at hsigned
      rw [hrules, hsigned, exists_assign_named hvalue hkey' (fun rule hrule =>
        (hregular.rules rule hrule).fillable) hfraction, hnegative, hmodifier']
      refine Iff.trans ?_ (and_iff_right rfl).symm
      refine exists_congr fun rule => and_congr_right fun hfind => and_congr_right fun _ => ?_
      exact hregular.alpha_iff (List.mem_of_find?_eq_some hfind) fun m hm => (hmodifier m hm).1
  rw [hc]
  constructor
  · rintro ⟨v, hv, hname, hresult⟩
    exact ((hassign v hv hname).1 hresult).2
  · exact fun h => ⟨u, hu, rfl, (hassign u hu rfl).2 ⟨htakes, h⟩⟩

/-- A name with a fraction that is offered compiles. -/
theorem styles_of_fraction {u : Utility} {rule : UtilityRule} {key m fraction : Text}
    {negative : Bool} (htheme : d.theme.HasJoinedKeys) (hu : u ∈ stockUtilities d.theme)
    (hrule : rule ∈ u.rules) (hsigned : negative = true → u.signed = true)
    (hform : .fraction ∈ rule.bare) (hkey : key.isNamedValue = true)
    (hm : m.isNamedValue = true) (hfraction : fractionOf key (some (.named m)) = some fraction)
    (hsome : (fractionValue? fraction).isSome = true)
    (hbare : d.utilities.standsBare (u.name ++ '-' :: key) = false)
    (hlongest : Text.LongestRoot d.utilities.takesValue (u.name ++ '-' :: key) u.name key) :
    d.Styles (signText negative ++ (u.name ++ '-' :: key ++ '/' :: m)) := by
  obtain ⟨value, hvalue⟩ := Option.isSome_iff_exists.1 hsome
  have hregular := regular_of_mem hu
  obtain ⟨c, hc, hnegative, _, hiff⟩ :=
    @styles_named_iff d hd u key negative (some m) hu hkey
      (fun _ h => Option.some.inj h ▸ hm) hbare hlongest
  refine hiff.2 ⟨u, hu, rfl, ?_⟩
  -- The one rule of the utility takes the fraction as a whole, and the modifier with it.
  have hrules := hregular.fractions rule hrule hform
  have hlookUp := (hregular.rules rule hrule).lookUp?_fraction htheme hkey hm hfraction
  rw [Option.map_some, hfraction] at hc
  cases u with
  | static => cases hrule
  | dynamic name rules default signed =>
    cases hrules
    have hfind : rule.findNamed? d.theme key (some fraction)
        = .ok (some ⟨⟨value, []⟩, true⟩) := by
      rw [UtilityRule.findNamed?, Option.bind_some, UtilityRule.findFraction?, hlookUp,
        List.contains_iff_mem.2 hform, hvalue]
      rfl
    have htakes : Takes d.theme name [rule] default c.value rule ⟨⟨value, []⟩, true⟩ :=
      hc ▸ .of_findNamed? hfind
    refine (exists_assign_of_takes htakes).2 ⟨?_, by simp⟩
    rwa [hnegative]

/-! ## Readings -/

/-- Of two names in front of a key, the one that is read is the other, or goes on where it ends. -/
theorem eq_or_longer_of_longestRoot {u v : Utility} (hu : u ∈ stockUtilities d.theme)
    (htakes : u.takesValue = true) {key key' : Text}
    (hlongest : Text.LongestRoot d.utilities.takesValue (v.name ++ '-' :: key) v.name key)
    (hsplit : v.name ++ '-' :: key = u.name ++ '-' :: key') :
    v.name = u.name ∧ key = key' ∨
      ∃ rest, v.name = u.name ++ '-' :: rest ∧ key' = rest ++ '-' :: key := by
  have hroot := (regular_of_mem hu).name
  have hknown := (takesValue_iff hd).2 ⟨u, hu, rfl, htakes⟩
  refine eq_or_longer hsplit.symm (Nat.le_of_not_lt fun hlt => ?_)
  cases hlongest with
  | hyphen _ _ _ _ hlonger =>
    rw [hlonger u.name key' hsplit hlt hroot.bracketFree] at hknown
    cases hknown
  | «at» _ _ _ _ hnone =>
    rw [hnone u.name key' hsplit hroot.ne_nil hroot.bracketFree] at hknown
    cases hknown

omit hd in
/-- What the class of a utility `u` with a value is read as: the utility `v` with a key. That is the
    same, or a utility for some sides with the remainder of the value. Then `u` has no sign, and
    `v` is that of a border if `u` takes colors. -/
structure Reading (d : Design) (u : Utility) (value : Text) (v : Utility) (key : Text) : Prop where
  mem : v ∈ stockUtilities d.theme
  takesValue : v.takesValue = true
  joined : key.isJoined = true
  split : u.name ++ '-' :: value = v.name ++ '-' :: key
  longest : Text.LongestRoot d.utilities.takesValue (v.name ++ '-' :: key) v.name key
  same_or_side : v = u ∧ key = value ∨ '-' ∈ value ∧ v.name ∈ sideNames ∧ u.signed = false ∧
    ∀ rule ∈ u.rules, rule.color = true → v.name ∈ borderSides

/-- A name with a joined value is read. -/
theorem exists_reading {u : Utility} (hu : u ∈ stockUtilities d.theme)
    (htakes : u.takesValue = true) {value : Text} (hvalue : value.isJoined = true) :
    ∃ v key, d.Reading u value v key := by
  have hroot := (regular_of_mem hu).name
  have hknown := (takesValue_iff hd).2 ⟨u, hu, rfl, htakes⟩
  obtain ⟨name, key, hlongest⟩ :=
    @Text.exists_longestRoot d.utilities.takesValue u.name value hroot.ne_nil hroot.bracketFree
      hknown
  obtain ⟨hsplit, hknown'⟩ : u.name ++ '-' :: value = name ++ '-' :: key ∧
      d.utilities.takesValue name = true := by
    cases hlongest with
    | hyphen hs _ _ hknown' => exact ⟨hs, hknown'⟩
    | «at» _ _ _ _ hnone =>
      rw [hnone u.name value rfl hroot.ne_nil hroot.bracketFree] at hknown
      cases hknown
  obtain ⟨v, hv, rfl, htakes'⟩ := (takesValue_iff hd).1 hknown'
  rw [hsplit] at hlongest
  rcases eq_or_longer_of_longestRoot hd hu htakes hlongest hsplit.symm with
    ⟨hname, rfl⟩ | ⟨rest, hname, rfl⟩
  · rw [hname] at hlongest
    exact ⟨u, key, hu, htakes, hvalue, rfl, hlongest, .inl ⟨rfl, rfl⟩⟩
  · obtain ⟨hside, _, hsigned, hcolors⟩ := name_mem_sideNames hu hv htakes htakes' hname
    exact ⟨v, key, hv, htakes', Text.isJoined_of_append hvalue, hsplit, hlongest,
      .inr ⟨by simp, hside, hsigned, fun rule hrule hcolor => (hcolors rule hrule hcolor).2⟩⟩

omit hd in
/-- What takes a sign is read as itself. -/
theorem Reading.eq_of_signed {u v : Utility} {value key : Text} (h : d.Reading u value v key)
    (hsigned : u.signed = true) : v = u ∧ key = value := by
  refine h.same_or_side.resolve_right fun hside => ?_
  rw [hside.2.2.1] at hsigned
  cases hsigned

end Design

end UtilityCss
