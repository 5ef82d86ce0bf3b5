import UtilityCss.Proofs.Compilation.Assigning

/-!
# Where bracketed values go

A bracketed value has no name that a rule could know, so it goes by its data type. The type is
looked for among the types of all rules at once, each taken once, and a rule is then looked for by
the type. This comes to the same as asking one rule after the other whether the value fits
(`UtilityRule.fits`): the first type that the value satisfies is listed by the first rule that lists
such a type at all.

* `Text.dataTypeAmong?_eq`: the type of a value as the first that it satisfies;
* `find?_of_listed`: a search by the first property found is a search by any of them;
* `UtilityRule.forArbitrary_of_blank`, `UtilityRule.forArbitrary_of_hint`: the rule for a value
  without a type written before it, and with one;
* `Utility.assign_with_dataType`: to write the type that would be found changes nothing;
* `Utility.bracketed_goes_to_first`: all of this for the bracketed values of a utility.
-/

namespace UtilityCss

/-! ## Data types -/

/-- Whether a value satisfies the data type with a name. A type that is not known is satisfied by
    nothing, and a reference to a variable satisfies none. -/
def Text.satisfies (value name : Text) : Bool :=
  !value.startsWith "var(" && (DataType.ofName? name).any (·.admits value)

theorem Text.dataTypeAmong?_eq (value : Text) (types : List Text) :
    value.dataTypeAmong? types = types.find? value.satisfies := by
  rw [dataTypeAmong?]
  split
  · next h =>
    have hsatisfies (name : Text) : value.satisfies name = false := by
      rw [satisfies, h, Bool.not_true, Bool.false_and]
    exact (List.find?_eq_none.2 fun name _ => ne_true_of_eq_false (hsatisfies name)).symm
  · next h =>
    congr 1
    funext name
    rw [satisfies, eq_false_of_ne_true h, Bool.not_false, Bool.true_and]

/-- Every member lists some things. The first member that lists the first thing with a property is
    the first that lists a thing with the property at all. -/
theorem find?_of_listed {α β : Type} [BEq β] [LawfulBEq β] (listed : α → List β) (p : β → Bool)
    (l : List α) :
    ((l.flatMap listed).find? p).bind (fun b => l.find? fun a => (listed a).contains b)
      = l.find? fun a => (listed a).any p := by
  induction l with
  | nil => rfl
  | cons a l ih =>
    rw [List.flatMap_cons, List.find?_append]
    cases hfound : (listed a).find? p with
    | some b =>
      have hcontains : (listed a).contains b = true :=
        List.contains_iff_mem.2 (List.mem_of_find?_eq_some hfound)
      have hany : (listed a).any p = true :=
        List.any_eq_true.2 ⟨b, List.mem_of_find?_eq_some hfound, List.find?_some hfound⟩
      rw [Option.some_or, Option.bind_some,
        List.find?_cons_of_pos (p := fun a => (listed a).contains b) hcontains,
        List.find?_cons_of_pos (p := fun a => (listed a).any p) hany]
    | none =>
      have hnone := List.find?_eq_none.1 hfound
      have hany : ¬ (listed a).any p = true := fun h => by
        obtain ⟨b, hb, hpb⟩ := List.any_eq_true.1 h
        exact hnone b hb hpb
      rw [Option.none_or, List.find?_cons_of_neg (p := fun a => (listed a).any p) hany, ← ih]
      cases hrest : (l.flatMap listed).find? p with
      | none => rfl
      | some b =>
        -- What `a` lists does not have the property, so `b` is not among it.
        have hcontains : ¬ (listed a).contains b = true := fun h =>
          hnone b (List.contains_iff_mem.1 h) (List.find?_some hrest)
        rw [Option.bind_some, Option.bind_some,
          List.find?_cons_of_neg (p := fun a => (listed a).contains b) hcontains]

/-! ## Rules -/

namespace UtilityRule

variable {name value hint : Text} {rules : List UtilityRule} {dataType : Option Text}

/-- Whether a rule lists a known data type that a value satisfies. -/
def fits (rule : UtilityRule) (value : Text) : Bool :=
  rule.dataTypes.any value.satisfies

/-- The rule for the data type that is found is the first that the value fits. -/
theorem find?_of_dataTypeAmong? (value : Text) (rules : List UtilityRule) :
    ((value.dataTypeAmong? (Utility.dataTypesOf rules)).bind
      fun type => rules.find? (·.dataTypes.contains type)) = rules.find? (·.fits value) := by
  rw [Text.dataTypeAmong?_eq, Utility.dataTypesOf, find?_eraseDups]
  exact find?_of_listed (·.dataTypes) value.satisfies rules

/-- Nothing written before a value, as well as an empty text there, leaves it to the spelling. -/
theorem forArbitrary_of_blank (h : dataType = none ∨ dataType = some []) :
    forArbitrary name rules value dataType
      = ((rules.find? (·.fits value)).or (rules.find? (·.fallback))).elim
          (.error (.rejectsArbitrary name value)) .ok := by
  have hblank : dataType.filter (!·.isEmpty) = none := by
    rcases h with rfl | rfl <;> rfl
  rw [forArbitrary, hblank]
  dsimp only
  rw [find?_of_dataTypeAmong?]
  cases rules.find? (·.fits value) with
  | some rule => rfl
  | none => cases rules.find? (·.fallback) <;> rfl

theorem forArbitrary_of_hint (h : hint ≠ []) :
    forArbitrary name rules value (some hint)
      = (rules.find? (·.dataTypes.contains hint)).elim (.error (.rejectsDataType name hint))
          .ok := by
  have hhint : (some hint).filter (!·.isEmpty) = some hint := by
    simpa using h
  rw [forArbitrary, hhint]
  dsimp only
  cases rules.find? (·.dataTypes.contains hint) <;> rfl

/-- With the data type that would be found written before it, a value goes to the same rule. -/
theorem forArbitrary_of_dataTypeAmong?
    (h : value.dataTypeAmong? (Utility.dataTypesOf rules) = some hint) :
    forArbitrary name rules value (some hint) = forArbitrary name rules value none := by
  have hrule := find?_of_dataTypeAmong? value rules
  rw [h, Option.bind_some] at hrule
  rw [Text.dataTypeAmong?_eq] at h
  have hne : hint ≠ [] := by
    rintro rfl
    have hunknown : DataType.ofName? [] = none := by decide
    have hsatisfies := List.find?_some h
    rw [Text.satisfies, hunknown, Option.any_none, Bool.and_false] at hsatisfies
    cases hsatisfies
  obtain ⟨rule, hmem, hlists⟩ : ∃ rule ∈ rules, hint ∈ rule.dataTypes :=
    List.mem_flatMap.1 (List.mem_eraseDups.1 (List.mem_of_find?_eq_some h))
  have hsome : (rules.find? (·.dataTypes.contains hint)).isSome = true :=
    List.find?_isSome.2 ⟨rule, hmem, List.contains_iff_mem.2 hlists⟩
  rw [forArbitrary_of_hint hne, forArbitrary_of_blank (.inl rfl), ← hrule]
  obtain ⟨first, hfirst⟩ := Option.isSome_iff_exists.1 hsome
  rw [hfirst]
  rfl

end UtilityRule

/-! ## Utilities -/

namespace Utility

variable {name value hint : Text} {rules : List UtilityRule}

/-- A utility assigns the same when the data type that would be found is written before a value. -/
theorem assign_with_dataType (h : value.dataTypeAmong? (dataTypesOf rules) = some hint)
    (theme : Theme) (settings : Settings) (default : Option Text) (signed : Bool)
    (c : Candidate) :
    (dynamic name rules default signed).assign theme settings
        { c with value := some (.arbitrary value (some hint)) }
      = (dynamic name rules default signed).assign theme settings
        { c with value := some (.arbitrary value none) } := by
  have hrule : chooseRule theme name rules default (some (.arbitrary value (some hint)))
      = chooseRule theme name rules default (some (.arbitrary value none)) := by
    rw [chooseRule, chooseRule, UtilityRule.forArbitrary_of_dataTypeAmong? h]
  rw [assign, assign, assignments, assignments, hrule]

/-- A bracketed value goes to the first rule that lists a known data type which it satisfies, and
    else to the first that takes values of no known type. With a data type written before it, it
    goes to the first rule that lists this type. It is refused if there is no such rule, and only
    then. So to write the data type that its spelling shows never changes the assignments. -/
theorem bracketed_goes_to_first (name : Text) (rules : List UtilityRule) (value : Text) :
    (∀ dataType, dataType = none ∨ dataType = some [] →
      UtilityRule.forArbitrary name rules value dataType
        = ((rules.find? (·.fits value)).or (rules.find? (·.fallback))).elim
            (.error (.rejectsArbitrary name value)) .ok) ∧
    (∀ hint, hint ≠ [] → UtilityRule.forArbitrary name rules value (some hint)
      = (rules.find? (·.dataTypes.contains hint)).elim (.error (.rejectsDataType name hint))
          .ok) ∧
    ∀ hint, value.dataTypeAmong? (dataTypesOf rules) = some hint →
      ∀ theme settings default signed (c : Candidate),
        (dynamic name rules default signed).assign theme settings
            { c with value := some (.arbitrary value (some hint)) }
          = (dynamic name rules default signed).assign theme settings
            { c with value := some (.arbitrary value none) } :=
  ⟨fun _ h => UtilityRule.forArbitrary_of_blank h, fun _ h => UtilityRule.forArbitrary_of_hint h,
    fun _ h => assign_with_dataType h⟩

/-- A value that is both a number and a length. The first rule lists a type that is not known, the
    second both types of the value, and the third, which lists one of them, takes what is left. -/
theorem bracketed_goes_to_first_of_zero :
    let rule (property : Text) (dataTypes : List Text) (fallback : Bool) : UtilityRule :=
      { UtilityRule.ofProperties [property] with dataTypes, fallback }
    let glyphs := rule "content" ["glyph", "percentage"] false
    let sizes := rule "width" ["number", "length"] false
    let lines := rule "inset" ["length"] true
    let rules := [glyphs, sizes, lines]
    UtilityRule.forArbitrary "x" rules "0" none = .ok sizes ∧
      UtilityRule.forArbitrary "x" rules "var(--y)" (some []) = .ok lines ∧
      UtilityRule.forArbitrary "x" rules "0" (some "glyph") = .ok glyphs ∧
      UtilityRule.forArbitrary "x" rules "0" (some "color")
        = .error (.rejectsDataType "x" "color") ∧
      UtilityRule.forArbitrary "x" [glyphs, sizes] "auto" none
        = .error (.rejectsArbitrary "x" "auto") ∧
      Text.dataTypeAmong? "0" (dataTypesOf rules) = some "number" ∧
      ∀ theme settings default signed (c : Candidate),
        (dynamic "x" rules default signed).assign theme settings
            { c with value := some (.arbitrary "0" (some "number")) }
          = (dynamic "x" rules default signed).assign theme settings
            { c with value := some (.arbitrary "0" none) } := by
  intro rule glyphs sizes lines rules
  have hzero := bracketed_goes_to_first "x" rules "0"
  have hnumber : Text.dataTypeAmong? "0" (dataTypesOf rules) = some "number" := by
    decide +kernel
  exact ⟨hzero.1 none (.inl rfl), (bracketed_goes_to_first "x" rules "var(--y)").1 _ (.inr rfl),
    hzero.2.1 "glyph" (by decide), hzero.2.1 "color" (by decide),
    (bracketed_goes_to_first "x" [glyphs, sizes] "auto").1 none (.inl rfl), hnumber,
    hzero.2.2 "number" hnumber⟩

end Utility

end UtilityCss
