import UtilityCss.Compilation.Basic
import UtilityCss.Proofs.Session.Outcomes

/-!
# The steps of an assignment

A dynamic utility comes from the value of a candidate to its assignments in three steps: one of its
rules takes the value (`Utility.Takes`), a sign turns it around, and an alpha goes to the colors.
Each step is told here by when it succeeds, and with what, so that no step has to be opened again.

* `Utility.chooseRule_eq_ok`: the rule that takes a value, and what it finds;
* `Utility.assignments_eq_ok`, `Utility.assign_eq_ok`: what a utility assigns then;
* `UtilityTable.assignFirst_eq`: trying utilities one after the other, told without the loop.
-/

namespace UtilityCss

variable {theme : Theme} {settings : Settings} {c : Candidate}

/-! ## Modifiers -/

/-- An assignment with an alpha, if it is one of a color. -/
def Assignment.withAlpha (settings : Settings) (alpha : Text) (a : Assignment) : Assignment :=
  if a.color then { a with value := faded settings.mixingSpace a.value alpha } else a

/-- A modifier asks for a color, and for an alpha that it stands for. -/
theorem applyModifier_eq_ok {m : Modifier} {plain result : List Assignment} :
    applyModifier theme settings (some m) plain = .ok result ↔
      plain.any (·.color) = true ∧ ∃ alpha, m.alpha? theme = some alpha ∧
        result = plain.map (·.withAlpha settings alpha) := by
  rw [applyModifier]
  by_cases hcolor : plain.any (·.color) = true
  · rw [if_pos hcolor, and_iff_right hcolor]
    cases m.alpha? theme with
    | none => simp
    | some alpha =>
      simp only [Except.ok.injEq, Option.some.injEq, exists_eq_left']
      exact eq_comm
  · rw [if_neg hcolor]
    exact ⟨nofun, fun h => absurd h.1 hcolor⟩

/-! ## Rules -/

/-- The value of an entry, positive or negative. -/
def RuleEntry.signedValue (entry : RuleEntry) (negative : Bool) : Text :=
  if negative then negated entry.value else entry.value

namespace UtilityRule

variable {rule : UtilityRule} {key : Text} {entry : RuleEntry}

/-- What a rule declares with what it found, positive or negative. -/
def declared (rule : UtilityRule) (found : NamedResult) (negative : Bool) : List Assignment :=
  rule.properties.map (⟨·, found.entry.signedValue negative, rule.color⟩)
    ++ found.entry.companions

/-- What goes along with a value that is looked up is no color. -/
theorem color_of_lookUp? (h : rule.lookUp? theme key = some entry) {a : Assignment}
    (ha : a ∈ entry.companions) : a.color = false := by
  rw [lookUp?] at h
  split at h
  · cases h
    cases ha
  · split at h
    · cases h
    · obtain ⟨_, h⟩ := Option.ite_none_left_eq_some.1 h
      obtain ⟨value, _, rfl⟩ := Option.map_eq_some_iff.1 h
      obtain ⟨p, _, hp⟩ := List.mem_filterMap.1 ha
      obtain ⟨_, _, rfl⟩ := Option.map_eq_some_iff.1 hp
      rfl

theorem color_of_findFraction? (h : rule.findFraction? theme key = some entry) {a : Assignment}
    (ha : a ∈ entry.companions) : a.color = false := by
  rw [findFraction?] at h
  split at h
  · next hentry =>
    cases h
    exact color_of_lookUp? hentry ha
  · obtain ⟨_, h⟩ := Option.ite_none_right_eq_some.1 h
    obtain ⟨value, _, rfl⟩ := Option.map_eq_some_iff.1 h
    cases ha

theorem color_of_findKey? (h : rule.findKey? theme key = .ok (some entry)) {a : Assignment}
    (ha : a ∈ entry.companions) : a.color = false := by
  rw [findKey?] at h
  split at h
  · next hentry =>
    cases h
    exact color_of_lookUp? hentry ha
  · obtain ⟨found, _, h⟩ := bind_eq_ok.1 h
    cases found with
    | none => cases h
    | some value =>
      dsimp only at h
      split at h
      · cases h
        cases ha
      · cases h

/-- A fraction that the rule knows as a whole decides. -/
theorem findNamed?_of_fraction {fraction : Option Text}
    (h : fraction.bind (rule.findFraction? theme) = some entry) :
    rule.findNamed? theme key fraction = .ok (some ⟨entry, true⟩) := by
  rw [findNamed?, h]

/-- Else the key decides, as it does without a fraction. -/
theorem findNamed?_of_key {fraction : Option Text}
    (h : fraction.bind (rule.findFraction? theme) = none) :
    rule.findNamed? theme key fraction = (rule.findKey? theme key).map (·.map (⟨·, false⟩)) := by
  rw [findNamed?, h]
  cases rule.findKey? theme key <;> rfl

theorem findNamed?_none :
    rule.findNamed? theme key none = (rule.findKey? theme key).map (·.map (⟨·, false⟩)) :=
  findNamed?_of_key rfl

variable {fraction : Option Text} {found : NamedResult}

/-- A rule that does not use the fraction finds the same without it. -/
theorem findNamed?_without_fraction {found? : Option NamedResult}
    (h : rule.findNamed? theme key fraction = .ok found?)
    (hfound : ∀ found, found? = some found → found.usesModifier = false) :
    rule.findNamed? theme key none = .ok found? := by
  cases hbind : fraction.bind (rule.findFraction? theme) with
  | none => rwa [findNamed?_none, ← findNamed?_of_key hbind]
  | some entry =>
    rw [findNamed?_of_fraction hbind] at h
    cases h
    cases hfound _ rfl

/-- A rule that uses the fraction knows it as a whole. -/
theorem findFraction?_of_findNamed? (h : rule.findNamed? theme key fraction = .ok (some found))
    (hfound : found.usesModifier = true) :
    ∃ f, fraction = some f ∧ rule.findFraction? theme f = some found.entry := by
  cases hbind : fraction.bind (rule.findFraction? theme) with
  | none =>
    rw [findNamed?_of_key hbind] at h
    obtain ⟨entry, _, h⟩ := map_eq_ok.1 h
    obtain ⟨entry, _, rfl⟩ := Option.map_eq_some_iff.1 h
    cases hfound
  | some entry =>
    rw [findNamed?_of_fraction hbind] at h
    cases h
    exact Option.bind_eq_some_iff.1 hbind

theorem color_of_findNamed? (h : rule.findNamed? theme key fraction = .ok (some found))
    {a : Assignment} (ha : a ∈ found.entry.companions) : a.color = false := by
  cases hbind : fraction.bind (rule.findFraction? theme) with
  | none =>
    rw [findNamed?_of_key hbind] at h
    obtain ⟨entry, hentry, h⟩ := map_eq_ok.1 h
    obtain ⟨entry, rfl, rfl⟩ := Option.map_eq_some_iff.1 h
    exact color_of_findKey? hentry ha
  | some entry =>
    rw [findNamed?_of_fraction hbind] at h
    cases h
    obtain ⟨f, _, hentry⟩ := Option.bind_eq_some_iff.1 hbind
    exact color_of_findFraction? hentry ha

/-- The rule that takes a bracketed value is one of the rules. -/
theorem mem_of_forArbitrary {name value : Text} {rules : List UtilityRule} {dataType : Option Text}
    (h : forArbitrary name rules value dataType = .ok rule) : rule ∈ rules := by
  rw [forArbitrary] at h
  split at h
  · split at h
    · next hrule =>
      cases h
      exact List.mem_of_find?_eq_some hrule
    · cases h
  · split at h
    · next hrule =>
      cases h
      obtain ⟨type, _, hrule⟩ := Option.bind_eq_some_iff.1 hrule
      exact List.mem_of_find?_eq_some hrule
    · -- No rule is known to take the value, so it falls to the last resort.
      split at h
      · next hrule =>
        cases h
        exact List.mem_of_find?_eq_some hrule
      · cases h

end UtilityRule

/-! ## Utilities -/

/-- The value without the fraction that it forms with a modifier. -/
def Value.withoutFraction : Value → Value
  | named key _ => named key none
  | arbitrary value dataType => arbitrary value dataType

@[simp] theorem Value.text_withoutFraction (value : Value) :
    value.withoutFraction.text = value.text := by
  cases value <;> rfl

namespace Utility

variable {name : Text} {rules : List UtilityRule} {default : Option Text} {signed : Bool}
  {rule : UtilityRule} {found : NamedResult} {value : Option Value}

/-- How a rule of a utility comes to take a value, and with what. -/
inductive Takes (theme : Theme) (name : Text) :
    List UtilityRule → Option Text → Option Value → UtilityRule → NamedResult → Prop
  /-- The first rule takes the default in place of a value. -/
  | default {rule : UtilityRule} {rules : List UtilityRule} {value : Text} :
      Takes theme name (rule :: rules) (some value) none rule ⟨⟨value, []⟩, false⟩
  | bracketed {rule : UtilityRule} {rules : List UtilityRule} {default : Option Text}
      {value : Text} {dataType : Option Text} :
      UtilityRule.forArbitrary name rules value dataType = .ok rule →
      Takes theme name rules default (some (.arbitrary value dataType)) rule ⟨⟨value, []⟩, false⟩
  /-- The first rule that does not find nothing takes a named value. -/
  | named {before after : List UtilityRule} {rule : UtilityRule} {default : Option Text}
      {key : Text} {fraction : Option Text} {found : NamedResult} :
      (∀ rule' ∈ before, rule'.findNamed? theme key fraction = .ok none) →
      rule.findNamed? theme key fraction = .ok (some found) →
      Takes theme name (before ++ rule :: after) default (some (.named key fraction)) rule found

theorem chooseRule_eq_ok : chooseRule theme name rules default value = .ok (rule, found) ↔
    Takes theme name rules default value rule found := by
  have hnothing {rule : UtilityRule} {key : Text} {fraction : Option Text} :
      (rule.findNamed? theme key fraction).map (·.map fun found => (rule, found)) = .ok none ↔
        rule.findNamed? theme key fraction = .ok none := by
    simp [map_eq_ok]
  constructor
  · intro h
    rw [chooseRule.eq_def] at h
    split at h
    · split at h
      · cases h
      · cases h
      · cases h
        exact .default
    · split at h
      · next hrule =>
        cases h
        exact .bracketed hrule
      · cases h
    · split at h
      · next hfound =>
        cases h
        obtain ⟨before, rule', after, rfl, hbefore, hfound⟩ := findSomeM?_eq_ok_some.1 hfound
        obtain ⟨found', hfound', h⟩ := map_eq_ok.1 hfound
        obtain ⟨found', rfl, h⟩ := Option.map_eq_some_iff.1 h
        cases h
        exact .named (fun rule hrule => hnothing.1 (hbefore rule hrule)) hfound'
      · cases h
      · cases h
  · intro h
    cases h with
    | default => rfl
    | bracketed hrule => rw [chooseRule, hrule]
    | @named before after _ _ key fraction _ hbefore hfound =>
      have hfirst : (before ++ rule :: after).findSomeM? (fun rule =>
          (rule.findNamed? theme key fraction).map (·.map fun found => (rule, found)))
            = .ok (some (rule, found)) :=
        findSomeM?_eq_ok_some.2 ⟨before, rule, after, rfl,
          fun rule hrule => hnothing.2 (hbefore rule hrule), by rw [hfound]; rfl⟩
      rw [chooseRule, hfirst]

theorem Takes.of_findNamed? {key : Text} {fraction : Option Text}
    (h : rule.findNamed? theme key fraction = .ok (some found)) :
    Takes theme name (rule :: rules) default (some (.named key fraction)) rule found :=
  chooseRule_eq_ok.1 (by rw [chooseRule, List.findSomeM?, h]; rfl)

/-- The rule that takes a value is one of the rules. -/
theorem Takes.mem (h : Takes theme name rules default value rule found) : rule ∈ rules := by
  cases h with
  | default => exact .head _
  | bracketed hrule => exact UtilityRule.mem_of_forArbitrary hrule
  | named => exact List.mem_append_right _ (.head _)

/-- What goes along with a value is no color. -/
theorem Takes.color_of_mem (h : Takes theme name rules default value rule found) {a : Assignment}
    (ha : a ∈ found.entry.companions) : a.color = false := by
  cases h with
  | default | bracketed => cases ha
  | named _ hfound => exact UtilityRule.color_of_findNamed? hfound ha

/-- What a rule declares has a color if the rule is one for colors and has properties. -/
theorem Takes.any_color_declared (h : Takes theme name rules default value rule found)
    {negative : Bool} : (rule.declared found negative).any (·.color) = true ↔
      rule.color = true ∧ rule.properties ≠ [] := by
  have hnone : found.entry.companions.any (·.color) = false :=
    List.any_eq_false.2 fun a ha => ne_true_of_eq_false (h.color_of_mem ha)
  rw [UtilityRule.declared, List.any_append, hnone, Bool.or_false, List.any_map]
  cases rule.properties <;> simp

/-- A modifier that is used is the second number of a fraction that the rule knows as a whole. -/
theorem Takes.findFraction? (h : Takes theme name rules default value rule found)
    (hfound : found.usesModifier = true) : ∃ key fraction,
      value = some (.named key (some fraction)) ∧
        rule.findFraction? theme fraction = some found.entry := by
  cases h with
  | default | bracketed => cases hfound
  | named _ hnamed =>
    obtain ⟨fraction, rfl, hfraction⟩ := UtilityRule.findFraction?_of_findNamed? hnamed hfound
    exact ⟨_, fraction, rfl, hfraction⟩

/-- If the fraction is not used, the same rule takes the value without it. -/
theorem Takes.withoutFraction (h : Takes theme name rules default value rule found)
    (hfound : found.usesModifier = false) :
    Takes theme name rules default (value.map Value.withoutFraction) rule found := by
  cases h with
  | default => exact .default
  | bracketed hrule => exact .bracketed hrule
  | named hbefore hnamed =>
    refine .named (fun rule' hrule' => ?_) ?_
    · exact UtilityRule.findNamed?_without_fraction (hbefore rule' hrule') nofun
    · refine UtilityRule.findNamed?_without_fraction hnamed fun found' h => ?_
      cases h
      exact hfound

/-- A static utility declares no color, and its modifier is not part of a value. -/
theorem color_of_static {declarations : List (Text × Text)} {plain : List Assignment}
    {usesModifier : Bool}
    (h : (static name declarations).assignments theme c = .ok (plain, usesModifier)) :
    plain.any (·.color) = false ∧ usesModifier = false := by
  obtain ⟨_, h⟩ := ite_error_left_eq_ok.1 h
  cases h
  refine ⟨List.any_eq_false.2 fun a ha => ?_, rfl⟩
  obtain ⟨_, _, rfl⟩ := List.mem_map.1 ha
  exact Bool.false_ne_true

/-- A dynamic utility declares what a rule found, if the sign is allowed. -/
theorem assignments_eq_ok {plain : List Assignment} {usesModifier : Bool} :
    (dynamic name rules default signed).assignments theme c = .ok (plain, usesModifier) ↔
      ∃ rule found, Takes theme name rules default c.value rule found ∧
        (c.negative = true → signed = true) ∧ plain = rule.declared found c.negative ∧
        usesModifier = found.usesModifier := by
  simp only [← chooseRule_eq_ok, assignments, bind_eq_ok, Prod.exists]
  refine exists_congr fun rule => exists_congr fun found => and_congr_right fun _ => ?_
  cases c.negative with
  | false => simp [pure, Except.pure, UtilityRule.declared, RuleEntry.signedValue, eq_comm]
  | true =>
    cases signed with
    | false => simp [throw, throwThe, MonadExceptOf.throw, bind, Except.bind]
    | true => simp [pure, Except.pure, UtilityRule.declared, RuleEntry.signedValue, eq_comm]

/-- A modifier goes to the assignments, unless it is part of the value. -/
theorem assign_eq_ok {u : Utility} {result : List Assignment} :
    u.assign theme settings c = .ok result ↔ ∃ plain usesModifier,
      u.assignments theme c = .ok (plain, usesModifier) ∧
        applyModifier theme settings (if usesModifier then none else c.modifier) plain
          = .ok result := by
  simp only [assign, bind_eq_ok, Prod.exists, mapError_eq_ok]

/-- Once a rule has taken the value and the sign is allowed, only the modifier can fail. -/
theorem assign_of_takes (h : Takes theme name rules default c.value rule found)
    (hsign : c.negative = true → signed = true) :
    (dynamic name rules default signed).assign theme settings c
      = (applyModifier theme settings (if found.usesModifier then none else c.modifier)
          (rule.declared found c.negative)).mapError Stop.refused := by
  have hassignments : (dynamic name rules default signed).assignments theme c
      = .ok (rule.declared found c.negative, found.usesModifier) :=
    assignments_eq_ok.2 ⟨rule, found, h, hsign, rfl, rfl⟩
  rw [assign, hassignments]
  rfl

end Utility

/-! ## Tables -/

namespace UtilityEntry

/-- Why an entry refuses a candidate, if it does. -/
def refusal? (theme : Theme) (settings : Settings) (c : Candidate) (e : UtilityEntry) :
    Option Refusal :=
  match e.utility.assign theme settings c with
  | .error (.refused reason) => some reason
  | _ => none

theorem refusal?_eq_some {e : UtilityEntry} {reason : Refusal} :
    e.refusal? theme settings c = some reason ↔
      e.utility.assign theme settings c = .error (.refused reason) := by
  rw [refusal?]
  split
  · next hassign => simp [hassign]
  · next hassign => exact iff_of_false nofun (hassign reason)

end UtilityEntry

namespace UtilityTable

/-- The first of some entries that does not refuse a candidate decides. If all refuse, the reason is
    the given one, or that of the first entry. -/
theorem assignFirst_eq (reason : Option Refusal) (entries : List UtilityEntry) :
    assignFirst theme settings c reason entries =
      match entries.find? fun e => (e.refusal? theme settings c).isNone with
      | some e => (e.utility.assign theme settings c).map (.entry e, ·)
      | none => .error (.refused
          ((reason.or (entries.head?.bind (·.refusal? theme settings c))).getD
            (.unknownUtility c.root))) := by
  induction entries generalizing reason with
  | nil => cases reason <;> rfl
  | cons e entries ih =>
    rw [assignFirst, List.find?_cons, List.head?_cons, Option.bind_some, UtilityEntry.refusal?]
    split
    · next hassign =>
      simp only [hassign, Option.isNone_none]
      rfl
    · next hassign =>
      simp only [hassign, Option.isNone_none]
      rfl
    · next reason' hassign =>
      rw [ih]
      simp only [hassign, Option.isNone_some]
      cases reason <;> rfl

/-- A class that names a utility is up to the entries with that name. -/
theorem assign_eq_assignFirst {table : UtilityTable} (hkind : c.kind ≠ .arbitrary) :
    table.assign theme settings c
      = assignFirst theme settings c none (table.get c.root) := by
  rw [assign]
  cases hk : c.kind with
  | arbitrary => exact absurd hk hkind
  | static | functional => rfl

/-- A property in brackets is assigned its value, which may be a color. -/
theorem assign_arbitrary_eq_ok {table : UtilityTable} {resolved : Source × List Assignment}
    (hkind : c.kind = .arbitrary) : table.assign theme settings c = .ok resolved ↔
      ∃ value result, c.value = some value ∧
        applyModifier theme settings c.modifier
          [⟨c.property.getD [], value.text, value.text.spellsColor⟩] = .ok result ∧
        resolved = (.arbitraryProperty, result) := by
  rw [assign, hkind]
  cases c.value with
  | none => simp
  | some value =>
    simp only [Option.some.injEq, exists_and_left, exists_eq_left']
    cases applyModifier theme settings c.modifier
        [⟨c.property.getD [], value.text, value.text.spellsColor⟩] with
    | ok result => simp [eq_comm]
    | error reason => simp

end UtilityTable

end UtilityCss
