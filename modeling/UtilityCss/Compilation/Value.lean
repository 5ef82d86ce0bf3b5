import UtilityCss.Candidate.Basic
import UtilityCss.Compilation.Refusal
import UtilityCss.DataType
import UtilityCss.Text.Numeral
import UtilityCss.Theme.Basic
import UtilityCss.Utility.Basic

/-!
# Values of utilities

How a rule of a dynamic utility turns the value of a candidate into CSS.

* `UtilityRule.lookUp?`: a key among the keywords, then in the namespaces of the theme;
* `BareForm.value?`: a number, percentage, multiple of the spacing unit or fraction;
* `UtilityRule.findNamed?`: a named value. A fraction is tried first as a whole, and
  then its first number alone;
* `UtilityRule.forArbitrary`: the rule that takes a bracketed value.
-/

namespace UtilityCss

/-- A value for a property, and whether it is a color: a declaration to be. -/
structure Assignment where
  property : Text
  value : Text
  color : Bool
  deriving DecidableEq, Repr

/-- What a rule knows of a key: its value, and assignments that go along with it. -/
structure RuleEntry where
  value : Text
  companions : List Assignment
  deriving DecidableEq, Repr

/-- What a rule makes of a named value. -/
structure NamedResult where
  entry : RuleEntry
  /-- Whether the modifier is part of the value, as the second number of a fraction. -/
  usesModifier : Bool
  deriving DecidableEq, Repr

/-- A fraction of the whole, unless it divides by zero. -/
def fractionValue? (fraction : Text) : Option Text :=
  let denominator := (fraction.dropWhile (· ≠ '/')).tail
  if denominator.all ['0', '.'].contains then none
  else some (Text.join [] ["calc(", fraction, " * 100%)"])

/-- A percentage of at most 100 without its sign. It is judged by the digits that
    are left without zeros in front, of which there are at most three. -/
def percentageValue? (key : Text) : Except Fault (Option Text) :=
  let stripped : Text := key.dropWhile (· = '0')
  let digits : Text := if stripped.isEmpty then ['0'] else stripped
  if !key.isWholeNumeral || 3 < digits.length then .ok none
  else if digits.dropFinalNewline.isEmpty then .error .blankPercentage
  else if Text.digitsValue digits.dropFinalNewline ≤ 100 then .ok (some (key ++ ['%']))
  else .ok none

/-- A multiple of the spacing unit, in quarters. -/
def spacingValue? (theme : Theme) (key : Text) : Option Text :=
  match theme.get? "--spacing" with
  | none => none
  | some unit =>
    if key.isQuarterNumeral then some (Text.join [] ["calc(", unit, " * ", key, ")"]) else none

namespace BareForm

/-- The value of a key in a bare form. A fraction is no key. -/
def value? (theme : Theme) (key : Text) : BareForm → Except Fault (Option Text)
  | integer => .ok (if key.isWholeNumeral then some key else none)
  | number => .ok (if key.isNumeral then some key else none)
  | percentage => percentageValue? key
  | spacing => .ok (spacingValue? theme key)
  | fraction => .ok none

end BareForm

namespace UtilityRule

/-- What a variable of the theme gives: its value, and those of the nested variables
    that the rule names companions. -/
def entryOf? (rule : UtilityRule) (theme : Theme) (name : Text) : Option RuleEntry :=
  (theme.get? name).map fun value =>
    ⟨value, rule.companions.filterMap fun (property, ending) =>
      (theme.get? (name ++ ending)).map fun value => ⟨property, value, false⟩⟩

/-- What the rule knows of a key. The first namespace that has the key decides, also
    when its variable is passed over. -/
def lookUp? (rule : UtilityRule) (theme : Theme) (key : Text) : Option RuleEntry :=
  match rule.keywords.get? key with
  | some value => some ⟨value, []⟩
  | none =>
    match theme.variableFor? key rule.namespaces with
    | none => none
    | some name => if rule.ignores name then none else rule.entryOf? theme name

/-- What the rule makes of a fraction as a whole. -/
def findFraction? (rule : UtilityRule) (theme : Theme) (fraction : Text) : Option RuleEntry :=
  match rule.lookUp? theme fraction with
  | some entry => some entry
  | none =>
    if rule.bare.contains .fraction then
      (fractionValue? fraction).map fun value => ⟨value, []⟩
    else none

/-- What the rule makes of a key: an entry, or a bare form put into the template. -/
def findKey? (rule : UtilityRule) (theme : Theme) (key : Text) : Except Fault (Option RuleEntry) :=
  match rule.lookUp? theme key with
  | some entry => .ok (some entry)
  | none => do
    let some value ← rule.bare.findSomeM? (BareForm.value? theme key) | return none
    match rule.template.fill value with
    | .ok text => return some ⟨text, []⟩
    | .error fault => throw (.template fault)

/-- What the rule makes of a named value. -/
def findNamed? (rule : UtilityRule) (theme : Theme) (key : Text) (fraction : Option Text) :
    Except Fault (Option NamedResult) :=
  match fraction.bind (rule.findFraction? theme) with
  | some entry => .ok (some ⟨entry, true⟩)
  | none => do
    -- The second number of the fraction stays a modifier then.
    let entry ← rule.findKey? theme key
    return entry.map fun entry => ⟨entry, false⟩

/-- The rule that takes a bracketed value: the first for the data type that is
    written before it or that its spelling shows, else the first for values of no
    known type. A data type that is written must be one that a rule takes. -/
def forArbitrary (name : Text) (rules : List UtilityRule) (value : Text)
    (dataType : Option Text) : Except Refusal UtilityRule :=
  let fallback : Except Refusal UtilityRule :=
    match rules.find? (·.fallback) with
    | some rule => .ok rule
    | none => .error (.rejectsArbitrary name value)
  match dataType.filter (!·.isEmpty) with
  | some hint =>
    match rules.find? (·.dataTypes.contains hint) with
    | some rule => .ok rule
    | none => .error (.rejectsDataType name hint)
  | none =>
    match (Text.dataTypeAmong? value (Utility.dataTypesOf rules)).bind
        fun type => rules.find? (·.dataTypes.contains type) with
    | some rule => .ok rule
    | none => fallback

end UtilityRule

end UtilityCss
