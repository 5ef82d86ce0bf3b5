import UtilityCss.Alpha
import UtilityCss.Candidate.Parser
import UtilityCss.Compilation.Value
import UtilityCss.Design
import UtilityCss.Stylesheet.Basic
import UtilityCss.Stylesheet.Identifier
import UtilityCss.Variant.Resolution

/-!
# Compiling candidates

A candidate becomes one node of a stylesheet, in four steps.

* `UtilityTable.assign`: the first entry with the name of the candidate that knows
  its value, sign and modifier gives the assignments;
* `applyModifier`: an alpha goes to every assignment of a color;
* all assignments become declarations, important if the candidate is;
* `Wrap.around`: the variants wrap the rule, the innermost first.

`Candidate.compile` is the whole. It ends in a node, or in the reason why there is
none.
-/

namespace UtilityCss

/-- Where the declarations of a candidate come from. -/
inductive Source where
  | entry (entry : UtilityEntry)
  /-- A property in brackets. -/
  | arbitraryProperty

/-- The outcome of compiling a candidate. -/
inductive Compilation where
  | produced (node : Node) (source : Source)
  | refused (reason : Refusal)

namespace Compilation

/-- The nodes of an outcome: one, or none. -/
def nodes : Compilation → List Node
  | produced node _ => [node]
  | refused _ => []

/-- Where the nodes come from, if there are any. -/
def source? : Compilation → Option Source
  | produced _ source => some source
  | refused _ => none

/-- Why there are no nodes. -/
def refusal? : Compilation → Option Refusal
  | produced _ _ => none
  | refused reason => some reason

end Compilation

namespace Source

/-- The name of a source. -/
def name : Source → Text
  | entry e => e.name
  | arbitraryProperty => "[arbitrary]"

/-- The place of a source in the order of rules. -/
def order (table : UtilityTable) : Source → Nat
  | entry e => table.order e
  | arbitraryProperty => table.size

end Source

/-- The assignments with the alpha of a modifier applied to those of a color, of which
    there must be one. Without a modifier they stay as they are. -/
def applyModifier (theme : Theme) (settings : Settings) (modifier : Option Modifier)
    (assignments : List Assignment) : Except Refusal (List Assignment) :=
  match modifier with
  | none => .ok assignments
  | some m =>
    if assignments.any (·.color) then
      match m.alpha? theme with
      | none => .error (.invalidAlpha m.text)
      | some alpha => .ok (assignments.map fun a =>
          if a.color then { a with value := faded settings.mixingSpace a.value alpha }
          else a)
    else .error .modifierWithoutColor

/-- A value that is turned around. -/
def negated (value : Text) : Text :=
  Text.join [] ["calc(", value, " * -1)"]

namespace Utility

/-- What a dynamic utility makes of the value of a candidate: the rule that takes it,
    and the result. -/
def chooseRule (theme : Theme) (name : Text) (rules : List UtilityRule) (default : Option Text) :
    Option Value → Except Stop (UtilityRule × NamedResult)
  | none =>
    match default, rules with
    | none, _ => .error (.refused (.requiresValue name))
    | some _, [] => .error (.faulty .missingRule)
    | some value, rule :: _ => .ok (rule, ⟨⟨value, []⟩, false⟩)
  | some (.arbitrary value dataType) =>
    match UtilityRule.forArbitrary name rules value dataType with
    | .ok rule => .ok (rule, ⟨⟨value, []⟩, false⟩)
    | .error reason => .error (.refused reason)
  | some (.named key fraction) =>
    match rules.findSomeM? fun rule =>
        (rule.findNamed? theme key fraction).map (·.map fun found => (rule, found)) with
    | .ok (some found) => .ok found
    | .ok none => .error (.refused (.unknownValue name key))
    | .error fault => .error (.faulty fault)

/-- The assignments that a utility gives for a candidate before its modifier, and
    whether the modifier is part of the value. -/
def assignments (theme : Theme) (c : Candidate) : Utility → Except Stop (List Assignment × Bool)
  | static name declarations =>
    if c.value.isSome || c.negative then .error (.refused (.takesNoValue name))
    else .ok (declarations.map fun (property, value) => ⟨property, value, false⟩, false)
  | dynamic name rules default signed => do
    let (rule, found) ← chooseRule theme name rules default c.value
    if c.negative && !signed then throw (.refused (.rejectsNegative name))
    let value := if c.negative then negated found.entry.value else found.entry.value
    return (rule.properties.map (⟨·, value, rule.color⟩) ++ found.entry.companions,
      found.usesModifier)

/-- The assignments that a utility gives for a candidate. -/
def assign (theme : Theme) (settings : Settings) (c : Candidate) (u : Utility) :
    Except Stop (List Assignment) := do
  let (assignments, usesModifier) ← u.assignments theme c
  (applyModifier theme settings (if usesModifier then none else c.modifier) assignments).mapError
    Stop.refused

end Utility

namespace UtilityTable

/-- The assignments of the first of some entries that does not refuse a candidate. When
    all refuse, the reason is the given one, or that of the first entry. -/
def assignFirst (theme : Theme) (settings : Settings) (c : Candidate) :
    Option Refusal → List UtilityEntry → Except Stop (Source × List Assignment)
  | reason, [] => .error (.refused (reason.getD (.unknownUtility c.root)))
  | reason, e :: es =>
    match e.utility.assign theme settings c with
    | .ok assignments => .ok (.entry e, assignments)
    | .error (.faulty fault) => .error (.faulty fault)
    | .error (.refused r) => assignFirst theme settings c (some (reason.getD r)) es

/-- The assignments of a candidate, and where they come from. -/
def assign (table : UtilityTable) (theme : Theme) (settings : Settings) (c : Candidate) :
    Except Stop (Source × List Assignment) :=
  match c.kind with
  | .arbitrary =>
    match c.value with
    | none => .error (.faulty .missingValue)
    | some value =>
      let assignment : Assignment := ⟨c.property.getD [], value.text, value.text.spellsColor⟩
      match applyModifier theme settings c.modifier [assignment] with
      | .ok assignments => .ok (.arbitraryProperty, assignments)
      | .error reason => .error (.refused reason)
  | _ => assignFirst theme settings c none (table.get c.root)

end UtilityTable

namespace Wrap

/-- The node inside a wrap. -/
def around (node : Node) : Wrap → Node
  | selector template => node.rescope template
  | atRule name params => .atRule name params [node]

end Wrap

/-- The node of a rule inside the wraps of some variants, of which the last is the
    innermost. -/
def wrapAll? (table : VariantTable) (node : Node) (variants : List Variant) : Option Node :=
  variants.foldr (fun v inner => inner.bind fun node => (v.wrap? table).map (Wrap.around node))
    (some node)

/-- The rule of a class with its assignments. -/
def ruleOf (c : Candidate) (assignments : List Assignment) : Node :=
  .rule ('.' :: Text.escapeIdentifier c.raw)
    (assignments.map fun a => .declaration ⟨a.property, a.value, c.important⟩)

namespace Candidate

/-- Compiles a candidate. -/
def compile (d : Design) (c : Candidate) : Except Fault Compilation :=
  match d.utilities.assign d.theme d.settings c with
  | .error (.faulty fault) => .error fault
  | .error (.refused reason) => .ok (.refused reason)
  | .ok (source, assignments) =>
    match wrapAll? d.variants (ruleOf c assignments) c.variants with
    | none => .ok (.refused .inapplicableVariant)
    | some node => .ok (.produced node source)

end Candidate

end UtilityCss
