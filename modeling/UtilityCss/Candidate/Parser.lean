import UtilityCss.Bracket.Nesting
import UtilityCss.Bracket.Root
import UtilityCss.Bracket.Value
import UtilityCss.Candidate.Basic
import UtilityCss.DataType
import UtilityCss.Settings
import UtilityCss.Text.Blank
import UtilityCss.Text.Name
import UtilityCss.Text.Numeral
import UtilityCss.Utility.Table

/-!
# Reading candidates

A class has the form `variant:…:base`. The base is `-`, the name of a utility, `-`
and a value, `/` and a modifier, of which all but the name may be absent, or it is a
property with its value in square brackets. One exclamation mark is allowed: in
front of the class, in front of the base, or at the end.

Reading goes in three steps, so that the middle one may remember what it read.

* `Outline.ofText?`: cuts the class into segments and base;
* `readVariants`: reads the segments from left to right, up to the first failure;
* `Outline.complete?`: reads the base.

`Candidate.ofText?` puts them together.
-/

namespace UtilityCss

/-- The decoded form of a bracketed text without blanks at its ends, unless nothing
    is left. -/
def decodeStripped? (s : Text) : Option Text :=
  (s.decode?.map Text.strip).filter (!·.isEmpty)

/-- A data type in front of a colon, and the text after it. Without a known data type
    the whole text is left. -/
def splitTypeHint (s : Text) : Option Text × Text :=
  let name := s.takeWhile (· ≠ ':')
  match s.dropWhile (· ≠ ':') with
  | _ :: rest =>
    if (DataType.ofName? name).isSome && !rest.isEmpty then (some name, rest) else (none, s)
  | [] => (none, s)

/-- The value of a custom property. -/
def variableReference (name : Text) : Text :=
  Text.join [] ["var(", name, ")"]

namespace Value

/-- The value of a custom property in round brackets, possibly after a data type. -/
def ofVariable? (s : Text) : Option Value :=
  let (hint, name) := splitTypeHint s
  if name.isCustomProperty then some (arbitrary (variableReference name) hint) else none

/-- The value that a text behind the hyphen stands for. -/
def ofText? (s : Text) : Option Value :=
  if s.head? = some '[' then
    if s.endsWith "]" then
      let (hint, body) := splitTypeHint s.inner
      (decodeStripped? body).map fun value => arbitrary value hint
    else none
  else if s.head? = some '(' then
    if s.endsWith ")" then ofVariable? s.inner else none
  else if s.isNamedValue then some (named s none)
  else none

/-- The value together with a modifier: two numerals form a fraction. -/
def withFraction : Value → Option Modifier → Value
  | named value fraction, some (.named modifier) =>
    if value.isNumeral && modifier.isNumeral then
      named value (some (value ++ '/' :: modifier))
    else named value fraction
  | value, _ => value

end Value

namespace Modifier

/-- The modifier that a text behind the slash stands for. -/
def ofText? (s : Text) : Option Modifier :=
  if s.head? = some '[' && s.endsWith "]" then (decodeStripped? s.inner).map arbitrary
  else if s.head? = some '(' && s.endsWith ")" then
    (Value.ofVariable? s.inner).map fun value => arbitrary value.text
  else if s.isNamedValue then some (named s)
  else none

end Modifier

/-- A base cut at its slash into the text in front and the modifier, which may be
    absent. -/
def splitModifier? (base : Text) : Option (Text × Option Modifier) :=
  match base.segments '/' with
  | [_] => some (base, none)
  | [front, modifier] =>
    if front.isEmpty || modifier.isEmpty then none
    else (Modifier.ofText? modifier).map fun m => (front, some m)
  | _ => none

/-- A class cut into pieces: the segments of its variants, and the base without the
    mark of importance. -/
structure Outline where
  raw : Text
  segments : List Text
  base : Text
  important : Bool
  deriving DecidableEq, Repr

/-- Whether a text begins with the mark of importance, and the text without it. -/
def takeMark (s : Text) : Bool × Text :=
  match s with
  | '!' :: rest => (true, rest)
  | _ => (false, s)

/-- Whether a text ends with the mark of importance, and the text without it. -/
def takeFinalMark (s : Text) : Bool × Text :=
  if s.getLast? = some '!' then (true, s.dropLast) else (false, s)

namespace Outline

/-- The pieces of a class without blanks that is balanced, bears at most one mark,
    and has a base. -/
def ofText? (settings : Settings) (raw : Text) : Option Outline :=
  if raw.isEmpty || raw.hasBlank || !raw.isBalanced settings.maxOpenGroups then none
  else
    let (front, unmarked) := takeMark raw
    let parts := unmarked.segments ':'
    let (inside, base) := takeMark (parts.getLast?.getD [])
    let (back, base) := takeFinalMark base
    -- The mark may stand at any of the three places, but only once.
    if 1 < [front, inside, back].count true || base.isEmpty then none
    else some ⟨raw, parts.dropLast, base, front || inside || back⟩

/-- The candidate of a base that is a property with its value in brackets. -/
def property? (o : Outline) (variants : List Variant) : Option Candidate :=
  match splitModifier? o.base with
  | none => none
  | some (body, modifier) =>
    if body.head? = some '[' && body.endsWith "]" then
      match body.inner.segments ':' with
      | property :: first :: more =>
        if property.isProperty then
          (decodeStripped? (Text.join [':'] (first :: more))).map fun value =>
            { raw := o.raw, kind := .arbitrary, root := [], value := some (.arbitrary value none),
              modifier, variants, important := o.important, negative := false,
              property := some property }
        else none
      | _ => none
    else none

/-- The candidate of a utility with its value, and a modifier. A name that can stand
    alone wins over a name with a value, and a longer name over a shorter one. -/
def utility? (o : Outline) (table : UtilityTable) (variants : List Variant) (negative : Bool)
    (name : Text) (modifier : Option Modifier) : Option Candidate :=
  -- A name that stands bare is the longest name there is, so it is tried first.
  if table.standsBare name then
    some { raw := o.raw, kind := .static, root := name, value := none, modifier, variants,
           important := o.important, negative, property := none }
  else
    match name.rootSplits table.takesValue with
    | [] => none
    | (root, text) :: _ =>
      (Value.ofText? text).map fun value =>
        { raw := o.raw, kind := .functional, root, value := some (value.withFraction modifier),
          modifier, variants, important := o.important, negative, property := none }

/-- The candidate of a class, given its variants. -/
def complete? (o : Outline) (table : UtilityTable) (variants : List Variant) :
    Option Candidate :=
  if o.base.head? = some '[' then o.property? variants
  else
    let negative := o.base.head? = some '-'
    let unsigned := if negative then o.base.tail else o.base
    if unsigned.isEmpty then none
    else (splitModifier? unsigned).bind fun (name, modifier) =>
      o.utility? table variants negative name modifier

end Outline

/-- Reads segments from left to right, up to the first that is empty or no variant. -/
def readVariants {m : Type → Type} [Monad m] (read : Text → m (Option Variant)) :
    List Text → m (Option (List Variant))
  | [] => pure (some [])
  | segment :: segments => do
    if segment.isEmpty then return none
    let some v ← read segment | return none
    let rest ← readVariants read segments
    return rest.map (v :: ·)

namespace Candidate

/-- Reads a class, with a given way to read the segments of its variants. -/
def ofTextWith {m : Type → Type} [Monad m] (settings : Settings) (table : UtilityTable)
    (read : Text → m (Option Variant)) (raw : Text) : m (Option Candidate) := do
  let some outline := Outline.ofText? settings raw | return none
  let variants ← readVariants read outline.segments
  return variants.bind (outline.complete? table)

/-- Reads a class. -/
def ofText? (settings : Settings) (table : UtilityTable) (read : Text → Option Variant)
    (raw : Text) : Option Candidate :=
  Id.run (ofTextWith settings table (fun segment => pure (read segment)) raw)

end Candidate

end UtilityCss
