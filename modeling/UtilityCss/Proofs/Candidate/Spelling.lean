import UtilityCss.Candidate.Parser
import UtilityCss.Proofs.Bracket.Roots
import UtilityCss.Variant.Parser

/-!
# How classes spell candidates

The form of a class is told here without a way to read it. A class is its segments and its base
with colons between them, and one mark of importance at most (`markedClass`). The base is a
sign, a front and an ending: the front spells the utility with its value (`FrontSpelling`), and
the ending is a slash with the text of the modifier, or nothing (`EndingSpelling`).
`Candidate.SpelledBy` puts these together.

Names are spelled by themselves. A bracketed text spells what it decodes to, together with the
data type in front of its colon (`Hinted`).
-/

namespace UtilityCss

/-- The content of brackets is a data type, a colon and a body, or it is a body that does not
    begin like this. -/
inductive Hinted : Text → Option Text → Text → Prop
  | known {name body : Text} : (DataType.ofName? name).isSome → body ≠ [] →
      Hinted (name ++ ':' :: body) (some name) body
  | plain {body : Text} : (∀ name rest, body = name ++ ':' :: rest → rest ≠ [] →
      DataType.ofName? name = none) → Hinted body none body

/-- The fraction that a key forms with a modifier. -/
def fractionOf (key : Text) : Option Modifier → Option Text
  | some (.named modifier) =>
    if key.isNumeral && modifier.isNumeral then some (key ++ '/' :: modifier) else none
  | _ => none

/-- A text spells a value in front of the given modifier. -/
inductive ValueSpelling (modifier : Option Modifier) : Value → Text → Prop
  | named {key : Text} : key.isNamedValue →
      ValueSpelling modifier (.named key (fractionOf key modifier)) key
  | bracketed {content body value : Text} {hint : Option Text} : Hinted content hint body →
      decodeStripped? body = some value →
      ValueSpelling modifier (.arbitrary value hint) (Bracket.square.enclose content)
  | custom {content name : Text} {hint : Option Text} : Hinted content hint name →
      name.isCustomProperty →
      ValueSpelling modifier (.arbitrary (variableReference name) hint)
        (Bracket.round.enclose content)

/-- A text spells a modifier. The data type that may stand in round brackets is not kept. -/
inductive ModifierSpelling : Modifier → Text → Prop
  | named {key : Text} : key.isNamedValue → ModifierSpelling (.named key) key
  | bracketed {content value : Text} : decodeStripped? content = some value →
      ModifierSpelling (.arbitrary value) (Bracket.square.enclose content)
  | custom {content name : Text} {hint : Option Text} : Hinted content hint name →
      name.isCustomProperty →
      ModifierSpelling (.arbitrary (variableReference name)) (Bracket.round.enclose content)

/-- The end of a base: a slash and the text of the modifier, if there is a modifier. -/
inductive EndingSpelling : Option Modifier → Text → Prop
  | none : EndingSpelling none []
  | slashed {modifier : Modifier} {text : Text} : ModifierSpelling modifier text →
      EndingSpelling (some modifier) ('/' :: text)

/-- The front of a base, without its sign, spells what a candidate declares: a name that stands
    bare; a name with a value, where the name is the longest that is known; or a property with
    its value in square brackets. -/
inductive FrontSpelling (table : UtilityTable) (c : Candidate) : Text → Prop
  | static : c.kind = .static → c.value = none → c.property = none →
      table.standsBare c.root → FrontSpelling table c c.root
  | functional {value : Value} {front text : Text} : c.kind = .functional →
      c.value = some value → c.property = none → table.standsBare front = false →
      Text.LongestRoot table.takesValue front c.root text →
      ValueSpelling c.modifier value text → FrontSpelling table c front
  | arbitrary {property value text : Text} : c.kind = .arbitrary → c.root = [] →
      c.value = some (.arbitrary value none) → c.property = some property →
      c.negative = false → property.isProperty → decodeStripped? text = some value →
      FrontSpelling table c (Bracket.square.enclose (property ++ ':' :: text))

/-- The hyphen in front of a utility with a negative value. -/
def signText (negative : Bool) : Text :=
  if negative then ['-'] else []

/-- A base spells a candidate: a sign, the front, and the end. The sign is the hyphen that the
    base begins with. -/
structure BaseSpelling (table : UtilityTable) (c : Candidate) (base : Text) : Prop where
  parts : ∃ front ending, base = signText c.negative ++ front ++ ending ∧
    FrontSpelling table c front ∧ EndingSpelling c.modifier ending
  sign : c.negative = true ↔ base.head? = some '-'

/-- The places in a class for the mark of importance. -/
inductive MarkPlace where
  /-- In front of the class. -/
  | front
  /-- In front of the base. -/
  | inside
  /-- At the end. -/
  | back
  deriving DecidableEq, Repr

/-- The class with the given segments and base, and a mark at the given place. -/
def markedClass (segments : List Text) (base : Text) : Option MarkPlace → Text
  | none => Text.join [':'] (segments ++ [base])
  | some .front => '!' :: Text.join [':'] (segments ++ [base])
  | some .inside => Text.join [':'] (segments ++ ['!' :: base])
  | some .back => Text.join [':'] (segments ++ [base ++ ['!']])

/-- A candidate is spelled by segments that spell its variants, one for one, by a base, and by
    the place of its mark. At the other places there is no mark. -/
structure Candidate.SpelledBy (table : UtilityTable) (read : Text → Option Variant)
    (c : Candidate) (segments : List Text) (base : Text) (place : Option MarkPlace) : Prop where
  raw : c.raw = markedClass segments base place
  important : c.important = place.isSome
  front : place ≠ some .front → c.raw.head? ≠ some '!'
  inside : place ≠ some .inside → base.head? ≠ some '!'
  back : place ≠ some .back → base.getLast? ≠ some '!'
  segments_ne_nil : ∀ s ∈ segments, s ≠ []
  variants : segments.map read = c.variants.map some
  base : BaseSpelling table c base

/-! ## Small tables -/

/-- Two utilities, of which one has a name that begins with the name of the other. -/
def UtilityTable.gaps : UtilityTable :=
  .ofUtilities [.dynamic "gap" [] none true, .dynamic "gap-x" [] none true]

/-- A table with one variant. -/
def VariantTable.hover : VariantTable :=
  ⟨[⟨"hover", .fixed (.selector "&:hover") true⟩], true⟩

/-- No name among the two utilities is longer than `gap-x`. -/
theorem UtilityTable.length_le_of_takesValue_gaps {name : Text}
    (h : gaps.takesValue name = true) : name.length ≤ 5 := by
  simp only [takesValue, get, gaps, ofUtilities, List.any_eq_true, List.mem_filter, List.mem_map,
    decide_eq_true_eq] at h
  obtain ⟨e, ⟨⟨p, hp, rfl⟩, rfl⟩, _⟩ := h
  revert p
  decide

end UtilityCss
