import UtilityCss.Text.Digit

/-!
# Templates for values

A template is a text with fields for a value: `repeat({}, 1fr)`. A field is written in
braces, and a doubled brace stands for itself. In the field may be the place of the
value or a name for it, and behind a colon a layout: a width to fill up, and a
precision to cut to.

There is one value only, at the place `0`, and none has a name. A template keeps to one
way of asking for values, so that `{}` and `{0}` do not go together.

* `Template.ofText?`: reads a template;
* `Template.fill`: puts a value into it.
-/

namespace UtilityCss

/-- What a field asks for. -/
inductive TemplateField where
  /-- The next value. -/
  | next
  /-- The value at a place. -/
  | index (place : Nat)
  /-- The value with a name. -/
  | named (name : Text)
  deriving DecidableEq, Repr

/-- On which side a value stands that is filled up. -/
inductive Alignment where
  | left
  | center
  | right
  deriving DecidableEq, Repr

/-- How a field lays out its value. -/
structure Layout where
  fill : Char
  alignment : Alignment
  width : Nat
  precision : Option Nat
  deriving DecidableEq, Repr

/-- Why a template cannot be filled. -/
inductive TemplateFault where
  /-- A field asks for a value behind the last one. -/
  | missingValue (place : Nat)
  | missingName (name : Text)
  /-- A field for a place comes after one for the next value. -/
  | indexAfterNext
  /-- A field for the next value comes after one for a place. -/
  | nextAfterIndex
  /-- The number of a place is too large. -/
  | tooManyDigits
  | singleOpener
  | singleCloser
  /-- The text ends inside a field. -/
  | unclosedField
  /-- The text ends inside a layout. -/
  | unclosedLayout
  /-- A brace opens inside the name of a field. -/
  | openerInField
  deriving DecidableEq, Repr

/-- A part of a template. -/
inductive TemplatePart where
  | literal (c : Char)
  | hole (field : TemplateField) (layout : Layout)
  /-- Where the text is not well-formed. -/
  | broken (fault : TemplateFault)
  deriving DecidableEq, Repr

/-- A text with fields. -/
structure Template where
  parts : List TemplatePart
  deriving DecidableEq, Repr

/-! ## Layouts -/

namespace Layout

/-- The layout that leaves a value as it is. -/
def plain : Layout := ⟨' ', .left, 0, none⟩

/-- A value as it is laid out: cut, and then filled up. -/
def lay (l : Layout) (value : Text) : Text :=
  let cut := match l.precision with
    | none => value
    | some precision => value.take precision
  let missing := l.width - cut.length
  let before := match l.alignment with
    | .left => 0
    | .center => missing / 2
    | .right => missing
  List.replicate before l.fill ++ cut ++ List.replicate (missing - before) l.fill

@[simp] theorem lay_plain (value : Text) : plain.lay value = value := by
  simp [lay, plain]

/-- The alignment that a character stands for. -/
def alignmentOf? : Char → Option Alignment
  | '<' => some .left
  | '^' => some .center
  | '>' => some .right
  | _ => none

/-- The fill and the alignment at the start of a text, and the text after them. A zero
    in front of the width is a fill, too. -/
def takeFill : Text → Char × Alignment × Text
  | [] => (' ', .left, [])
  | c :: rest =>
    match rest.head?.bind alignmentOf?, alignmentOf? c with
    | some alignment, _ => (c, alignment, rest.tail)
    | none, some alignment =>
      if rest.head? = some '0' then ('0', alignment, rest.tail) else (' ', alignment, rest)
    | none, none => if c = '0' then ('0', .left, rest) else (' ', .left, c :: rest)

/-- The largest number that a template may hold. -/
def maxNumber : Nat :=
  0x7FFFFFFFFFFFFFFF

/-- The layout for a text that is written so, unless it is one for other values. -/
def ofText? (s : Text) : Option Layout :=
  let (fill, alignment, rest) := takeFill s
  let width := rest.takeWhile isDecimal
  let (dotted, precision, rest) := match rest.dropWhile isDecimal with
    | '.' :: rest => (true, rest.takeWhile isDecimal, rest.dropWhile isDecimal)
    | rest => (false, [], rest)
  if (dotted && precision.isEmpty) || (rest ≠ [] && rest ≠ ['s']) then none
  else if maxNumber < Text.digitsValue width || maxNumber < Text.digitsValue precision then none
  else some ⟨fill, alignment, Text.digitsValue width,
    if dotted then some (Text.digitsValue precision) else none⟩

end Layout

namespace Template

/-! ## Reading -/

/-- The part for a field with a name and a layout. -/
def partOf (name : Text) (layout : Layout) : TemplatePart :=
  if name.isEmpty then .hole .next layout
  else if name.all isDecimal then
    if name.digitsValue ≤ Layout.maxNumber then .hole (.index name.digitsValue) layout
    else .broken .tooManyDigits
  else .hole (.named name) layout

/-- Where the reading of a template stands. -/
inductive Place where
  | text
  /-- In a field, behind the start of its name. -/
  | name (start : Text)
  /-- In a field, behind its name and the start of its layout. -/
  | layout (name start : Text)

/-- The parts of the rest of a text. -/
def partsFrom? : Place → Text → Option (List TemplatePart)
  | .text, [] => some []
  | .text, ['\x7b'] => some [.broken .singleOpener]
  | .text, '\x7b' :: '\x7b' :: rest => (partsFrom? .text rest).map (.literal '\x7b' :: ·)
  | .text, '\x7b' :: rest => partsFrom? (.name []) rest
  | .text, '\x7d' :: '\x7d' :: rest => (partsFrom? .text rest).map (.literal '\x7d' :: ·)
  | .text, '\x7d' :: _ => some [.broken .singleCloser]
  | .text, c :: rest => (partsFrom? .text rest).map (.literal c :: ·)
  | .name _, [] => some [.broken .unclosedField]
  | .name start, c :: rest =>
    if c = '\x7d' then (partsFrom? .text rest).map (partOf start .plain :: ·)
    else if c = '\x7b' then some [.broken .openerInField]
    else if c = ':' then partsFrom? (.layout start []) rest
    else if ['!', '.', '['].contains c then none
    else partsFrom? (.name (start ++ [c])) rest
  | .layout _ _, [] => some [.broken .unclosedLayout]
  | .layout name start, c :: rest =>
    if c = '\x7d' then
      (Layout.ofText? start).bind fun layout =>
        (partsFrom? .text rest).map (partOf name layout :: ·)
    else if c = '\x7b' then none
    else partsFrom? (.layout name (start ++ [c])) rest

/-- The template that a text stands for. Left out are fields that convert their value or
    take something of it, those with a field in the layout, and layouts that are not for
    texts. -/
def ofText? (s : Text) : Option Template :=
  (partsFrom? .text s).map .mk

/-- The template that is a field alone. -/
def hole : Template := ⟨[.hole .next .plain]⟩

/-! ## Filling -/

/-- In which way a template asked for values so far. -/
inductive Asked where
  | nothing
  | next
  | index
  deriving DecidableEq, Repr

/-- Asks for the value of a field, where there is one value without a name. -/
def Asked.ask : Asked → TemplateField → Except TemplateFault Asked
  | .nothing, .next => .ok .next
  | .next, .next => .error (.missingValue 1)
  | .index, .next => .error .nextAfterIndex
  | .next, .index _ => .error .indexAfterNext
  | _, .index 0 => .ok .index
  | _, .index place => .error (.missingValue place)
  | _, .named name => .error (.missingName name)

/-- Puts a value into the parts of a template, after some of them. -/
def fillParts (value : Text) : Asked → List TemplatePart → Except TemplateFault Text
  | _, [] => .ok []
  | asked, .literal c :: rest => (fillParts value asked rest).map (c :: ·)
  | _, .broken fault :: _ => .error fault
  | asked, .hole field layout :: rest =>
    (asked.ask field).bind fun asked => (fillParts value asked rest).map (layout.lay value ++ ·)

/-- The text of a template with a value in its fields. -/
def fill (t : Template) (value : Text) : Except TemplateFault Text :=
  fillParts value .nothing t.parts

end Template

end UtilityCss
