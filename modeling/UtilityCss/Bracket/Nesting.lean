import UtilityCss.Bracket.Basic

/-!
# Nesting

A class is cut at separators that stand outside every group. One state, a
`Nesting`, follows a text from left to right: the brackets that stand open, the
innermost first, and the quote that is open, if any. Quotes count inside groups
only, and a backslash takes away the meaning of the next character.

* `Text.segments`: the parts of a text between the separators outside every
  group. Closers that match nothing are passed over here;
* `Text.isBalanced`: whether every group and every quote of a text closes, in
  order, and no more than so many groups stand open at once.
-/

namespace UtilityCss

/-- What a scan knows at one point of a text. -/
structure Nesting where
  stack : List Bracket
  quote : Option Char
  deriving DecidableEq, Repr

namespace Nesting

/-- Outside every group: where a scan starts. -/
def outside : Nesting := ⟨[], none⟩

/-- The state after one more character. A closer that does not match the
    innermost group changes nothing. -/
def step (n : Nesting) (c : Char) : Nesting :=
  match n.quote with
  | some q => if c = q then { n with quote := none } else n
  | none =>
    if !n.stack.isEmpty && isQuote c then { n with quote := some c }
    else match Bracket.ofOpener? c with
      | some b => { n with stack := b :: n.stack }
      | none =>
        if n.stack.head?.map Bracket.closer = some c then { n with stack := n.stack.tail } else n

/-- The state after one more character, unless it is a closer that does not
    match the innermost group or opens more than `limit` groups. -/
def strictStep? (limit : Int) (n : Nesting) (c : Char) : Option Nesting :=
  match n.quote with
  | some q => some (if c = q then { n with quote := none } else n)
  | none =>
    if !n.stack.isEmpty && isQuote c then some { n with quote := some c }
    else match Bracket.ofOpener? c, Bracket.ofCloser? c with
      | some b, _ =>
        if (n.stack.length + 1 : Int) ≤ limit then some { n with stack := b :: n.stack } else none
      | none, some b =>
        if n.stack.head? = some b then some { n with stack := n.stack.tail } else none
      | none, none => some n

/-- Whether a character divides a text at this point. An opener never does. -/
def divides (n : Nesting) (separator c : Char) : Bool :=
  n = outside && (Bracket.ofOpener? c).isNone && c = separator

/-- The part of a text up to the first division, and the parts after it. -/
def divide (separator : Char) : Nesting → Text → Text × List Text
  | _, [] => ([], [])
  -- A backslash at the end has no character to take with it.
  | _, ['\\'] => (['\\'], [])
  | n, '\\' :: c :: rest =>
    let (part, parts) := divide separator n rest
    ('\\' :: c :: part, parts)
  | n, c :: rest =>
    if n.divides separator c then
      let (part, parts) := divide separator n rest
      ([], part :: parts)
    else
      let (part, parts) := divide separator (n.step c) rest
      (c :: part, parts)

/-- The state after a whole text, if every step of the way is allowed. -/
def strictRun? (limit : Int) : Nesting → Text → Option Nesting
  | n, [] => some n
  | n, ['\\'] => some n
  | n, '\\' :: _ :: rest => strictRun? limit n rest
  | n, c :: rest => (n.strictStep? limit c).bind (strictRun? limit · rest)

end Nesting

namespace Text

/-- The parts of a text between the separators that stand outside every group;
    there is always at least one. -/
def segments (s : Text) (separator : Char) : List Text :=
  let (part, parts) := Nesting.divide separator .outside s
  part :: parts

/-- Whether every group and quote of a text closes, with at most `limit`
    groups open at once. -/
def isBalanced (s : Text) (limit : Int) : Bool :=
  Nesting.strictRun? limit .outside s = some .outside

end Text

end UtilityCss
