import UtilityCss.Text.Digit

/-!
# Natural order

Texts are compared so that `p-2` comes before `p-10`. A text falls into chunks: runs
of decimal digits, and what stands between them. A chunk of digits compares by its
number, that is by the length and then the text of its digits without zeros in
front, and before every other chunk; what stands between compares as a text.

* `Text.chunks`: the chunks of a text, ready to be compared;
* `Chunks.compare`: the order of two texts in chunks.
-/

namespace UtilityCss

/-- A part of a text in natural order. -/
inductive Chunk where
  /-- Digits: those that count, and the chunk with all zeros in front. -/
  | digits (significant raw : Text)
  | word (text : Text)
  deriving DecidableEq, Repr

namespace Chunk

/-- The chunk of a part without zeros in front. A part of other signs for digits
    only, such as superscripts, counts as digits too. -/
def ofPart (part : Text) : Chunk :=
  if part.all isDigitSign then
    let significant := part.dropWhile (· = '0')
    digits (if significant.isEmpty then ['0'] else significant) part
  else word part

/-- What a chunk compares by: digits before words, then the number of digits, then
    the texts. -/
def fields : Chunk → Nat × Nat × Text × Text
  | digits significant raw => (0, significant.length, significant, raw)
  | word text => (1, 0, text, [])

end Chunk

/-- A text as natural order sees it. -/
abbrev Chunks := List Chunk

/-- The parts of a text: runs of decimal digits, and what stands between them. -/
def Text.parts (s : Text) : List Text :=
  s.splitBy fun a b => isDecimal a == isDecimal b

/-- A text in chunks. -/
def Text.chunks (s : Text) : Chunks :=
  (Text.parts s).map Chunk.ofPart

/-- The order of two texts by their code points. -/
def compareTexts (a b : Text) : Ordering :=
  List.compareLex compare a b

namespace Chunk

/-- The order of two chunks. -/
def compare (a b : Chunk) : Ordering :=
  compareLex (compareOn (·.fields.1)) (compareLex (compareOn (·.fields.2.1))
    (compareLex (fun a b => compareTexts a.fields.2.2.1 b.fields.2.2.1)
      fun a b => compareTexts a.fields.2.2.2 b.fields.2.2.2)) a b

end Chunk

namespace Chunks

/-- The order of two texts in chunks: by the first chunk that differs, and a text
    before its continuations. -/
def compare (a b : Chunks) : Ordering :=
  List.compareLex Chunk.compare a b

end Chunks

end UtilityCss
