import UtilityCss.Bracket.Token
import UtilityCss.Text.Case

/-!
# Decoding bracketed values

A bracketed value is a row of runs, quoted parts and groups. It is decoded by
the following rules.

* Runs: `_` stands for a space and `\_` for an underscore; every other character
  after a backslash stays as it is, with its backslash.
* Quoted parts are kept as they are.
* The content of a group is decoded in turn, except for a group in round
  brackets directly after a run that ends in `url`, which is kept as it is.

`Text.decode` reads from left to right. It fails at the first token that cannot
go on from what was read, or at the end if a group is still open. A failure holds
the text before the place it is reported for, and `DecodeError.column` counts
from the last line break in it.
-/

namespace UtilityCss

/-- Why a bracketed value cannot be decoded. -/
inductive DecodeError where
  /-- What follows `before` starts no token, or is a closer that closes nothing. -/
  | unexpected (before : Text)
  /-- A group is open at the end; the last token comes after `before`. -/
  | unclosed (before : Text)
  deriving DecidableEq, Repr

namespace DecodeError

/-- The text before the place that the error is reported for. -/
def before : DecodeError → Text
  | unexpected before => before
  | unclosed before => before

/-- The column of that place in its line, counted from one. -/
def column (e : DecodeError) : Nat :=
  (e.before.reverse.takeWhile (· ≠ '\n')).length + 1

end DecodeError

/-- The decoded form of a run. -/
def decodeRun : Text → Text
  | [] => []
  | '\\' :: c :: rest => if c = '_' then '_' :: decodeRun rest else '\\' :: c :: decodeRun rest
  | c :: rest => (if c = '_' then ' ' else c) :: decodeRun rest

/-- What was read so far of the value or of one group. -/
structure GroupContent where
  decoded : Text
  raw : Text
  /-- Whether the last part is a run that ends in `url`. -/
  endsInUrl : Bool
  deriving DecidableEq, Repr

namespace GroupContent

/-- Nothing read yet. -/
def empty : GroupContent := ⟨[], [], false⟩

/-- The content with one more run. -/
def addRun (c : GroupContent) (raw : Text) : GroupContent :=
  ⟨c.decoded ++ decodeRun raw, c.raw ++ raw, (Text.lower raw).endsWith "url"⟩

/-- The content with one more quoted part. -/
def addQuoted (c : GroupContent) (raw : Text) : GroupContent :=
  ⟨c.decoded ++ raw, c.raw ++ raw, false⟩

/-- The content with one more group. -/
def addGroup (c : GroupContent) (b : Bracket) (group : GroupContent) : GroupContent :=
  let raw := b.enclose group.raw
  let decoded := if b = .round && c.endsInUrl then raw else b.enclose group.decoded
  ⟨c.decoded ++ decoded, c.raw ++ raw, false⟩

end GroupContent

/-- A point of the way through a value: the groups that stand open, the innermost
    first, each with the content before it, and the content of the innermost. -/
structure Decoding where
  outer : List (Bracket × GroupContent)
  content : GroupContent
  deriving DecidableEq, Repr

namespace Decoding

/-- The start of a value. -/
def start : Decoding := ⟨[], .empty⟩

/-- The point after one more token, unless it closes what is not open. -/
def step? (r : Decoding) : Token → Option Decoding
  | .run raw => some { r with content := r.content.addRun raw }
  | .quoted raw => some { r with content := r.content.addQuoted raw }
  | .opener b => some ⟨(b, r.content) :: r.outer, .empty⟩
  | .closer b =>
    match r.outer with
    | [] => none
    | (b', around) :: outer =>
      if b' = b then some ⟨outer, around.addGroup b r.content⟩ else none

/-- Reads all tokens, of which the first comes after the text `before` and the one
    in front of it after `last`; what follows the tokens is `rest`. -/
def finish (rest : Text) : Decoding → Text → Text → List Token → Except DecodeError Text
  | r, last, before, [] =>
    if !rest.isEmpty then .error (.unexpected before)
    else if !r.outer.isEmpty then .error (.unclosed last)
    else .ok r.content.decoded
  | r, _, before, t :: ts =>
    match r.step? t with
    | none => .error (.unexpected before)
    | some r' => finish rest r' before (before ++ t.raw) ts

end Decoding

namespace Text

/-- The decoded form of the text between the brackets of an arbitrary value. -/
def decode (s : Text) : Except DecodeError Text :=
  let (tokens, rest) := Token.tokenize s
  Decoding.finish rest .start [] [] tokens

/-- The decoded form, if there is one. -/
def decode? (s : Text) : Option Text :=
  (decode s).toOption

end Text

end UtilityCss
