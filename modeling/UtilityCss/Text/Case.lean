import UtilityCss.Text.Basic

/-!
# Letter case

Keywords of CSS are compared without regard to case. Two comparisons are in use,
which differ in a few letters beyond ASCII:

* `lowered`: the lower case of a letter. Of the letters beyond ASCII only
  the Kelvin sign has a lower case in ASCII, so only it can meet a keyword;
* `folded`: the letter that a pattern without regard to case takes it for.
  Here the long s counts as `s`, and the dotless and the dotted I count as `i`.

Both leave all other letters beyond ASCII as they are: these meet no keyword.
-/

namespace UtilityCss

/-- The lower case of a letter, as far as an ASCII text can meet it. -/
def lowered (c : Char) : Char :=
  if c = '\u212a' then 'k' else c.toLower

/-- The letter that a pattern without regard to case takes a character for. -/
def folded (c : Char) : Char :=
  if c = '\u017f' then 's'
  else if c = '\u0130' ∨ c = '\u0131' then 'i'
  else lowered c

namespace Text

/-- The text in lower case. -/
def lower (s : Text) : Text :=
  s.map lowered

/-- The text as a pattern without regard to case sees it. -/
def fold (s : Text) : Text :=
  s.map folded

end Text

end UtilityCss
