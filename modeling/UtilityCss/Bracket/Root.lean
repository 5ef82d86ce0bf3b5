import UtilityCss.Text.Basic

/-!
# Root splits

The name in front of a value ends before a hyphen, and as names may hold hyphens
themselves, a text splits in several ways: `gap-x-4` into `gap-x` and `4`, or into
`gap` and `x-4`. Only hyphens before the first square or round bracket count, and a
name is never empty.

* `Text.hyphenSplits`: all such splits, the longest name first;
* `Text.rootSplits`: those whose name exists, and at the end the name `@`, which
  needs no hyphen after it.
-/

namespace UtilityCss

namespace Text

/-- The splits of a text at its hyphens before the first bracket, the last hyphen
    first. -/
def hyphenSplits : Text → List (Text × Text)
  | [] => []
  | c :: rest =>
    if c = '[' ∨ c = '(' then []
    else
      (hyphenSplits rest).map (fun split => (c :: split.1, split.2))
        ++ if c = '-' then [([], rest)] else []

/-- The splits of a text into a name that exists and the text for its value, the
    longest name first. -/
def rootSplits (s : Text) (isRoot : Text → Bool) : List (Text × Text) :=
  (hyphenSplits s).filter (fun split => !split.1.isEmpty && isRoot split.1)
    ++ match s with
      | '@' :: value => if !value.isEmpty && isRoot ['@'] then [(['@'], value)] else []
      | _ => []

end Text

end UtilityCss
