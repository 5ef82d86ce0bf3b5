import UtilityCss.Text.Basic

/-!
# Options

The words of a command line are options and others. An option begins with a hyphen;
it is a flag, or it takes a value, which stands behind an equals sign or is the next
word. Letters behind one hyphen are flags of one letter each. A double hyphen ends the
options.

* `OptionSet.sort?`: the words of a command line, sorted.
-/

namespace UtilityCss

/-- The options that some words may contain. -/
structure OptionSet where
  /-- The options without a value. -/
  flags : List Text
  /-- The options with a value. -/
  valued : List Text
  /-- The flags of one letter. -/
  letters : List Char
  /-- Whether options may come after other words. -/
  interspersed : Bool

/-- The words of a command line, sorted. -/
structure SortedWords where
  flags : List Text
  values : List (Text × Text)
  /-- The words that are no options. -/
  others : List Text

namespace SortedWords

/-- Whether one of some flags is given. -/
def has (w : SortedWords) (names : List Text) : Bool :=
  names.any w.flags.contains

/-- The value of an option: the last one given. -/
def value? (w : SortedWords) (name : Text) : Option Text :=
  w.values.reverse.lookup name

end SortedWords

namespace OptionSet

/-- What one word means. -/
inductive Word where
  | flags (names : List Text)
  | value (name value : Text)
  /-- An option whose value is the next word. -/
  | valueNext (name : Text)
  | unknown
  | other

/-- The meaning of a word that is no double hyphen. A hyphen alone is no option. -/
def wordOf (o : OptionSet) (word : Text) : Word :=
  if word.head? ≠ some '-' || word.length < 2 then .other
  else
    let name := word.takeWhile (· ≠ '=')
    let given := word.dropWhile (· ≠ '=')
    if o.flags.contains name then if given.isEmpty then .flags [name] else .unknown
    else if o.valued.contains name then
      match given with
      | [] => .valueNext name
      | _ :: value => .value name value
    else if word.startsWith "--" then .unknown
    else if word.tail.all o.letters.contains then .flags (word.tail.map (['-', ·]))
    else .unknown

/-- Sorts words into options and others, unless one of them is not known or the value
    of an option is missing. -/
def sort? (o : OptionSet) : List Text → Option SortedWords
  | [] => some ⟨[], [], []⟩
  | word :: words =>
    if word = ['-', '-'] then some ⟨[], [], words⟩
    else match o.wordOf word with
      | .flags names => (sort? o words).map fun w => { w with flags := names ++ w.flags }
      | .value name value =>
        (sort? o words).map fun w => { w with values := (name, value) :: w.values }
      | .valueNext name =>
        match words with
        | [] => none
        | value :: words =>
          (sort? o words).map fun w => { w with values := (name, value) :: w.values }
      | .unknown => none
      | .other =>
        if o.interspersed then
          (sort? o words).map fun w => { w with others := word :: w.others }
        else some ⟨[], [], word :: words⟩

end OptionSet

end UtilityCss
