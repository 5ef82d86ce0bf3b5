import UtilityCss.Text.Basic

/-!
# Brackets

The three kinds of brackets that group parts of a class, and the characters that
have a meaning of their own inside a group: brackets, quotes, and the backslash,
which takes the meaning from the character after it.
-/

namespace UtilityCss

/-- A kind of bracket. -/
inductive Bracket where
  | round
  | square
  | curly
  deriving DecidableEq, Repr

namespace Bracket

/-- The character that opens a group. -/
def opener : Bracket → Char
  | round => '('
  | square => '['
  | curly => '\x7b'

/-- The character that closes a group. -/
def closer : Bracket → Char
  | round => ')'
  | square => ']'
  | curly => '\x7d'

/-- The bracket that a character opens. -/
def ofOpener? (c : Char) : Option Bracket :=
  if c = '(' then some round
  else if c = '[' then some square
  else if c = '\x7b' then some curly
  else none

/-- The bracket that a character closes. -/
def ofCloser? (c : Char) : Option Bracket :=
  if c = ')' then some round
  else if c = ']' then some square
  else if c = '\x7d' then some curly
  else none

/-- The text of a group with the given content. -/
def enclose (b : Bracket) (content : Text) : Text :=
  [b.opener] ++ content ++ [b.closer]

theorem ofOpener?_eq_some {b : Bracket} {c : Char} : ofOpener? c = some b ↔ c = b.opener := by
  cases b <;> grind [ofOpener?, opener]

theorem ofCloser?_eq_some {b : Bracket} {c : Char} : ofCloser? c = some b ↔ c = b.closer := by
  cases b <;> grind [ofCloser?, closer]

@[simp] theorem head?_enclose (b : Bracket) (content : Text) :
    (b.enclose content).head? = some b.opener := rfl

@[simp] theorem inner_enclose (b : Bracket) (content : Text) :
    (b.enclose content).inner = content := by
  simp [enclose, Text.inner]

@[simp] theorem endsWith_enclose (b : Bracket) (content : Text) :
    (b.enclose content).endsWith [b.closer] = true := by
  simp [enclose, Text.endsWith]

theorem opener_ne_closer (b : Bracket) : b.opener ≠ b.closer := by
  cases b <;> decide

/-- A text from the opener to the closer of a bracket is a group. -/
theorem exists_eq_enclose {b : Bracket} {s : Text} (ho : s.head? = some b.opener)
    (hc : s.endsWith [b.closer] = true) : ∃ content, s = b.enclose content := by
  obtain ⟨t, rfl⟩ := List.head?_eq_some_iff.1 ho
  rw [Text.endsWith, List.isSuffixOf_iff_suffix, List.suffix_cons_iff] at hc
  rcases hc with hc | ⟨content, rfl⟩
  · -- One character is not both the opener and the closer.
    exact absurd (List.cons.inj hc).1.symm b.opener_ne_closer
  · exact ⟨content, rfl⟩

end Bracket

/-- Whether a character is a quote. -/
def isQuote (c : Char) : Bool :=
  c = '"' || c = '\''

end UtilityCss
