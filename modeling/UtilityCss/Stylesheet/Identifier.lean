import UtilityCss.Text.Quoted

/-!
# CSS identifiers

A class name may hold any character, but an identifier of CSS may not: characters
that have a meaning of their own, and digits at the start, are escaped by a
backslash. Controls and digits are written by their code point, in hexadecimal and
with a space behind. The null character cannot be escaped and is replaced by U+FFFD.

* `Text.escapeIdentifier`: the identifier that denotes a text;
* `Text.escapeIdentifier_of`: what holds of it through its characters.
-/

namespace UtilityCss

/-- The escape of a character by its code point. -/
def codeEscape (c : Char) : Text :=
  '\\' :: hexadecimal 1 c.toNat ++ [' ']

/-- A character that is not at the start of an identifier. -/
def escapeInside (c : Char) : Text :=
  if c.toNat = 0 then ['\ufffd']
  else if c.toNat ≤ 0x1f ∨ c.toNat = 0x7f then codeEscape c
  else if 0x80 ≤ c.toNat ∨ c.isAlphanum ∨ c = '-' ∨ c = '_' then [c]
  else ['\\', c]

/-- A character at the start of an identifier, or after a hyphen there. -/
def escapeStart (c : Char) : Text :=
  if c.isDigit then codeEscape c else escapeInside c

namespace Text

/-- The identifier that denotes a text. A hyphen alone is escaped too. -/
def escapeIdentifier : Text → Text
  | [] => []
  | ['-'] => ['\\', '-']
  | '-' :: c :: rest => '-' :: escapeStart c ++ rest.flatMap escapeInside
  | c :: rest => escapeStart c ++ rest.flatMap escapeInside

/-- What holds of the escapes of the characters, and of hyphens, holds of the identifier. -/
theorem escapeIdentifier_of {P : Text → Prop} {s : Text}
    (append : ∀ {s t}, P s → P t → P (s ++ t)) (nil : P []) (hyphen : P ['-'])
    (lone : P ['\\', '-']) (inside : ∀ c ∈ s, P (escapeInside c))
    (start : ∀ c ∈ s, P (escapeStart c)) : P s.escapeIdentifier := by
  have hrest {rest : Text} (hr : ∀ c ∈ rest, P (escapeInside c)) :
      P (rest.flatMap escapeInside) := by
    induction rest with
    | nil => exact nil
    | cons c rest ih =>
      obtain ⟨hc, hr⟩ := List.forall_mem_cons.1 hr
      exact append hc (ih hr)
  fun_cases escapeIdentifier s with
  | case1 => exact nil
  | case2 => exact lone
  | case3 c rest =>
    exact append (append hyphen (start c (.tail _ (.head _))))
      (hrest fun c hc => inside c (.tail _ (.tail _ hc)))
  | case4 c rest =>
    exact append (start c (.head _)) (hrest fun c hc => inside c (.tail _ hc))

end Text

end UtilityCss
