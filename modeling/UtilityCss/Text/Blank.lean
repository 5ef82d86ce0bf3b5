import UtilityCss.Text.CharRange

/-!
# Blanks

The characters that separate classes and that are trimmed from values: those
with the Unicode property White_Space, and the four information separators
U+001C to U+001F.

* `isBlank_of_isWhitespace`: every white space character of the core library is
  a blank;
* `strip`: a text without the blanks at its ends.
-/

namespace UtilityCss

/-- The blanks, by code point. -/
def blankRanges : List CharRange :=
  [⟨0x09, 0x0D⟩, ⟨0x1C, 0x20⟩, ⟨0x85, 0x85⟩, ⟨0xA0, 0xA0⟩, ⟨0x1680, 0x1680⟩, ⟨0x2000, 0x200A⟩,
    ⟨0x2028, 0x2029⟩, ⟨0x202F, 0x202F⟩, ⟨0x205F, 0x205F⟩, ⟨0x3000, 0x3000⟩]

/-- Whether a character is a blank. -/
def isBlank (c : Char) : Bool :=
  CharRange.anyHolds blankRanges c

theorem isBlank_of_isWhitespace {c : Char} (h : c.isWhitespace) : isBlank c := by
  simp only [Char.isWhitespace, Bool.or_eq_true, decide_eq_true_eq] at h
  rcases h with ((rfl | rfl) | rfl) | rfl <;> decide

namespace Text

/-- The text without the blanks at both ends. -/
def strip (s : Text) : Text :=
  dropEndWhile isBlank (s.dropWhile isBlank)

/-- The ends that are stripped off are blank. -/
theorem exists_eq_strip (s : Text) : ∃ left right, s = left ++ s.strip ++ right ∧
    (∀ c ∈ left, isBlank c = true) ∧ ∀ c ∈ right, isBlank c = true := by
  have hleft := List.takeWhile_append_dropWhile (p := isBlank) (l := s)
  have hright := List.takeWhile_append_dropWhile (p := isBlank) (l := (s.dropWhile isBlank).reverse)
  refine ⟨s.takeWhile isBlank, ((s.dropWhile isBlank).reverse.takeWhile isBlank).reverse, ?_,
    List.all_eq_true.1 List.all_takeWhile, fun c hc => ?_⟩
  · rw [strip, dropEndWhile, List.append_assoc, ← List.reverse_append, hright, List.reverse_reverse,
      hleft]
  · exact List.all_eq_true.1 List.all_takeWhile c (List.mem_reverse.1 hc)

/-- Whether a text has a blank somewhere. -/
def hasBlank (s : Text) : Bool :=
  s.any isBlank

end Text

end UtilityCss
