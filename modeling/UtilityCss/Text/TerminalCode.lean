import UtilityCss.Text.CharRange

/-!
# Terminal codes

A terminal code tells a terminal how to show what follows it, such as a color or a
place of the cursor. It begins with the escape character and a square bracket; then
come parameters, marks and one final character, each from a range of its own. What is
printed need not go to a terminal, so the codes are left out. Other uses of the escape
character are no codes of this form and stay.

* `afterCode?`: the text after a code;
* `withoutTerminalCodes`: a text without its codes.
-/

namespace UtilityCss

/-- The characters of parameters: digits, and the signs from colon to question mark. -/
def codeParameters : CharRange := ⟨0x30, 0x3F⟩

/-- The characters of the marks after the parameters: from space to slash. -/
def codeMarks : CharRange := ⟨0x20, 0x2F⟩

/-- The characters that end a code: from the at sign to the tilde. -/
def codeEnds : CharRange := ⟨0x40, 0x7E⟩

/-- The text after a code, given the text after its escape character. -/
def afterCode? : Text → Option Text
  | '[' :: rest =>
    match (rest.dropWhile codeParameters.holds).dropWhile codeMarks.holds with
    | c :: after => if codeEnds.holds c then some after else none
    | [] => none
  | _ => none

theorem length_lt_of_afterCode? {s after : Text} (h : afterCode? s = some after) :
    after.length < s.length := by
  unfold afterCode? at h
  split at h
  · next rest =>
    have h₁ := (List.dropWhile_sublist codeParameters.holds (l := rest)).length_le
    have h₂ := (List.dropWhile_sublist codeMarks.holds
      (l := rest.dropWhile codeParameters.holds)).length_le
    grind
  · simp at h

/-- A text without terminal codes. -/
def withoutTerminalCodes : Text → Text
  | [] => []
  | c :: rest =>
    match h : if c = '\x1b' then afterCode? rest else none with
    | some after =>
      have : after.length < rest.length :=
        length_lt_of_afterCode? (Option.ite_none_right_eq_some.1 h).2
      withoutTerminalCodes after
    | none => c :: withoutTerminalCodes rest
termination_by s => s.length

end UtilityCss
