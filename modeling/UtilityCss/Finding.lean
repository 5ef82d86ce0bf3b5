import UtilityCss.Text.Quoted

/-!
# Findings

What is wrong with a class: which rule says so, how serious it is, what is the
matter, and how it may be mended.

* `Rejection`: a class that is not accepted, with all that was found about it.
-/

namespace UtilityCss

/-- How serious a finding is. -/
inductive Severity where
  | error
  | warning
  | info
  deriving DecidableEq, Repr

/-- A finding about a class. -/
structure Finding where
  rule : Text
  severity : Severity
  message : Text
  candidate : Text
  fix : Option Text
  deriving DecidableEq, Repr

/-- A class that is not accepted, and why. -/
structure Rejection where
  candidate : Text
  findings : List Finding
  deriving DecidableEq, Repr

namespace Severity

/-- The name of a severity. -/
def name : Severity → Text
  | error => "ERROR"
  | warning => "WARNING"
  | info => "INFO"

end Severity

namespace Finding

/-- Whether a finding is an error. -/
def isError (f : Finding) : Bool :=
  f.severity = .error

/-- A class cannot be read. -/
def unreadable (raw : Text) : Finding :=
  ⟨"check_parse", .error, "Not a recognized utility class.", raw,
    some "Check the utility name, variant names and bracket balance."⟩

/-- A class gives no CSS, for a reason. -/
def withoutCss (raw reason : Text) : Finding :=
  ⟨"check_resolves", .error, Text.join [] ["Produces no CSS: ", reason, "."], raw, none⟩

/-- A class bears its mark of importance in front. -/
def leadingMark (raw : Text) : Finding :=
  ⟨"check_important_style", .info, "Leading '!' is the legacy important marker.", raw,
    some (Text.join [] ["Use '", raw.tail, "!' instead."])⟩

/-- A finding as one line. -/
def describe (f : Finding) : Text :=
  Text.join [] [f.severity.name, " [", f.candidate, "]: ", f.message]

end Finding

/-- A rule that looks at nothing but the text of a class. -/
abbrev TextRule := Text → List Finding

namespace TextRule

/-- The rule that finds the same about every class with a given beginning. -/
def onStart (rule : Text) (severity : Severity) (message start : Text) : TextRule :=
  fun raw => if raw.startsWith start then [⟨rule, severity, message, raw, none⟩] else []

end TextRule

namespace Rejection

/-- The wording of a rejection: the messages of its errors. -/
def message (r : Rejection) : Text :=
  Text.join [] ["Invalid candidate ", r.candidate.quoted, ": ",
    Text.join [';', ' '] ((r.findings.filter (·.isError)).map (·.message))]

end Rejection

end UtilityCss
