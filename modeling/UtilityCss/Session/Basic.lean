import UtilityCss.Cascade.Key
import UtilityCss.Finding
import UtilityCss.Memo
import UtilityCss.Stylesheet.Printer

/-!
# Sessions

Work with one design goes on in a session, which remembers what it did: every
segment that was read as a variant, every class that was read, and every class that
was compiled is kept in a memo. It also keeps a set of classes that were found
invalid. What a session remembers never changes an answer; it only shows in the
counts and the lists that the session gives of itself, and to a rule that asks for it.

* `Design.readSegment`, `Design.readClass`, `Design.compile`: the three stages,
  each of which asks the memo of the one before it;
* `Design.compileAll`: many classes; in strict mode it stops at the first that
  gives no CSS;
* `Design.classOrder`: the ranks of many classes in cascade order;
* `Design.findingsOn`, `Design.review`, `Design.reviewOrReject`: what is wrong with
  a class, or with many.

An interruption ends a step, but not the session: what was kept before it stays.
-/

namespace UtilityCss

/-- What a session remembers. -/
structure Session where
  variants : Memo (Option Variant)
  candidates : Memo (Option Candidate)
  compiled : Memo Compilation
  /-- The classes that were found invalid, each once. -/
  invalid : List Text

/-- What ends a step of a session. -/
inductive Interruption where
  | fault (fault : Fault)
  | rejected (rejection : Rejection)
  | utilityTable (error : UtilityTableError)
  | variantTable (error : VariantTableError)
  /-- An exception that a rule raises of its own, by its kind. -/
  | raised (kind message : Text)

/-- A step that always comes to an end. -/
abbrev Step := StateM Session

/-- A step that may be interrupted. -/
abbrev Attempt := ExceptT Interruption (StateM Session)

/-- A rule for classes: what it finds about a class of a design. It may use the session, and it
    may be interrupted. -/
abbrev FindingRule := Design → Text → Attempt (List Finding)

/-- A rule that looks at the text alone, as one that makes no use of design and session. -/
def TextRule.rule (find : TextRule) : FindingRule :=
  fun _ raw => return find raw

namespace Session

/-- A session that did nothing yet. -/
def start : Session := ⟨.empty, .empty, .empty, []⟩

/-- The memo of the segments. -/
def variantPlace : MemoPlace Session (Option Variant) :=
  ⟨variants, fun memo s => { s with variants := memo }⟩

/-- The memo of the classes that were read. -/
def candidatePlace : MemoPlace Session (Option Candidate) :=
  ⟨candidates, fun memo s => { s with candidates := memo }⟩

/-- The memo of the classes that were compiled. -/
def compiledPlace : MemoPlace Session Compilation :=
  ⟨compiled, fun memo s => { s with compiled := memo }⟩

/-- How many classes were compiled. -/
def compiledCount (s : Session) : Nat :=
  s.compiled.size

/-- What the segments were read as, in order. -/
def segmentsRead (s : Session) : List (Option Variant) :=
  s.variants.values

/-- The session with one more class found invalid. -/
def markInvalid (s : Session) (raw : Text) : Session :=
  if s.invalid.contains raw then s else { s with invalid := s.invalid ++ [raw] }

/-- Whether a class was found invalid. -/
def isInvalid (s : Session) (raw : Text) : Bool :=
  s.invalid.contains raw

end Session

namespace Design

/-! ## Reading and compiling -/

/-- Reads a segment as a variant, unless it was read before. -/
def readSegment (d : Design) (segment : Text) : Step (Option Variant) :=
  Session.variantPlace.fetch (fun s => pure (Variant.ofText? d.variants d.settings s)) segment

/-- Reads a class, unless it was read before. -/
def readClass (d : Design) (raw : Text) : Step (Option Candidate) :=
  Session.candidatePlace.fetch (Candidate.ofTextWith d.settings d.utilities d.readSegment) raw

/-- Reads and compiles a class. -/
def compileNew (d : Design) (raw : Text) : Attempt Compilation := do
  let some candidate ← d.readClass raw | return .refused .unparsable
  match candidate.compile d with
  | .ok compilation => return compilation
  | .error fault => throw (.fault fault)

/-- Compiles a class, unless it was compiled before. -/
def compile (d : Design) (raw : Text) : Attempt Compilation :=
  Session.compiledPlace.fetch d.compileNew raw

/-! ## Findings -/

/-- A class must be readable. -/
def findUnreadable (d : Design) (raw : Text) : Attempt (List Finding) := do
  if (← d.readClass raw).isSome then return []
  return [.unreadable raw]

/-- A class that is readable must give CSS. -/
def findWithoutCss (d : Design) (raw : Text) : Attempt (List Finding) := do
  if (← d.readClass raw).isNone then return []
  match ← d.compile raw with
  | .produced _ _ => return []
  | .refused reason => return [.withoutCss raw reason.message]

/-- The mark of importance belongs at the end. -/
def findLeadingMark (d : Design) (raw : Text) : Attempt (List Finding) := do
  if raw.head? ≠ some '!' then return []
  if (← d.readClass raw).isNone then return []
  return [.leadingMark raw]

/-- The rules of the library. -/
def libraryRules : List FindingRule :=
  [findUnreadable, findWithoutCss, findLeadingMark]

/-- All that is found about a class: by the rules of the library, then by extra ones. -/
def findingsOn (d : Design) (extra : List FindingRule) (raw : Text) : Attempt (List Finding) :=
  return (← (libraryRules ++ extra).mapM fun rule => rule d raw).flatten

/-- All that is found about a class; an error marks it invalid. -/
def findAndMark (d : Design) (extra : List FindingRule) (raw : Text) :
    Attempt (List Finding) := do
  let found ← d.findingsOn extra raw
  if found.any (·.isError) then modifyThe Session (·.markInvalid raw)
  return found

/-- All that is found about some classes, each looked at once. -/
def review (d : Design) (extra : List FindingRule) (classes : List Text) :
    Attempt (List Finding) :=
  return (← classes.eraseDups.mapM (d.findAndMark extra)).flatten

/-- All that is found about some classes, if none of it is an error. Else the class of
    the first error is rejected, with all its errors. -/
def reviewOrReject (d : Design) (extra : List FindingRule) (classes : List Text) :
    Attempt (List Finding) := do
  let found ← d.review extra classes
  match found.filter (·.isError) with
  | [] => return found
  | first :: more =>
    throw (.rejected ⟨first.candidate,
      (first :: more).filter (·.candidate = first.candidate)⟩)

/-! ## Batches -/

/-- A class with its CSS, if it gives any. In strict mode it is rejected if it gives
    none. -/
def compileOne (d : Design) (strict : Bool) (raw : Text) : Attempt (Text × Option Text) := do
  match (← d.compile raw).nodes with
  | [] =>
    if strict then throw (.rejected ⟨raw, ← d.findingsOn [] raw⟩)
    return (raw, none)
  | nodes => return (raw, some (Node.printAll nodes))

/-- Some classes, each with its CSS. -/
def compileAll (d : Design) (strict : Bool) (classes : List Text) :
    Attempt (List (Text × Option Text)) :=
  classes.mapM (d.compileOne strict)

/-! ## Order -/

/-- The cascade key of a class, if it gives CSS. -/
def cascadeKey (d : Design) (raw : Text) : Attempt (Option CascadeKey) := do
  let some candidate ← d.readClass raw | return none
  return (← d.compile raw).source?.map fun source => candidate.cascadeKey d source

/-- The classes that give CSS, each once and with its key. -/
def keyedClasses (d : Design) (classes : List Text) : Attempt (List KeyedClass) :=
  classes.eraseDups.filterMapM fun raw => do
    return (← d.cascadeKey raw).map fun key => (raw, key)

/-- Each class with its rank in cascade order, if it gives CSS. -/
def classOrder (d : Design) (classes : List Text) : Attempt (List (Text × Option Nat)) := do
  return ranked (← d.keyedClasses classes) classes

/-! ## Descriptions -/

/-- A short description of a design with the count of a session. -/
def describe (d : Design) (s : Session) : Text :=
  Text.join [] ["DesignSystem(utilities=", Text.ofNat d.utilities.size, ", variants=",
    Text.ofNat d.variants.size, ", compiled=", Text.ofNat s.compiledCount, ")"]

end Design

end UtilityCss
