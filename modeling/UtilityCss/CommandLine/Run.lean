import UtilityCss.CommandLine.Invocation
import UtilityCss.Completion
import UtilityCss.Session.Basic
import UtilityCss.Text.TerminalCode

/-!
# The command line

Four commands on the stock design: `compile` prints the CSS of classes, `order`
prints classes in cascade order, `classes` and `variants` list what is on offer.

* `CommandResult`: what is printed, and the exit code;
* `Design.runCommand`: what a command gives on a design;
* `runCommandLine`: what the program gives for its arguments.
-/

namespace UtilityCss

/-- The outcome of a run of the program. -/
structure CommandResult where
  exitCode : Nat
  output : Text
  errors : Text
  deriving DecidableEq, Repr

/-! ## Printing -/

/-- Some lines as they are printed. -/
def printedLines (ls : List Text) : Text :=
  ls.flatMap fun line => withoutTerminalCodes line ++ ['\n']

/-- The line of a class on offer: its name, and the range of its modifiers. -/
def classLine (e : ClassOffer) : Text :=
  match e.modifiers.head?, e.modifiers.getLast? with
  | some first, some last => Text.join [] [e.name, "\t/", first, "..", last]
  | _, _ => e.name

/-- The line of a variant on offer: its name, whether it takes brackets, and the
    arguments known by name. -/
def variantLine (e : VariantOffer) : Text :=
  let brackets : Text :=
    if !e.isArbitrary then [] else if e.hasDash then "-[...]".toList else "[...]".toList
  let values : Text := if e.values.isEmpty then [] else '\t' :: Text.join [',', ' '] e.values
  e.name ++ brackets ++ values

/-- The line of a class in cascade order: its rank, if asked for, and its name. -/
def orderLine (keys : Bool) (raw : Text) (rank : Option Nat) : Text :=
  if keys then Text.join ['\t'] [rank.elim ['-'] Text.ofNat, raw] else raw

/-- Ranked classes in cascade order, then the others as they came. -/
def emissionOrder (ranks : List (Text × Option Nat)) : List (Text × Option Nat) :=
  let ranked := ranks.filter (·.2.isSome)
  ranked.mergeSort (fun a b => a.2.getD 0 ≤ b.2.getD 0) ++ ranks.filter (·.2.isNone)

/-! ## Running -/

namespace CommandResult

/-- The result of a run that prints some lines and succeeds. -/
def success (ls : List Text) : CommandResult := ⟨0, printedLines ls, []⟩

/-- The result of a rejected class: a line that says so, and what was found. -/
def rejected (r : Rejection) : CommandResult :=
  let first := (r.findings.head?.map (·.message)).getD []
  let notice := Text.join [] ["Rejected candidate ", r.candidate.quoted, ": ", first, "\n"]
  ⟨1, [], notice ++ printedLines (r.findings.map Finding.describe)⟩

end CommandResult

namespace Design

/-- Compiles classes and prints their CSS, and what is found about those that give
    none. -/
def runCompile (d : Design) (classes : List Text) (strict : Bool) : Attempt CommandResult := do
  let results ← d.compileAll strict classes
  let printed := results.filterMap Prod.snd
  let failed := (results.filter (·.2.isNone)).map Prod.fst
  if failed.isEmpty then return .success printed
  let found ← d.review [] failed
  let summary := Text.join [] ["Summary: ", Text.ofNat printed.length, " compiled, ",
    Text.ofNat failed.length, " skipped"]
  return ⟨1, printedLines printed, printedLines (found.map Finding.describe ++ [summary])⟩

/-- Runs a command. -/
def runCommand (d : Design) : Command → Attempt CommandResult
  | .compile classes strict => d.runCompile classes strict
  | .order classes keys => do
    let ranks ← d.classOrder classes
    return .success ((emissionOrder ranks).map fun (raw, rank) => orderLine keys raw rank)
  | .classes start =>
    return .success ((d.classOffers.filter (·.name.startsWith start)).map classLine)
  | .variants => return .success (d.variantOffers.map variantLine)

end Design

/-- How the program is used. -/
def usageText : Text :=
  "Usage: [--version] [--verbose] [--help] compile|order|classes|variants ...\n"

/-- Runs a command on the stock design. -/
def runOnStock (command : Command) : CommandResult :=
  match Design.stock with
  | .error e => ⟨1, [], printedLines [e.message]⟩
  | .ok d =>
    match ((d.runCommand command).run.run .start).1 with
    | .ok result => result
    | .error (.rejected r) => .rejected r
    | .error _ => ⟨1, [], []⟩

/-- The result of a run of the program. -/
def runCommandLine (arguments : List Text) : CommandResult :=
  match Invocation.ofArguments arguments with
  | .version => ⟨0, "windwright, version 0.1.0\n", []⟩
  | .help => ⟨0, usageText, []⟩
  | .misuse => ⟨2, [], usageText⟩
  | .run command => runOnStock command

end UtilityCss
