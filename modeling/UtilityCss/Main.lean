import UtilityCss.CommandLine.Run

/-!
# The program

Reads its arguments, prints what `runCommandLine` gives, and ends with its exit code.
-/

open UtilityCss in
/-- Runs the command line. -/
def main (arguments : List String) : IO UInt32 := do
  let result := runCommandLine (arguments.map String.toList)
  IO.print (String.ofList result.output)
  IO.eprint (String.ofList result.errors)
  return UInt32.ofNat result.exitCode
