import UtilityCss.CommandLine.Options

/-!
# Invocations

What the arguments of the program ask for. They are read in two rounds: the words in
front of the name of the command are options of the program; after it, options and
arguments of the command may come in any order.

* `Command.invocation?`: what the words after the name of a command ask for;
* `Invocation.ofArguments`: what all the arguments ask for.
-/

namespace UtilityCss

/-- A command with its arguments. -/
inductive Command where
  | compile (classes : List Text) (strict : Bool)
  | order (classes : List Text) (keys : Bool)
  | classes (start : Text)
  | variants

/-- What the arguments of the program ask for. -/
inductive Invocation where
  | version
  | help
  | run (command : Command)
  /-- A word is missing, or there is one that is not known. -/
  | misuse

/-- The options of the program. To be verbose asks for a log, which changes no answer. -/
def programOptions : OptionSet :=
  ⟨["--version", "--verbose", "--help"], [], ['v'], false⟩

/-- The options of a command. -/
def commandOptions (flags valued : List Text) : OptionSet :=
  ⟨"--help".toList :: flags, valued, [], true⟩

/-- A command whose words were sorted, or help if it is asked for. -/
def invocationOf (words : Option SortedWords) (command : SortedWords → Option Command) :
    Invocation :=
  match words with
  | none => .misuse
  | some w =>
    if w.has ["--help"] then .help
    else match command w with
      | none => .misuse
      | some c => .run c

namespace Command

/-- What the words after the name of a command ask for, unless there is no command with
    that name. -/
def invocation? (name : Text) (words : List Text) : Option Invocation :=
  if name = "compile".toList then
    some (invocationOf ((commandOptions ["--strict"] []).sort? words) fun w =>
      if w.others.isEmpty then none else some (.compile w.others (w.has ["--strict"])))
  else if name = "order".toList then
    some (invocationOf ((commandOptions ["--keys"] []).sort? words) fun w =>
      if w.others.isEmpty then none else some (.order w.others (w.has ["--keys"])))
  else if name = "classes".toList then
    some (invocationOf ((commandOptions [] ["--prefix"]).sort? words) fun w =>
      if w.others.isEmpty then some (.classes ((w.value? "--prefix").getD [])) else none)
  else if name = "variants".toList then
    some (invocationOf ((commandOptions [] []).sort? words) fun w =>
      if w.others.isEmpty then some .variants else none)
  else none

end Command

namespace Invocation

/-- The version or the help, if an option of the program asks for it: the first one
    counts. -/
def ofFlags? (w : SortedWords) : Option Invocation :=
  (w.flags.find? ["--version".toList, "--help".toList].contains).map fun flag =>
    if flag = "--version".toList then version else help

/-- What words without a command ask for. They are read once more for options of the
    program, since a double hyphen in front of them may have ended the options. -/
def withoutCommand (words : List Text) : Invocation :=
  ((programOptions.sort? words).bind ofFlags?).getD misuse

/-- What the arguments of the program ask for. -/
def ofArguments (arguments : List Text) : Invocation :=
  match programOptions.sort? arguments with
  | none => misuse
  | some w =>
    match ofFlags? w, w.others with
    | some invocation, _ => invocation
    | none, [] => misuse
    | none, name :: words =>
      (Command.invocation? name words).getD (withoutCommand (name :: words))

end Invocation

end UtilityCss
