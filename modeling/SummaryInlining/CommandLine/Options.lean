/-!
# Command lines

A command line names a command, and for `instantiate` and `check` an entry function and options,
before a single dash; what follows the dash are the paths of summary files. `Command.parse` reads
it, and `UsageError.lines` says what is printed when it cannot be read.
-/

set_option autoImplicit false

namespace SummaryInlining

namespace CommandLine

/-- What is printed above the list of commands, one line each. -/
def supportedCommands : List String :=
  ["Supported commands:",
    "\tinstantiate <entry> [--trace=<file>] [--verbose] - <summary files>",
    "\tcheck <entry> [--trace=<file>] [--verbose] - <summary files>",
    "\tshow - <summary files>"]

/-- Why a command line cannot be read. -/
inductive UsageError where
  /-- There is no command of this name; without any argument there is no name. -/
  | unknownCommand (name : Option String)
  | missingEntry
  | unknownOption (option : String)
  /-- The dash before the summary files is missing. -/
  | missingDash
  /-- There are no summary files behind the dash. -/
  | missingFiles
  deriving DecidableEq

/-- The lines that report a usage error. -/
def UsageError.lines : UsageError → List String
  | .unknownCommand name =>
    ("Unknown command `" ++ name.getD "undefined" ++ "`") :: supportedCommands
  | .missingEntry => ["Expected an entry function name"]
  | .unknownOption option => ["Unknown option `" ++ option ++ "`"]
  | .missingDash => ["Expected `-` before the summary files"]
  | .missingFiles => ["Expected at least one summary file"]

/-- What stands between the command, or its entry function, and the end of the command line. -/
structure Options where
  /-- The file that the trace is written to, if it is wanted. -/
  tracePath : Option String
  verbose : Bool
  sourcePaths : List String
  deriving DecidableEq

/-- The dash that stands before the summary files. -/
def dash : String := "-"

/-- How the option that asks for a trace begins. -/
def traceOption : String := "--trace="

/-- The option that asks for details. -/
def verboseOption : String := "--verbose"

/-- The path that an option asks the trace to be written to. -/
def tracePath? (arg : String) : Option String :=
  if traceOption.toList.isPrefixOf arg.toList then
    some (String.ofList (arg.toList.drop traceOption.toList.length))
  else none

/-- Reads options up to the dash and the paths behind it. Of several trace paths the last counts. -/
def Options.parse (tracePath : Option String) (verbose : Bool) :
    List String → Except UsageError Options
  | [] => .error .missingDash
  | arg :: rest =>
    if arg = dash then
      if rest.isEmpty then .error .missingFiles else .ok ⟨tracePath, verbose, rest⟩
    else
      match tracePath? arg with
      | some path => parse (some path) verbose rest
      | none =>
        if arg = verboseOption then parse tracePath true rest else .error (.unknownOption arg)

/-- Whether an argument cannot be the name of an entry function. -/
def isReserved (arg : String) : Bool :=
  arg = dash || "--".toList.isPrefixOf arg.toList

/-- A command with everything it needs. -/
inductive Command where
  | instantiate (entry : String) (options : Options)
  | check (entry : String) (options : Options)
  | show (options : Options)
  deriving DecidableEq

/-- Reads the arguments behind a command that takes an entry function. -/
def parseWithEntry (args : List String) : Except UsageError (String × Options) :=
  match args with
  | [] => .error .missingEntry
  | entry :: rest =>
    if isReserved entry then .error .missingEntry
    else (Options.parse none false rest).map fun options => (entry, options)

def Command.parse : List String → Except UsageError Command
  | [] => .error (.unknownCommand none)
  | name :: args =>
    if name = "instantiate" then
      (parseWithEntry args).map fun parsed => .instantiate parsed.1 parsed.2
    else if name = "check" then
      (parseWithEntry args).map fun parsed => .check parsed.1 parsed.2
    else if name = "show" then (Options.parse none false args).map .show
    else .error (.unknownCommand (some name))

def Command.options : Command → Options
  | .instantiate _ options => options
  | .check _ options => options
  | .show options => options

end CommandLine

end SummaryInlining
