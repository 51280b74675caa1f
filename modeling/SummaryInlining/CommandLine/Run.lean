import SummaryInlining.Analyzer
import SummaryInlining.CommandLine.Files
import SummaryInlining.CommandLine.Options
import SummaryInlining.Expansion.Tracing
import SummaryInlining.Summary.Decoding
import SummaryInlining.Summary.Text

/-!
# Running a command

`run` answers what a command line leads to, given what can be read: the lines that are printed, how
the command ends, and the text of the trace file if one is to be written. It ends with code 1 when
the command line is at fault, with 2 when a summary file cannot be read or is malformed, with 3 when
summaries clash or the entry function has none, with 5 when a check gives warnings, and otherwise
with 0. An arity mismatch is an internal error, which ends a command without a code. A command that
ends otherwise than with 0 has printed no constraint.
-/

set_option autoImplicit false

namespace SummaryInlining

namespace CommandLine

/-- A printed line. -/
inductive Line where
  | log (text : String)
  | error (text : String)
  deriving DecidableEq

/-- How a command ends. -/
inductive Ending where
  /-- With an exit code. -/
  | code (code : Nat)
  /-- With an internal error. -/
  | internalError (error : ArityMismatch)
  /-- With a trace file that could not be written. -/
  | traceNotWritten (error : FileError)
  deriving DecidableEq

/-- A file to be written. -/
structure TraceFile where
  path : String
  text : String

/-- What a command line leads to. -/
structure Report where
  lines : List Line
  /-- How the command ends, once the trace file has been written. -/
  ending : Ending
  /-- The trace file to be written, if there is one. -/
  traceFile : Option TraceFile

namespace Report

/-- A command that only prints errors and ends with a code. -/
def failure (code : Nat) (errors : List String) : Report :=
  ⟨errors.map Line.error, .code code, none⟩

/-- The ending of a command whose trace file could not be written for this reason. Whatever ended
the command before, this comes last. -/
def withWriteError (report : Report) (reason : FileError) : Report :=
  { report with ending := .traceNotWritten reason }

end Report

/-- Why summary files cannot be loaded. -/
inductive LoadError where
  | repeatedPath
  | unreadable (path : String) (reason : FileError)
  /-- A file does not fit the data model. -/
  | malformed (problem : Diagnostic)
  /-- The files do not fit together. -/
  | clash (problem : Diagnostic)

namespace LoadError

def code : LoadError → Nat
  | .repeatedPath => 1
  | .unreadable _ _ => 2
  | .malformed _ => 2
  | .clash _ => 3

def message : LoadError → String
  | .repeatedPath => "Do not repeat summary files"
  | .unreadable path reason => "Cannot read " ++ ticked path ++ ": " ++ reason.readMessage path
  | .malformed problem => problem.text
  | .clash problem => problem.text

def report (e : LoadError) : Report := .failure e.code [e.message]

end LoadError

/-- How a file is read. -/
abbrev Reader := String → Except FileError String

/-- Reads and decodes one summary file. -/
def loadFile (read : Reader) (path : String) : Except LoadError SummaryFile :=
  match read path with
  | .error reason => .error (.unreadable path reason)
  | .ok text => (SummaryFile.parse path text).mapError .malformed

/-- Reads, decodes and merges summary files. -/
def load (read : Reader) (paths : List String) : Except LoadError SummaryFile :=
  if paths.Nodup then do
    let files ← paths.mapM (loadFile read)
    (SummaryFile.merge files).mapError .clash
  else .error .repeatedPath

/-- The text of the trace of an instantiation, below a root with this title. -/
def traceText (title : String) (verbose : Bool) (session : Session) : String :=
  let recorder := session.record ((Recorder.initial.clear (.text title)).setVerbose verbose)
  recorder.stopRecording.publish.1.serialize.indented

/-- Instantiates an entry function and reports what `present` makes of the constraints. When
a trace is wanted it is written whether or not the instantiation succeeds. -/
def reportInstantiation (title : String) (entry : String) (options : Options)
    (functions : Environment) (present : List InstantiatedConstraint → List Line × Nat) :
    Report :=
  let instantiated := instantiate functions entry .new
  let traceFile := options.tracePath.map fun path =>
    ⟨path, traceText title options.verbose instantiated.2⟩
  match instantiated.1 with
  | .error e => ⟨[], .internalError e, traceFile⟩
  | .ok () =>
    let (lines, code) := present instantiated.2.constraints.toList
    ⟨lines, .code code, traceFile⟩

/-- The output of `instantiate`: one line for each constraint. -/
def presentConstraints (constraints : List InstantiatedConstraint) : List Line × Nat :=
  (constraints.map fun c => .log c.textWithStack, 0)

/-- The output of `check`: one line for each warning. -/
def presentWarnings (constraints : List InstantiatedConstraint) : List Line × Nat :=
  let warnings := unresolvedAsserts (constraints.map .require)
  (warnings.map fun w => .error w.text, if warnings.isEmpty then 0 else 5)

/-- The output of `show`: one line for each function. -/
def presentSummaries (functions : Environment) : List Line :=
  functions.entries.map fun entry => .log (entry.1 ++ ": " ++ entry.2.prettyText)

/-- Runs a command on an entry function, which must have a summary. -/
def runOnEntry (title : String) (entry : String) (options : Options) (read : Reader)
    (present : List InstantiatedConstraint → List Line × Nat) : Report :=
  match load read options.sourcePaths with
  | .error e => e.report
  | .ok file =>
    if file.functions.contains entry then
      reportInstantiation title entry options file.functions present
    else .failure 3 [(Diagnostic.missing entry).text]

def Command.run (read : Reader) : Command → Report
  | .instantiate entry options =>
    runOnEntry ("instantiate " ++ entry) entry options read presentConstraints
  | .check entry options =>
    runOnEntry ("check " ++ entry) entry options read presentWarnings
  | .show options =>
    match load read options.sourcePaths with
    | .error e => e.report
    | .ok file => ⟨presentSummaries file.functions, .code 0, none⟩

/-- Runs a command line. The names in a summary file are read as `SummaryFile.parse` reads them.
Where a text escapes halves of surrogate pairs alone, names that differ in these halves only count
as one name, which can make summaries clash, or one of them stand for the other. -/
def run (read : Reader) (args : List String) : Report :=
  match Command.parse args with
  | .error e => .failure 1 e.lines
  | .ok command => command.run read

end CommandLine

end SummaryInlining
