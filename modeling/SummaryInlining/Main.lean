import SummaryInlining.CommandLine.Run

/-!
# The program

The outer layer of the command line: it reads the summary files that the command line names, runs
the command, prints its lines, and writes its trace file.
-/

set_option autoImplicit false

namespace SummaryInlining

namespace CommandLine

/-- The reason behind an error of the operating system. -/
def FileError.ofSystem : IO.Error → FileError
  | .noFileOrDirectory _ _ _ => .notFound
  | .inappropriateType _ 20 _ => .notDirectory
  | .inappropriateType _ 21 _ => .isDirectory
  | .invalidArgument _ 36 _ => .nameTooLong
  | e => .other "EIO" (toString e)

/-- Reads the files at these paths. -/
def readAll (paths : List String) : IO (List (String × Except FileError String)) :=
  paths.mapM fun (path : String) => do
    match ← (IO.FS.readFile path).toBaseIO with
    | .ok text => return (path, .ok text)
    | .error e => return (path, .error (.ofSystem e))

def Line.print : Line → IO Unit
  | .log text => IO.println text
  | .error text => IO.eprintln text

/-- Writes the trace file of a report, if it has one. -/
def Report.write (report : Report) : IO Report := do
  match report.traceFile with
  | none => return report
  | some file =>
    match ← (IO.FS.writeFile file.path file.text).toBaseIO with
    | .ok () => return report
    | .error e => return report.withWriteError (.ofSystem e)

/-- Ends the program as a command ends. -/
def Ending.exit : Ending → IO UInt32
  | .code number => return UInt32.ofNat number
  | .internalError e => do
    IO.eprintln e.message
    return 1
  | .traceNotWritten reason => do
    IO.eprintln reason.code
    return 1

end CommandLine

end SummaryInlining

open SummaryInlining CommandLine in
def main (args : List String) : IO UInt32 := do
  let paths := match Command.parse args with
    | .ok command => command.options.sourcePaths
    | .error _ => []
  let contents ← readAll paths
  let report := run (fun path => (valueAt? path contents).getD (.error .notFound)) args
  report.lines.forM Line.print
  let written ← report.write
  written.ending.exit
