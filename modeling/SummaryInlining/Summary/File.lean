import SummaryInlining.Diagnostic

/-!
# Summary files

A summary file holds the summaries of some functions and the layouts of the structs that they use.
Merging puts the functions of several files side by side, which is refused when two files
summarize the same function. A struct may be declared again; its last layout counts.
-/

set_option autoImplicit false

namespace SummaryInlining

/-- The content of a summary file. -/
structure SummaryFile where
  fileID : String
  functions : Environment
  structs : TypeEnvironment

namespace SummaryFile

/-- What has been merged so far: the functions, the file that each was summarized in, and the
structs. -/
structure Merged where
  functions : Environment
  /-- The file of each function. -/
  definedIn : Table String
  structs : TypeEnvironment

namespace Merged

def empty : Merged := ⟨.empty, .empty, .empty⟩

/-- Adds a function of the file `fileID`, unless an earlier one has its name. -/
def addFunction (fileID : String) (merged : Merged) (entry : String × FunctionSummary) :
    Except Diagnostic Merged :=
  match merged.definedIn.find? entry.1 with
  | some firstFileID => .error (.redefined entry.1 firstFileID fileID)
  | none =>
    .ok { merged with
      functions := merged.functions.insert entry.1 entry.2
      definedIn := merged.definedIn.insert entry.1 fileID }

/-- Adds the layout of a struct, in place of an earlier one. -/
def addStruct (merged : Merged) (entry : String × List StructField) : Merged :=
  { merged with structs := merged.structs.insert entry.1 entry.2 }

/-- Adds the functions and then the structs of a file. -/
def addFile (merged : Merged) (file : SummaryFile) : Except Diagnostic Merged := do
  let withFunctions ← file.functions.entries.foldlM (addFunction file.fileID) merged
  return file.structs.entries.foldl addStruct withFunctions

end Merged

/-- The file that holds the functions and structs of all files, in their order. -/
def merge (files : List SummaryFile) : Except Diagnostic SummaryFile := do
  let merged ← files.foldlM Merged.addFile Merged.empty
  return ⟨",".intercalate (files.map (·.fileID)), merged.functions, merged.structs⟩

end SummaryFile

end SummaryInlining
