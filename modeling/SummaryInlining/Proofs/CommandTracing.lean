import SummaryInlining.CommandLine.Run
import SummaryInlining.Proofs.LiveTracing

/-!
# Commands with and without a trace

The commands `instantiate` and `check` take options that ask for a trace. `withoutTracing` drops
these options from what stands behind the entry function, and leaves the dash and the paths behind
it alone. The options that are read from the rest differ in what they say about the trace only
(`parse_withoutTracing`), and what is printed does not depend on that
(`output_runOnEntry_untraced`). The trace that is written for an entry function is the one of its
instantiation, in a root branch that is named after the command (`exists_root_traceText`).
-/

set_option autoImplicit false

namespace SummaryInlining

namespace CommandLine

/-- Drops the options that ask for a trace or for its details. -/
def withoutTracing : List String → List String
  | [] => []
  | arg :: rest =>
    if arg = dash then arg :: rest
    else if (tracePath? arg).isSome || arg = verboseOption then withoutTracing rest
    else arg :: withoutTracing rest

/-- What stands behind the dash is a path. -/
example : withoutTracing ["--trace=t", "--verbose", "-", "--trace=t"] = ["-", "--trace=t"] := by
  decide +kernel

/-- The options of the same command without a trace. -/
def Options.untraced (options : Options) : Options := ⟨none, false, options.sourcePaths⟩

/-- Arguments without those that ask for a trace are read as the options without tracing. -/
theorem parse_withoutTracing (args : List String) (tracePath : Option String) (verbose : Bool) :
    (Options.parse tracePath verbose args).map Options.untraced =
      Options.parse none false (withoutTracing args) := by
  induction args generalizing tracePath verbose with
  | nil => rfl
  | cons arg rest ih =>
    rw [withoutTracing, Options.parse]
    by_cases hdash : arg = dash
    · rw [if_pos hdash, if_pos hdash, Options.parse, if_pos hdash]
      split <;> rfl
    · rw [if_neg hdash, if_neg hdash]
      cases hpath : tracePath? arg with
      | some path => exact ih (some path) verbose
      | none =>
        by_cases hverbose : arg = verboseOption
        · simp only [hverbose, if_pos]
          exact ih tracePath true
        · simp only [hverbose, if_false, Option.isSome_none, Bool.false_or, decide_false,
            Bool.false_eq_true]
          rw [Options.parse, if_neg hdash, hpath]
          simp only [hverbose, if_false]
          rfl

/-- What a command prints, and how it ends. -/
def Report.output (report : Report) : List Line × Ending := (report.lines, report.ending)

section

variable (title entry : String) (options : Options) (read : Reader)
  (present : List InstantiatedConstraint → List Line × Nat)

/-- What is printed, and how the command ends, when an instantiation has come to this. -/
def outputOf (instantiated : Except ArityMismatch Unit × Session) : List Line × Ending :=
  match instantiated.1 with
  | .error e => ([], .internalError e)
  | .ok () =>
    let presented := present instantiated.2.constraints.toList
    (presented.1, .code presented.2)

/-- What a command prints and how it ends is decided by the instantiation. -/
theorem output_reportInstantiation (functions : Environment) :
    (reportInstantiation title entry options functions present).output =
      outputOf present (instantiate functions entry .new) := by
  rw [reportInstantiation, outputOf]
  cases (instantiate functions entry .new).1 with
  | error e => rfl
  | ok value => rfl

/-- What a command prints and how it ends does not depend on its trace. -/
theorem output_runOnEntry_untraced :
    (runOnEntry title entry options.untraced read present).output =
      (runOnEntry title entry options read present).output := by
  unfold runOnEntry
  simp only [Options.untraced]
  split
  · rfl
  · split
    · rw [output_reportInstantiation, output_reportInstantiation]
    · rfl

/-- For an entry function with a summary a trace is written exactly when it is wanted. -/
theorem traceFile_runOnEntry {file : SummaryFile} (hload : load read options.sourcePaths = .ok file)
    (hentry : file.functions.contains entry = true) :
    (runOnEntry title entry options read present).traceFile = options.tracePath.map fun path =>
      ⟨path, traceText title options.verbose (instantiate file.functions entry .new).2⟩ := by
  rw [runOnEntry, hload]
  simp only [hentry, if_true, reportInstantiation]
  cases (instantiate file.functions entry .new).1 with
  | error e => rfl
  | ok value => rfl

/-- Without tracing no trace file is written. -/
theorem traceFile_runOnEntry_untraced :
    (runOnEntry title entry options.untraced read present).traceFile = none := by
  unfold runOnEntry
  cases load read options.untraced.sourcePaths with
  | error e => rfl
  | ok file =>
    simp only
    split
    · rw [reportInstantiation]
      cases (instantiate file.functions entry .new).1 with
      | error e => rfl
      | ok value => rfl
    · rfl

end

/-- The trace that a command writes has one branch, which is named after the command and holds the
trace of the instantiation. -/
theorem exists_root_traceText (title : String) (verbose : Bool) (env : Environment)
    (entry : String) (naming : Naming) :
    ∃ root : Trace, traceText title verbose (instantiate env entry naming).2 =
        root.serialize.indented ∧
      root.outline Option.isSome =
        .branch (.text title) false [instantiationOutline env entry] := by
  let begun := (Recorder.initial.clear (.text title)).setVerbose verbose
  obtain ⟨after, -, hrecord, htraced⟩ := instantiateTraced_observes env entry naming begun
  obtain ⟨child, clock, hchild, rfl⟩ := htraced.records rfl
  refine ⟨((begun.add child).withClock clock).stopRecording.publish.1, ?_, ?_⟩
  · rw [traceText, ← hrecord]
  · rw [← hchild]
    rfl

/-- A command that takes an entry function runs on it, if its arguments can be read. -/
theorem run_of_entry_command {name : String} (hname : name = "instantiate" ∨ name = "check") :
    ∃ present, ∀ (read : Reader) (args : List String),
      run read (name :: args) =
        match parseWithEntry args with
        | .error e => .failure 1 e.lines
        | .ok parsed => runOnEntry (name ++ " " ++ parsed.1) parsed.1 parsed.2 read present := by
  rcases hname with rfl | rfl
  · refine ⟨presentConstraints, fun read args => ?_⟩
    rw [run, Command.parse, if_pos rfl]
    cases parseWithEntry args <;> rfl
  · refine ⟨presentWarnings, fun read args => ?_⟩
    rw [run, Command.parse, if_neg (by decide), if_pos rfl]
    cases parseWithEntry args <;> rfl

/-- The arguments without those that ask for a trace are read alike. -/
theorem parseWithEntry_withoutTracing (entry : String) (rest : List String) :
    parseWithEntry (entry :: withoutTracing rest) =
      (parseWithEntry (entry :: rest)).map fun parsed => (parsed.1, parsed.2.untraced) := by
  rw [parseWithEntry, parseWithEntry, ← parse_withoutTracing rest none false]
  split
  · rfl
  · cases Options.parse none false rest <;> rfl

/-- What `instantiate` and `check` print and how they end is the same without the options that ask
for a trace. The trace that they write, when one is wanted, is that of the instantiation, also when
a mismatch cuts it off. -/
theorem run_withoutTracing {name : String} (hname : name = "instantiate" ∨ name = "check")
    (read : Reader) (entry : String) (rest : List String) :
    (run read (name :: entry :: rest)).output =
        (run read (name :: entry :: withoutTracing rest)).output ∧
      (run read (name :: entry :: withoutTracing rest)).traceFile = none ∧
      ∀ options path file, parseWithEntry (entry :: rest) = .ok (entry, options) →
        options.tracePath = some path → load read options.sourcePaths = .ok file →
        file.functions.contains entry = true →
          ∃ root : Trace,
            (run read (name :: entry :: rest)).traceFile = some ⟨path, root.serialize.indented⟩ ∧
              root.outline Option.isSome = .branch (.text (name ++ " " ++ entry)) false
                [instantiationOutline file.functions entry] := by
  obtain ⟨present, hrun⟩ := run_of_entry_command hname
  rw [hrun, hrun, parseWithEntry_withoutTracing]
  cases parseWithEntry (entry :: rest) with
  | error e =>
    refine ⟨rfl, rfl, fun options path file hparse => ?_⟩
    cases hparse
  | ok parsed =>
    refine ⟨(output_runOnEntry_untraced ..).symm, traceFile_runOnEntry_untraced .., ?_⟩
    intro options path file hparse hpath hload hentry
    cases hparse
    obtain ⟨root, htext, houtline⟩ := exists_root_traceText (name ++ " " ++ entry) options.verbose
      file.functions entry .new
    refine ⟨root, ?_, houtline⟩
    rw [← htext]
    simp only [traceFile_runOnEntry _ entry options read present hload hentry, hpath,
      Option.map_some]

end CommandLine

/-- Tracing only observes. Whatever the state of the recorder, a traced instantiation ends with the
same constraints, the same names of variables and the same mismatch as an untraced one, and leaves
the recorder with its flags and open branches; a recorder that records has one tree more in its
innermost branch, which is the tree of calls up to the first one with the wrong number of arguments.
The instantiation fails exactly when there is such a call, and with its mismatch. So the commands
`instantiate` and `check` print the same and end in the same way with and without a trace, and the
trace that they write holds this tree. -/
theorem tracing_only_observes :
    (∀ (env : Environment) (entry : String) (naming : Naming) (r : Recorder),
      (∃ after, instantiateTraced env entry naming r = .ok (instantiate env entry naming, after) ∧
        (instantiate env entry naming).2.record r = after ∧
        r.HasTraced after (instantiationOutline env entry)) ∧
      (∀ e, (instantiate env entry naming).1 = .error e ↔
        (rootNode? env entry).bind CallNode.mismatch? = some e) ∧
      ∀ root, rootNode? env entry = some root → root.mismatch? = none →
        instantiationOutline env entry =
          .branch (.ofWords ["instantiate", entry]) false [root.outline]) ∧
    ∀ name ∈ ["instantiate", "check"],
      ∀ (read : CommandLine.Reader) (entry : String) (rest : List String),
        let report := CommandLine.run read (name :: entry :: rest)
        let untraced := CommandLine.run read (name :: entry :: CommandLine.withoutTracing rest)
        report.lines = untraced.lines ∧ report.ending = untraced.ending ∧
          untraced.traceFile = none ∧
          ∀ options path file, CommandLine.parseWithEntry (entry :: rest) = .ok (entry, options) →
            options.tracePath = some path →
            CommandLine.load read options.sourcePaths = .ok file →
            file.functions.contains entry = true →
              ∃ root : Trace, report.traceFile = some ⟨path, root.serialize.indented⟩ ∧
                root.outline Option.isSome = .branch (.text (name ++ " " ++ entry)) false
                  [instantiationOutline file.functions entry] := by
  refine ⟨fun env entry naming r => ⟨instantiateTraced_observes env entry naming r,
    instantiate_error_iff env entry naming, fun root hroot hnone => ?_⟩, ?_⟩
  · rw [instantiationOutline, hroot]
    simp only [root.upToMismatch_of_none hnone, CallNode.outlines]
  · intro name hname read entry rest
    have hname : name = "instantiate" ∨ name = "check" := by simpa using hname
    obtain ⟨houtput, huntraced, htrace⟩ :=
      CommandLine.run_withoutTracing hname read entry rest
    obtain ⟨hlines, hending⟩ := Prod.mk.inj houtput
    exact ⟨hlines, hending, huntraced, htrace⟩

end SummaryInlining
