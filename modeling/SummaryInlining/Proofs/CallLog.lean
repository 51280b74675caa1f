import SummaryInlining.Proofs.Brackets
import SummaryInlining.Proofs.Runs

/-!
# The calls of a recorder and their log

A log keeps the calls that shape a trace, as brackets, and nothing else: those made since the last
`clear` while recording, apart from the stops that were refused. Which stops these are is decided
by the tree that the brackets describe. `Recorder.Call.perform` and `Recorder.Call.log` are the
effects of one call on a recorder and on a log, and both run the actions that compute details, in a
world `σ` that contains neither.

A recorder agrees with a log (`Recorder.Agrees`) when the brackets can be cut at its open branches,
so that each part is balanced and describes what was recorded directly in one branch. Every call
preserves this (`Recorder.agrees_perform`), and the trace of a recorder that agrees is the tree that
the brackets describe (`Recorder.Agrees.outline_trace`).
-/

set_option autoImplicit false

namespace SummaryInlining

/-- A title that is a text is the same as no other title. -/
theorem Title.isSameText_text_iff (words : String) (title : Title) :
    (Title.text words).isSameText title = true ↔ title = .text words := by
  cases title with
  | text other =>
    simp only [isSameText, decide_eq_true_eq, text.injEq]
    exact eq_comm
  | parts values => simp [isSameText]

namespace Recorder

/-- A call of a recorder. The details of an event are computed by an action on a world `σ`. -/
inductive Call (σ : Type) where
  | clear (title : String)
  | stopRecording
  | setVerbose (verbose : Bool)
  | start (title : Title)
  | mark (title : Title) (details : Option (StateM σ String))
  | stop (title : Option String)
  | publish

/-- The calls that record something, and do nothing while nothing is recorded. -/
def Call.IsRecording {σ : Type} : Call σ → Prop
  | .start _ | .mark _ _ | .stop _ => True
  | _ => False

section

variable {σ : Type}

/-- A call of a recorder: the error that it throws, and the recorder after it. -/
def Call.perform (call : Call σ) (r : Recorder) : StateM σ (Option TraceError × Recorder) :=
  match call with
  | .clear title => pure (none, r.clear (.text title))
  | .stopRecording => pure (none, r.stopRecording)
  | .setVerbose verbose => pure (none, r.setVerbose verbose)
  | .start title => pure (none, r.start title)
  | .mark title details => do return (none, ← r.mark title details)
  | .stop title =>
    match r.stop (title.map .text) with
    | .ok stopped => pure (none, stopped)
    | .error e => pure (some e, r)
  | .publish => pure (none, r.publish.2)

end

/-! ## The log -/

/-- What the calls so far say about the trace. -/
structure Log where
  /-- The title of the branch around everything. -/
  title : Title
  recording : Bool
  verbose : Bool
  /-- The calls since the last `clear` that shaped the trace. -/
  brackets : List (Bracket (Option String))

namespace Log

/-- The log before any call. -/
def initial : Log := ⟨.text "root", false, false, []⟩

/-- The tree that the calls describe, below the root. -/
def trees (log : Log) : List (Outline (Option String)) := readBrackets log.brackets

/-- The titles of the branches that are open below the root, the innermost first. -/
def openTitles (log : Log) : List Title := Outline.allOpenTitles log.trees

/-- The title of the innermost open branch. -/
def activeTitle (log : Log) : Title := log.openTitles.head?.getD log.title

/-- Adds a call to the log, while recording. -/
def add (log : Log) (bracket : Bracket (Option String)) : Log :=
  if log.recording then { log with brackets := log.brackets ++ [bracket] } else log

/-- A call is added to the log of a recording. -/
theorem add_of_recording {log : Log} (h : log.recording = true)
    (bracket : Bracket (Option String)) :
    log.add bracket = { log with brackets := log.brackets ++ [bracket] } :=
  if_pos h

/-- Why a stop is refused: the title given differs from the one of the innermost open branch, or no
branch is open. -/
def refusal? (log : Log) (title : Option String) : Option TraceError :=
  if log.recording then
    match title.filter fun given => !(Title.text given).isSameText log.activeTitle with
    | some given => some (.mismatch (.text given) log.activeTitle)
    | none => if log.openTitles.isEmpty then some (.noOpenBranch (title.map .text)) else none
  else none

end Log

section

variable {σ : Type}

/-- A call in the log: the error that it throws, and the log after it. Details are computed only
while a verbose recording is going on. -/
def Call.log (call : Call σ) (log : Log) : StateM σ (Option TraceError × Log) :=
  match call with
  | .clear title =>
    pure (none, { log with title := .text title, recording := true, brackets := [] })
  | .stopRecording => pure (none, { log with recording := false })
  | .setVerbose verbose => pure (none, { log with verbose })
  | .start title => pure (none, log.add (.start title))
  | .mark title none => pure (none, log.add (.mark title none))
  | .mark title (some compute) =>
    if log.recording && log.verbose then do return (none, log.add (.mark title (some (← compute))))
    else pure (none, log.add (.mark title (some skippedDetails)))
  | .stop title =>
    match log.refusal? title with
    | some e => pure (some e, log)
    | none => pure (none, log.add .stop)
  | .publish => pure (none, log)

end

/-! ## Agreement -/

/-- What was recorded directly in an open branch, without times. -/
def outlinesOf (branch : OpenBranch) : List (Outline (Option String)) :=
  Trace.outlines id branch.recorded.reverse

/-- A trace that is added comes behind what was recorded in the branch. -/
theorem outlinesOf_add (branch : OpenBranch) (trace : Trace) :
    outlinesOf (branch.add trace) = outlinesOf branch ++ [trace.outline id] := by
  simp [outlinesOf, OpenBranch.add, Trace.outlines_eq_map]

/-- The brackets can be cut at the branches that are open, the innermost first: every part is
balanced and describes what was recorded directly in one branch, the first one in the root. -/
def Written (root : OpenBranch) : List (Bracket (Option String)) → List OpenBranch → Prop
  | brackets, [] => Balanced brackets (outlinesOf root)
  | brackets, branch :: outer =>
    ∃ before inner, brackets = before ++ .start branch.title :: inner ∧
      Balanced inner (outlinesOf branch) ∧ Written root before outer

/-- The open branches as one trace, with `inner` in the innermost one. -/
def nested (branches : List OpenBranch) (inner : Option Trace) : Option Trace :=
  branches.foldl (fun inner branch => some ((branch.addOption inner).toTrace none)) inner

/-- An open branch as a trace lists what was recorded in it, and then the trace inside of it. -/
theorem outline_addOption_toTrace (branch : OpenBranch) (inner : Option Trace) :
    ((branch.addOption inner).toTrace none).outline id =
      .branch branch.title true (outlinesOf branch ++ Trace.outlines id inner.toList) := by
  cases inner with
  | none =>
    simp [OpenBranch.addOption, OpenBranch.toTrace, Trace.outline, outlinesOf,
      Trace.outlines_eq_map]
  | some trace =>
    simp [OpenBranch.addOption, OpenBranch.add, OpenBranch.toTrace, Trace.outline, outlinesOf,
      Trace.outlines_eq_map]

/-- Behind brackets that are written for some open branches, the reading goes on inside the
innermost one. -/
theorem Written.readLevels_append {root : OpenBranch} {brackets : List (Bracket (Option String))}
    {branches : List OpenBranch} (h : Written root brackets branches)
    {rest : List (Bracket (Option String))} (inner : Option Trace)
    (hrest : readLevels rest = .last (Trace.outlines id inner.toList)) :
    readLevels (brackets ++ rest) =
      .last (outlinesOf root ++ Trace.outlines id (nested branches inner).toList) := by
  induction branches generalizing brackets rest inner with
  | nil =>
    have h : Balanced brackets (outlinesOf root) := h
    rw [h.read, hrest]
    rfl
  | cons branch outer ih =>
    obtain ⟨before, opened, rfl, hopened, hbefore⟩ := h
    rw [List.append_assoc]
    refine ih hbefore (some ((branch.addOption inner).toTrace none)) ?_
    rw [List.cons_append, readLevels, hopened.read, hrest]
    simp only [Option.toList_some, Trace.outlines, outline_addOption_toTrace]
    rfl

/-- The titles that brackets leave open are those of the open branches, behind what is open inside
of them. -/
theorem Written.allOpenTitles {root : OpenBranch} {brackets : List (Bracket (Option String))}
    {branches : List OpenBranch} (h : Written root brackets branches) (inner : Option Trace) :
    Outline.allOpenTitles (outlinesOf root ++ Trace.outlines id (nested branches inner).toList) =
      Outline.allOpenTitles (Trace.outlines id inner.toList) ++ branches.map (·.title) := by
  induction branches generalizing brackets inner with
  | nil =>
    have h : Balanced brackets (outlinesOf root) := h
    rw [Outline.allOpenTitles_append, h.openTitles]
    rfl
  | cons branch outer ih =>
    obtain ⟨before, opened, rfl, hopened, hbefore⟩ := h
    refine (ih hbefore (some ((branch.addOption inner).toTrace none))).trans ?_
    simp only [Option.toList_some, Trace.outlines, outline_addOption_toTrace,
      Outline.allOpenTitles, Outline.openTitles, Outline.allOpenTitles_append, hopened.openTitles]
    simp

/-- Balanced brackets behind all others describe what is added to the innermost open branch. -/
theorem Written.add {r : Recorder} {brackets last : List (Bracket (Option String))}
    (h : Written r.root brackets r.branches) {trace : Trace}
    (hlast : Balanced last [trace.outline id]) :
    Written (r.add trace).root (brackets ++ last) (r.add trace).branches := by
  unfold Recorder.add
  cases hbranches : r.branches with
  | nil =>
    rw [hbranches] at h
    have h : Balanced brackets (outlinesOf r.root) := h
    show Balanced _ (outlinesOf (r.root.add trace))
    rw [outlinesOf_add]
    exact h.append hlast
  | cons branch outer =>
    rw [hbranches] at h
    obtain ⟨before, inner, rfl, hinner, hbefore⟩ := h
    refine ⟨before, inner ++ last, by simp [OpenBranch.add], ?_, hbefore⟩
    rw [outlinesOf_add]
    exact hinner.append hlast

/-- A recorder and a log of the same calls. -/
structure Agrees (r : Recorder) (log : Log) : Prop where
  title : r.root.title = log.title
  recording : r.recording = log.recording
  verbose : r.verbose = log.verbose
  written : Written r.root log.brackets r.branches

/-- Adding a trace keeps the title of the root. -/
theorem add_root_title (r : Recorder) (trace : Trace) :
    (r.add trace).root.title = r.root.title := by
  unfold add
  split <;> rfl

/-- Adding a trace does not switch the recording on or off. -/
theorem add_recording (r : Recorder) (trace : Trace) : (r.add trace).recording = r.recording := by
  unfold add
  split <;> rfl

/-- Adding a trace does not change how verbose the recorder is. -/
theorem add_verbose (r : Recorder) (trace : Trace) : (r.add trace).verbose = r.verbose := by
  unfold add
  split <;> rfl

namespace Agrees

variable {r : Recorder} {log : Log}

/-- The log describes what was recorded below the root, with the open branches at the end. -/
theorem trees_eq (h : Agrees r log) :
    log.trees = outlinesOf r.root ++ Trace.outlines id (nested r.branches none).toList := by
  have hread := h.written.readLevels_append none (show readLevels [] = .last [] from rfl)
  rw [List.append_nil] at hread
  rw [Log.trees, readBrackets, hread]
  rfl

/-- The trace is the tree that the log describes. -/
theorem outline_trace (h : Agrees r log) :
    r.trace.outline id = .branch log.title r.rootStop.isNone log.trees := by
  rw [h.trees_eq, ← h.title]
  show ((r.root.addOption (nested r.branches none)).toTrace r.rootStop).outline id = _
  cases nested r.branches none with
  | none =>
    simp [OpenBranch.addOption, OpenBranch.toTrace, Trace.outline, outlinesOf,
      Trace.outlines_eq_map]
  | some trace =>
    simp [OpenBranch.addOption, OpenBranch.add, OpenBranch.toTrace, Trace.outline, outlinesOf,
      Trace.outlines_eq_map]

/-- The branches that are open are those that the log leaves open. -/
theorem openTitles_eq (h : Agrees r log) : log.openTitles = r.branches.map (·.title) := by
  rw [Log.openTitles, h.trees_eq, h.written.allOpenTitles none]
  rfl

/-- The innermost open branch has the title that the log says. -/
theorem activeTitle_eq (h : Agrees r log) : log.activeTitle = r.active.title := by
  rw [Log.activeTitle, h.openTitles_eq, ← h.title, Recorder.active]
  cases r.branches with
  | nil => rfl
  | cons branch outer => rfl

/-- What adds balanced brackets to the log and a trace to the recorder keeps them in agreement. -/
theorem add (h : Agrees r log) {last : List (Bracket (Option String))} {trace : Trace}
    (hlast : Balanced last [trace.outline id]) :
    Agrees (r.add trace) { log with brackets := log.brackets ++ last } where
  title := (add_root_title r trace).trans h.title
  recording := (add_recording r trace).trans h.recording
  verbose := (add_verbose r trace).trans h.verbose
  written := h.written.add hlast

/-- Opening a branch keeps the agreement of recorder and log. -/
theorem start (h : Agrees r log) (title : Title) :
    Agrees (r.start title) (log.add (.start title)) := by
  unfold Recorder.start
  by_cases hrecording : r.recording = true
  · rw [if_pos hrecording, Log.add_of_recording (h.recording ▸ hrecording)]
    exact ⟨h.title, h.recording, h.verbose, log.brackets, [], rfl, balanced_nil, h.written⟩
  · rw [if_neg hrecording, Log.add, if_neg (h.recording ▸ hrecording)]
    exact h

/-- An event with these details is recorded. -/
theorem mark (h : Agrees r log) (title : Title) (details : Option String)
    (hrecording : r.recording = true) :
    Agrees (r.tick.add (.event title details r.now)) (log.add (.mark title details)) := by
  have hevent : Balanced [.mark title details] [(Trace.event title details r.now).outline id] :=
    balanced_mark title details
  rw [Log.add_of_recording (h.recording ▸ hrecording)]
  exact add (r := r.tick) ⟨h.title, h.recording, h.verbose, h.written⟩ hevent

/-- The innermost open branch is closed. -/
theorem close (h : Agrees r log) {branch : OpenBranch} {outer : List OpenBranch}
    (hbranches : r.branches = branch :: outer) (hrecording : r.recording = true) :
    Agrees ({ r.tick with branches := outer }.add (branch.toTrace (some r.now)))
      (log.add .stop) := by
  have hwritten := h.written
  rw [hbranches] at hwritten
  obtain ⟨before, inner, hbrackets, hinner, hbefore⟩ := hwritten
  have houter : Agrees { r.tick with branches := outer } { log with brackets := before } :=
    ⟨h.title, h.recording, h.verbose, hbefore⟩
  have hclosed : Balanced (.start branch.title :: inner ++ [.stop])
      [(branch.toTrace (some r.now)).outline id] := hinner.branch branch.title
  rw [Log.add_of_recording (h.recording ▸ hrecording), hbrackets, List.append_assoc]
  exact houter.add hclosed

end Agrees

/-- Before any call recorder and log agree. -/
theorem agrees_initial : Agrees initial .initial where
  title := rfl
  recording := rfl
  verbose := rfl
  written := balanced_nil

/-! ## Calls -/

/-- A recorder that does not record takes no notice of a stop. -/
theorem stop_of_not_recording {r : Recorder} (h : r.recording = false) (title : Option Title) :
    r.stop title = .ok r := by
  rw [stop, h]
  rfl

/-- Whether a stop is refused, and what it does otherwise. -/
theorem stop_of_recording {r : Recorder} (h : r.recording = true) (title : Option Title) :
    r.stop title =
      match title.filter (fun given => !given.isSameText r.active.title) with
      | some given => .error (.mismatch given r.active.title)
      | none =>
        match r.branches with
        | [] => .error (.noOpenBranch title)
        | branch :: outer =>
          .ok ({ r.tick with branches := outer }.add (branch.toTrace (some r.now))) := by
  rw [stop, h]
  rfl

section

variable {σ : Type} {r : Recorder} {log : Log}

/-- A stop has the same outcome for recorder and log, and keeps their agreement. -/
theorem agrees_stop (h : Agrees r log) (title : Option String) :
    SameEffect (σ := σ) Agrees (Call.perform (.stop title) r) (Call.log (.stop title) log) := by
  unfold Call.perform Call.log Log.refusal?
  cases hrecording : r.recording with
  | false =>
    have hlog : log.recording = false := h.recording.symm.trans hrecording
    simp only [stop_of_not_recording hrecording, hlog, Log.add]
    exact sameEffect_pure none h
  | true =>
    have hlog : log.recording = true := h.recording.symm.trans hrecording
    simp only [stop_of_recording hrecording, hlog, h.activeTitle_eq, h.openTitles_eq, if_true,
      Option.filter_map, Function.comp_def]
    cases title.filter fun given => !(Title.text given).isSameText r.active.title with
    | some given => exact sameEffect_pure _ h
    | none =>
      cases hbranches : r.branches with
      | nil => exact sameEffect_pure _ h
      | cons branch outer => exact sameEffect_pure none (h.close hbranches hrecording)

/-- An event has the same outcome for recorder and log, and keeps their agreement. -/
theorem agrees_mark (h : Agrees r log) (title : Title) (details : Option (StateM σ String)) :
    SameEffect Agrees (Call.perform (.mark title details) r)
      (Call.log (.mark title details) log) := by
  cases hrecording : r.recording with
  | false =>
    have hlog : log.recording = false := h.recording.symm.trans hrecording
    cases details with
    | none =>
      simp only [Call.perform, Recorder.mark, Call.log, Log.add, hrecording, hlog]
      exact sameEffect_pure none h
    | some compute =>
      simp only [Call.perform, Recorder.mark, Call.log, Log.add, hrecording, hlog]
      exact sameEffect_pure none h
  | true =>
    have hlog : log.recording = true := h.recording.symm.trans hrecording
    cases details with
    | none =>
      simp only [Call.perform, Recorder.mark, Call.log, hrecording]
      exact sameEffect_pure none (h.mark title none hrecording)
    | some compute =>
      cases hverbose : r.verbose with
      | false =>
        have hlogVerbose : log.verbose = false := h.verbose.symm.trans hverbose
        simp only [Call.perform, Recorder.mark, Call.log, hrecording, hlog, detailsOf, hverbose,
          hlogVerbose]
        exact sameEffect_pure none (h.mark title (some skippedDetails) hrecording)
      | true =>
        have hlogVerbose : log.verbose = true := h.verbose.symm.trans hverbose
        simp only [Call.perform, Recorder.mark, Call.log, hrecording, hlog, detailsOf, hverbose,
          hlogVerbose]
        intro world
        exact ⟨none, _, _, _, rfl, rfl, h.mark title _ hrecording⟩

/-- A call has the same effect on the world, throws the same, and keeps recorder and log in
agreement. -/
theorem agrees_perform (call : Call σ) (h : Agrees r log) :
    SameEffect Agrees (call.perform r) (call.log log) := by
  cases call with
  | clear title => exact sameEffect_pure none ⟨rfl, rfl, h.verbose, balanced_nil⟩
  | stopRecording => exact sameEffect_pure none ⟨h.title, rfl, h.verbose, h.written⟩
  | setVerbose verbose => exact sameEffect_pure none ⟨h.title, h.recording, rfl, h.written⟩
  | start title => exact sameEffect_pure none (h.start title)
  | mark title details => exact agrees_mark h title details
  | stop title => exact agrees_stop h title
  | publish => exact sameEffect_pure none ⟨h.title, h.recording, h.verbose, h.written⟩

end

end Recorder

end SummaryInlining
