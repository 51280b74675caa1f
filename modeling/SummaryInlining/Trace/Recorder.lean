import SummaryInlining.Trace.Basic

/-!
# Recording traces

A `Recorder` builds a trace from calls of `start`, `mark` and `stop`. It keeps the branches that
are open, from the innermost one to the root, each with what has been recorded directly in it.
Nothing is recorded before the first `clear` or after `stopRecording`, and details of events are
only computed while a verbose recording is going on.

Time is logical: the clock of a recorder advances by one whenever it is read. So a recording can
be repeated exactly, and later happenings have later times.
-/

set_option autoImplicit false

namespace SummaryInlining

/-- A branch that has not ended yet. -/
structure OpenBranch where
  title : Title
  /-- When it was started. -/
  start : Number
  /-- What has been recorded directly in it, the latest first. -/
  recorded : List Trace

namespace OpenBranch

/-- Adds a trace behind what has been recorded in a branch. -/
def add (branch : OpenBranch) (trace : Trace) : OpenBranch :=
  { branch with recorded := trace :: branch.recorded }

/-- Adds a trace if there is one. -/
def addOption (branch : OpenBranch) : Option Trace → OpenBranch
  | none => branch
  | some trace => branch.add trace

/-- The branch as a trace that ends at `stop`, or has not ended. -/
def toTrace (branch : OpenBranch) (stop : Option Number) : Trace :=
  .branch branch.title branch.start stop branch.recorded.reverse

end OpenBranch

/-- Why a branch cannot be stopped. -/
inductive TraceError where
  /-- The title given is not the one of the innermost open branch. -/
  | mismatch (given active : Title)
  /-- No branch but the root is open. -/
  | noOpenBranch (given : Option Title)

namespace TraceError

def message : TraceError → String
  | .mismatch given active =>
    "mismatched trace:\n\t" ++ given.encode.compact ++ "\n\t!=\n\t" ++ active.encode.compact
  | .noOpenBranch given =>
    "mismatched trace:\n\tno branch open for\n\t" ++ (given.map (·.encode.compact)).getD "undefined"

end TraceError

/-- A recorder of traces. -/
structure Recorder where
  root : OpenBranch
  /-- When the root was last published. -/
  rootStop : Option Number
  /-- The open branches below the root, the innermost first. -/
  branches : List OpenBranch
  /-- Whether anything is recorded. -/
  recording : Bool
  /-- Whether details are computed. -/
  verbose : Bool
  /-- How often the clock has been read. -/
  clock : Nat

namespace Recorder

/-- The recorder before any call. -/
def initial : Recorder :=
  { root := ⟨.text "root", .ofNat 0, []⟩, rootStop := none, branches := [], recording := false,
    verbose := false, clock := 1 }

/-- The current time. -/
def now (r : Recorder) : Number := .ofNat r.clock

/-- The recorder after a reading of its clock. -/
def tick (r : Recorder) : Recorder := { r with clock := r.clock + 1 }

/-- The innermost open branch. -/
def active (r : Recorder) : OpenBranch := r.branches.head?.getD r.root

/-- Adds a trace to the innermost open branch. -/
def add (r : Recorder) (trace : Trace) : Recorder :=
  match r.branches with
  | [] => { r with root := r.root.add trace }
  | branch :: outer => { r with branches := branch.add trace :: outer }

/-- Discards everything recorded and starts recording below a new root. -/
def clear (title : Title) (r : Recorder) : Recorder :=
  { r.tick with
    root := ⟨title, r.now, []⟩, rootStop := none, branches := [], recording := true }

/-- Stops recording until the next `clear`. What has been recorded remains. -/
def stopRecording (r : Recorder) : Recorder := { r with recording := false }

/-- Decides whether details are computed. -/
def setVerbose (verbose : Bool) (r : Recorder) : Recorder := { r with verbose }

/-- Opens a branch inside the innermost open one. -/
def start (title : Title) (r : Recorder) : Recorder :=
  if r.recording then { r.tick with branches := ⟨title, r.now, []⟩ :: r.branches } else r

/-- What stands for details that are not computed. -/
def skippedDetails : String := "(details skipped; tracing is not verbose)"

/-- The details of an event, which are computed by the given action if the recorder is verbose. -/
def detailsOf {m : Type → Type} [Monad m] (r : Recorder) :
    Option (m String) → m (Option String)
  | none => pure none
  | some compute => if r.verbose then some <$> compute else pure (some skippedDetails)

/-- Records an event in the innermost open branch. -/
def mark {m : Type → Type} [Monad m] (title : Title) (details : Option (m String))
    (r : Recorder) : m Recorder :=
  if r.recording then do
    let details ← r.detailsOf details
    return r.tick.add (.event title details r.now)
  else pure r

/-- Ends the innermost open branch. When a title is given, both it and the title of the branch have
to be the same text. -/
def stop (title : Option Title) (r : Recorder) : Except TraceError Recorder :=
  if !r.recording then .ok r
  else
    match title.filter (fun given => !given.isSameText r.active.title) with
    | some given => .error (.mismatch given r.active.title)
    | none =>
      match r.branches with
      | [] => .error (.noOpenBranch title)
      | branch :: outer =>
        .ok ({ r.tick with branches := outer }.add (branch.toTrace (some r.now)))

/-- Ends the innermost open branch, if there is one below the root. -/
def close (r : Recorder) : Recorder :=
  match r.stop none with
  | .ok stopped => stopped
  | .error _ => r

/-- Everything recorded since the last `clear`. A branch that is still open stands last in the
branch around it. -/
def trace (r : Recorder) : Trace :=
  let innermost := r.branches.foldl
    (fun inner branch => some ((branch.addOption inner).toTrace none)) none
  (r.root.addOption innermost).toTrace r.rootStop

/-- Ends the root branch and answers the whole trace. -/
def publish (r : Recorder) : Trace × Recorder :=
  let ended := { r.tick with rootStop := some r.now }
  (ended.trace, ended)

end Recorder

end SummaryInlining
