import SummaryInlining.Proofs.CallRecording

/-!
# Tracing while instantiating

An instantiation logs what happens, and its log can be recorded afterwards. Here the recorder takes
part instead: every step of the expansion machine tells it at once what happened in this step, and a
stop that it refuses breaks off the instantiation like any other error. So a recorder could change
what becomes of an instantiation, and a step that closes too many branches would.

A traced run does what the run itself does, and leaves the recorder as if the log had been recorded
(`Machine.runTraced_eq`, from one step to the run). As what an instantiation logs closes the
branches that it opens and no other, no recorder breaks it off (`instantiateTraced_observes`).
-/

set_option autoImplicit false

namespace SummaryInlining

namespace Session

/-- Records what was logged between two sessions. -/
def recordSince (before after : Session) (r : Recorder) : Except TraceError Recorder :=
  r.recordAll (after.events.toList.drop before.events.size)

/-- The second session has logged what the first one has, and then maybe more. -/
def LogExtends (before after : Session) : Prop := before.events.toList <+: after.events.toList

namespace LogExtends

variable {a b c : Session}

/-- A session that has logged the same events extends the log. -/
theorem of_events_eq (h : b.events = a.events) : LogExtends a b :=
  ⟨[], by rw [List.append_nil, h]⟩

/-- Logging an event extends the log. -/
theorem log (session : Session) (event : Event) : LogExtends session (session.log event) :=
  ⟨[event], Array.toList_push.symm⟩

/-- What extends the log in two stretches extends it. -/
theorem trans (hab : LogExtends a b) (hbc : LogExtends b c) : LogExtends a c :=
  List.IsPrefix.trans hab hbc

/-- What was logged is recorded in two parts. -/
theorem recordSince_bind (hab : LogExtends a b) (hbc : LogExtends b c) (r : Recorder) :
    ((a.recordSince b r).bind fun between => b.recordSince c between) = a.recordSince c r := by
  obtain ⟨events, hevents⟩ := hab
  obtain ⟨events', hevents'⟩ := hbc
  have hsecond : c.events.toList.drop b.events.size = events' := by
    rw [← hevents', ← Array.length_toList, List.drop_left]
  have hfirst : b.events.toList.drop a.events.size = events := by
    rw [← hevents, ← Array.length_toList, List.drop_left]
  have hboth : c.events.toList.drop a.events.size = events ++ events' := by
    rw [← hevents', ← hevents, ← Array.length_toList, List.append_assoc, List.drop_left]
  simp only [recordSince, hfirst, hsecond, hboth, Recorder.recordAll_append]

end LogExtends

/-- Leaving a function extends the log. -/
theorem logExtends_leave (session : Session) (name : String) :
    LogExtends session (session.leave name) :=
  .log (session.deactivate name) .leave

/-- Leaving several functions extends the log. -/
theorem logExtends_leaveAll (session : Session) (names : List String) :
    LogExtends session (session.leaveAll names) := by
  induction names generalizing session with
  | nil => exact .of_events_eq rfl
  | cons name rest ih => exact (logExtends_leave session name).trans (ih (session.leave name))

/-- Returning a value extends the log. -/
theorem logExtends_returnValue (session : Session) (frame : Frame) :
    LogExtends session (session.returnValue frame).2 := by
  unfold returnValue
  cases frame.result with
  | none => exact .of_events_eq rfl
  | some result => exact .log (session.named _) _

/-- Binding a result logs nothing. -/
theorem events_bindResult (session : Session) (caller : Waiting) (value : Option Expr) :
    (session.bindResult caller value).events = session.events := by
  unfold bindResult
  split
  · exact events_emitImplied ..
  · rfl

/-- A call that is not expanded extends the log. -/
theorem logExtends_of_skipped {env : Environment} {session after : Session} {name : String}
    {args : List (Option Expr)} {stack : CallStack} {guard : Term .bool}
    (h : session.enter env name args stack guard = .skipped after) : LogExtends session after := by
  unfold enter at h
  split at h
  · cases h
    exact .log session _
  · split at h
    · cases h
      exact .log session _
    · split at h
      · cases h
      · cases h

/-- Entering a function extends the log. -/
theorem logExtends_of_entered {env : Environment} {session after : Session} {name : String}
    {args : List (Option Expr)} {stack : CallStack} {guard : Term .bool} {frame : Frame}
    (h : session.enter env name args stack guard = .entered frame after) :
    LogExtends session after := by
  unfold enter at h
  split at h
  · cases h
  · split at h
    · cases h
    · split at h
      · cases h
      · cases h
        refine LogExtends.trans (.of_events_eq ?_) (.log _ (.enterCallee name))
        rw [bindParameters_eq_foldl]
        exact events_foldl_bindParameter (session.named session.naming.openScope.2) ..

end Session

/-- The session that a step leads to. -/
def Progress.session : Progress → Session
  | .running next => next.session
  | .ended result => result.2

namespace Machine

open Session (LogExtends)

/-- A step of the machine takes back nothing of the log. -/
theorem logExtends_step (env : Environment) (m : Machine) :
    LogExtends m.session (m.step env).session := by
  unfold step
  split
  · -- the top frame ends
    unfold finish
    have hleft := (Session.logExtends_returnValue m.session m.top).trans
      (Session.logExtends_leave _ m.top.name)
    cases m.callers with
    | nil => exact hleft
    | cons caller rest => exact hleft.trans (.of_events_eq (Session.events_bindResult ..))
  · exact .of_events_eq rfl
  · next call rest _ =>
    have hnamed (naming : Naming) : LogExtends m.session (m.session.named naming) :=
      .of_events_eq rfl
    unfold stepCall
    simp only
    split
    · exact (hnamed _).trans (Session.logExtends_leaveAll _ m.names)
    · next after he => exact (hnamed _).trans (Session.logExtends_of_skipped he)
    · next callee after he => exact (hnamed _).trans (Session.logExtends_of_entered he)

/-- A step that goes on extends the log. -/
theorem logExtends_of_running {env : Environment} {m next : Machine}
    (h : m.step env = .running next) : LogExtends m.session next.session := by
  have hstep := logExtends_step env m
  rw [h] at hstep
  exact hstep

/-- A run extends the log. -/
theorem logExtends_run (env : Environment) (m : Machine) :
    LogExtends m.session (m.run env).2 := by
  induction m using run.induct env with
  | case1 m next hstep _ ih =>
    rw [run_of_running hstep]
    exact (logExtends_of_running hstep).trans ih
  | case2 m ended hstep =>
    have hended := logExtends_step env m
    rw [hstep] at hended
    rw [run_of_ended hstep]
    exact hended

/-- Runs the machine until the expansion has ended, and records after each step what was logged in
it. A stop that is refused ends the run. -/
def runTraced (env : Environment) (m : Machine) (r : Recorder) :
    Except TraceError (Expanded × Recorder) :=
  match h : m.step env with
  | .running next =>
    have := work_step_lt h
    do runTraced env next (← m.session.recordSince next.session r)
  | .ended result => do return (result, ← m.session.recordSince result.2 r)
termination_by work env m

/-- A traced run goes on after a step as the run does, with what the step has logged recorded. -/
theorem runTraced_of_running {env : Environment} {m next : Machine}
    (h : m.step env = .running next) (r : Recorder) :
    m.runTraced env r = (m.session.recordSince next.session r).bind (next.runTraced env) := by
  rw [runTraced]
  split
  · next other ho =>
    rw [h] at ho
    cases ho
    rfl
  · next ho =>
    rw [h] at ho
    cases ho

/-- A traced run ends with the step that ends the run. -/
theorem runTraced_of_ended {env : Environment} {m : Machine} {ended : Expanded}
    (h : m.step env = .ended ended) (r : Recorder) :
    m.runTraced env r = (m.session.recordSince ended.2 r).map fun after => (ended, after) := by
  rw [runTraced]
  split
  · next ho =>
    rw [h] at ho
    cases ho
  · next other ho =>
    rw [h] at ho
    cases ho
    rfl

/-- A traced run ends as the run itself, with its log recorded, unless a stop is refused. -/
theorem runTraced_eq (env : Environment) (m : Machine) (r : Recorder) :
    m.runTraced env r =
      (m.session.recordSince (m.run env).2 r).map fun after => (m.run env, after) := by
  induction m using run.induct env generalizing r with
  | case1 m next hstep _ ih =>
    rw [runTraced_of_running hstep, run_of_running hstep,
      ← (logExtends_of_running hstep).recordSince_bind (logExtends_run env next)]
    cases m.session.recordSince next.session r with
    | error e => rfl
    | ok between => exact ih between
  | case2 m ended hstep => rw [runTraced_of_ended hstep, run_of_ended hstep]

end Machine

/-- Expands a call, traced while it runs. -/
def Session.applyTraced (env : Environment) (session : Session) (name : String)
    (args : List (Option Expr)) (stack : CallStack) (guard : Term .bool) (r : Recorder) :
    Except TraceError (Expanded × Recorder) :=
  match session.enter env name args stack guard with
  | .refused e => return ((.error e, session), r)
  | .skipped after => do return ((.ok none, after), ← session.recordSince after r)
  | .entered frame after => do
    Machine.runTraced env ⟨after, frame, []⟩ (← session.recordSince after r)

/-- Instantiates a function, traced while it runs. The branch of the instantiation is closed also
when an arity mismatch cuts it off. -/
def instantiateTraced (env : Environment) (entry : String) (naming : Naming) (r : Recorder) :
    Except TraceError ((Except ArityMismatch Unit × Session) × Recorder) :=
  match env.find? entry with
  | none => do
    let logged := (Session.new naming).log (.unknownRoot entry)
    return ((.ok (), logged), ← (Session.new naming).recordSince logged r)
  | some summary => do
    let opened := naming.openScope
    let args := opened.2.renameExprs opened.1 summary.parameters
    let entered := (Session.new args.2).log (.enterRoot entry)
    let started ← (Session.new args.2).recordSince entered r
    let (applied, after) ← entered.applyTraced env entry args.1 .top .alwaysTrue started
    let left := applied.2.log .leave
    return ((applied.1.map fun _ => (), left), ← applied.2.recordSince left after)

namespace Session

/-- Nothing is recorded where nothing was logged. -/
theorem recordSince_self (session : Session) (r : Recorder) :
    session.recordSince session r = .ok r := by
  rw [recordSince, ← Array.length_toList, List.drop_length]
  rfl

/-- Applying a function extends the log. -/
theorem logExtends_apply (env : Environment) (session : Session) (name : String)
    (args : List (Option Expr)) (stack : CallStack) (guard : Term .bool) :
    LogExtends session (session.apply env name args stack guard).2 := by
  unfold apply
  split
  · exact .of_events_eq rfl
  · next after he => exact logExtends_of_skipped he
  · next frame after he =>
    exact (logExtends_of_entered he).trans (Machine.logExtends_run env ⟨after, frame, []⟩)

/-- Tracing an application while it runs records what the application has logged in the end. -/
theorem applyTraced_eq (env : Environment) (session : Session) (name : String)
    (args : List (Option Expr)) (stack : CallStack) (guard : Term .bool) (r : Recorder) :
    session.applyTraced env name args stack guard r =
      (session.recordSince (session.apply env name args stack guard).2 r).map
        fun after => (session.apply env name args stack guard, after) := by
  unfold applyTraced apply
  cases he : session.enter env name args stack guard with
  | refused e =>
    simp only [recordSince_self]
    rfl
  | skipped after => rfl
  | entered frame after =>
    simp only
    rw [← (logExtends_of_entered he).recordSince_bind
      (Machine.logExtends_run env ⟨after, frame, []⟩)]
    cases session.recordSince after r with
    | error e => rfl
    | ok between => exact Machine.runTraced_eq env ⟨after, frame, []⟩ between

end Session

open Session (LogExtends)

/-- A traced instantiation ends as the instantiation itself, with its log recorded, unless a stop is
refused. -/
theorem instantiateTraced_eq (env : Environment) (entry : String) (naming : Naming)
    (r : Recorder) :
    instantiateTraced env entry naming r =
      (r.recordAll (instantiate env entry naming).2.events.toList).map
        fun after => (instantiate env entry naming, after) := by
  cases hs : env.find? entry with
  | none =>
    simp only [instantiateTraced, instantiate, hs]
    rfl
  | some summary =>
    let args := naming.openScope.2.renameExprs naming.openScope.1 summary.parameters
    let begun := Session.new args.2
    let entered := begun.log (.enterRoot entry)
    let applied := entered.apply env entry args.1 .top .alwaysTrue
    let left := applied.2.log .leave
    have hinstantiate : instantiate env entry naming = (applied.1.map fun _ => (), left) :=
      instantiate_of_some hs
    -- the log grows at each of the three steps, and is recorded as far as it has grown
    have hbegun : LogExtends begun entered := .log begun (.enterRoot entry)
    have happlied : LogExtends entered applied.2 :=
      entered.logExtends_apply env entry args.1 .top .alwaysTrue
    have hleft : LogExtends applied.2 left := .log applied.2 .leave
    have hlog : begun.recordSince left r = r.recordAll left.events.toList := rfl
    rw [hinstantiate, ← hlog, ← hbegun.recordSince_bind (happlied.trans hleft)]
    simp only [instantiateTraced, hs]
    show (begun.recordSince entered r).bind _ = _
    cases begun.recordSince entered r with
    | error e => rfl
    | ok started =>
      show (entered.applyTraced env entry args.1 .top .alwaysTrue started).bind _ =
        (entered.recordSince left started).map _
      rw [Session.applyTraced_eq, ← happlied.recordSince_bind hleft]
      show ((entered.recordSince applied.2 started).map fun after => (applied, after)).bind _ = _
      cases entered.recordSince applied.2 started <;> rfl

/-! ## What tracing leaves of a recorder -/

namespace Recorder

/-- The titles and times of start of the branches that are open, from the innermost one to the
root. -/
def openBranches (r : Recorder) : List (Title × Number) :=
  (r.branches ++ [r.root]).map fun branch => (branch.title, branch.start)

/-- Nothing but `tree` was recorded by the second recorder after the first one. Its flags and open
branches are those of the first one, so it is the first one if that was not recording. -/
structure HasTraced (r after : Recorder) (tree : Outline Bool) : Prop where
  recording_eq : after.recording = r.recording
  verbose_eq : after.verbose = r.verbose
  openBranches_eq : after.openBranches = r.openBranches
  idle : r.recording = false → after = r
  records : r.recording = true → ∃ child clock,
    child.outline Option.isSome = tree ∧ after = (r.add child).withClock clock

/-- Adding a trace opens and closes no branch. -/
theorem openBranches_add (r : Recorder) (trace : Trace) :
    (r.add trace).openBranches = r.openBranches := by
  obtain ⟨root, rootStop, branches, recording, verbose, clock⟩ := r
  cases branches <;> rfl

/-- A recorder that records events which tell one tree has traced this tree. -/
theorem hasTraced_of_tells {events : List Event} {tree : Outline Bool} (h : Tells events [tree])
    (r : Recorder) : ∃ after, r.recordAll events = .ok after ∧ r.HasTraced after tree := by
  cases hr : r.recording with
  | false =>
    refine ⟨r, recordAll_of_not_recording hr events, rfl, rfl, rfl, fun _ => rfl, fun h => ?_⟩
    rw [hr] at h
    cases h
  | true =>
    obtain ⟨children, clock, hevents, houtlines⟩ := h r hr
    rw [Trace.outlines_eq_map] at houtlines
    obtain ⟨child, rfl, hchild⟩ := List.map_eq_singleton_iff.mp houtlines
    refine ⟨_, hevents, r.add_recording child, r.add_verbose child, r.openBranches_add child,
      fun h => ?_, fun _ => ⟨child, clock, hchild, rfl⟩⟩
    rw [hr] at h
    cases h

/-- Where no stop is refused, recording a session records its events. -/
theorem record_eq_of_recordAll {r after : Recorder} {session : Session}
    (h : r.recordAll session.events.toList = .ok after) : session.record r = after := by
  rw [Session.record, ← Array.foldl_toList]
  generalize session.events.toList = events at h ⊢
  induction events generalizing r with
  | nil => exact Except.ok.inj h
  | cons event rest ih =>
    rw [recordAll, List.foldlM_cons] at h
    cases hevent : event.record? r with
    | error e =>
      rw [hevent] at h
      cases h
    | ok next =>
      rw [hevent] at h
      have hrecord : event.record r = next := by
        cases event with
        | leave =>
          have hstop : r.stop none = .ok next := hevent
          simp only [Event.record, close, hstop]
        | _ => exact Except.ok.inj hevent
      rw [List.foldl_cons, hrecord]
      exact ih h

end Recorder

/-- Whatever the state of the recorder, a traced instantiation ends as the instantiation itself, and
all that the recorder gets is the trace of the instantiation. It makes no difference when the log is
recorded. -/
theorem instantiateTraced_observes (env : Environment) (entry : String) (naming : Naming)
    (r : Recorder) :
    ∃ after, instantiateTraced env entry naming r = .ok (instantiate env entry naming, after) ∧
      (instantiate env entry naming).2.record r = after ∧
      r.HasTraced after (instantiationOutline env entry) := by
  obtain ⟨after, hafter, htraced⟩ :=
    r.hasTraced_of_tells (tells_instantiate env entry naming)
  refine ⟨after, ?_, Recorder.record_eq_of_recordAll hafter, htraced⟩
  rw [instantiateTraced_eq, hafter]
  rfl

end SummaryInlining
