import SummaryInlining.Expansion.Tracing
import SummaryInlining.Proofs.CallLog
import SummaryInlining.Proofs.Execution

/-!
# What an expansion tells a recorder

The calls that an expansion goes through are a tree of their own (`CallNode`): the calls of an
expanded function, in the order of its constraints, are the children of its node. An expansion
breaks off at the first node whose callee gets the wrong number of arguments, and has gone through
the tree up to there (`CallNode.upToMismatch`).

`Tells` says of a list of events that every recorder that records them ends up where it began, with
more trees in the branch that was open. Events of single happenings tell one event, and events
between an entry and the matching `leave` tell one branch, so what an expansion logs tells the part
of its tree that it has gone through (`Session.goesThrough_inlineBody`), and an instantiation tells
one branch or event (`tells_instantiate`).
-/

set_option autoImplicit false

namespace SummaryInlining

/-! ## The tree of calls -/

/-- A call and the calls that its expansion goes through. -/
inductive CallNode where
  /-- The callee has no summary. -/
  | unknown (callee : String)
  /-- The callee is being expanded already. -/
  | recursive (callee : String)
  /-- The callee, which has so many parameters, is expanded with so many arguments, makes these
  calls, and returns a value or not. -/
  | expanded (callee : String) (parameters arguments : Nat) (calls : List CallNode)
    (returns : Bool)

namespace CallNode

mutual

/-- The first call with the wrong number of arguments. -/
def mismatch? : CallNode → Option ArityMismatch
  | .unknown _ => none
  | .recursive _ => none
  | .expanded callee parameters arguments calls _ =>
    if parameters = arguments then firstMismatch? calls
    else some ⟨callee, parameters, arguments⟩

def firstMismatch? : List CallNode → Option ArityMismatch
  | [] => none
  | node :: rest => node.mismatch?.or (firstMismatch? rest)

end

mutual

/-- What is left of a call when the tree is cut off at the first call with the wrong number of
arguments: neither this call, nor what comes behind it. -/
def upToMismatch : CallNode → List CallNode
  | .unknown callee => [.unknown callee]
  | .recursive callee => [.recursive callee]
  | .expanded callee parameters arguments calls returns =>
    if parameters = arguments then
      [.expanded callee parameters arguments (allUpToMismatch calls)
        (returns && (firstMismatch? calls).isNone)]
    else []

def allUpToMismatch : List CallNode → List CallNode
  | [] => []
  | node :: rest =>
    node.upToMismatch ++ if node.mismatch?.isNone then allUpToMismatch rest else []

end

mutual

/-- A call in a trace. Of the details of an event only their presence is kept. -/
def outline : CallNode → Outline Bool
  | .unknown callee => .event (.ofWords ["opaque call to", callee]) false
  | .recursive callee => .event (.ofWords ["recursive call to", callee, "is not expanded"]) false
  | .expanded callee _ _ calls returns =>
    .branch (.ofWords ["expand", callee]) false
      (outlines calls ++ if returns then [.event (.text "returns") true] else [])

def outlines : List CallNode → List (Outline Bool)
  | [] => []
  | node :: rest => node.outline :: outlines rest

end

mutual

/-- Nothing is cut off where all calls have the right number of arguments. -/
theorem upToMismatch_of_none (node : CallNode) (h : node.mismatch? = none) :
    node.upToMismatch = [node] := by
  cases node with
  | unknown callee => rfl
  | recursive callee => rfl
  | expanded callee parameters arguments calls returns =>
    rw [mismatch?] at h
    split at h
    · next hl =>
      rw [upToMismatch, if_pos hl, allUpToMismatch_of_none calls h, h]
      simp
    · cases h

/-- Where no call has the wrong number of arguments nothing is cut off. -/
theorem allUpToMismatch_of_none (nodes : List CallNode) (h : firstMismatch? nodes = none) :
    allUpToMismatch nodes = nodes := by
  cases nodes with
  | nil => rfl
  | cons node rest =>
    rw [firstMismatch?, Option.or_eq_none_iff] at h
    rw [allUpToMismatch, upToMismatch_of_none node h.1, h.1, allUpToMismatch_of_none rest h.2]
    rfl

end

/-- The first mismatch of a single call is the one of this call. -/
@[simp] theorem firstMismatch?_singleton (node : CallNode) :
    firstMismatch? [node] = node.mismatch? := by
  rw [firstMismatch?, firstMismatch?, Option.or_none]

/-- What is left of a single call is what is left of its tree. -/
@[simp] theorem allUpToMismatch_singleton (node : CallNode) :
    allUpToMismatch [node] = node.upToMismatch := by
  rw [allUpToMismatch, allUpToMismatch, ite_self, List.append_nil]

/-- Calls behind one another have their outlines behind one another. -/
theorem outlines_append (nodes others : List CallNode) :
    outlines (nodes ++ others) = outlines nodes ++ outlines others := by
  induction nodes with
  | nil => rfl
  | cons node rest ih => rw [List.cons_append, outlines, ih, outlines, List.cons_append]

end CallNode

mutual

/-- The tree of a call of the function `callee` with so many arguments, while the functions `active`
are being expanded. -/
def callNode (env : Environment) (active : List String) (callee : String) (arguments : Nat) :
    CallNode :=
  match _h : env.find? callee with
  | none => .unknown callee
  | some summary =>
    if _hn : callee ∈ active then .recursive callee
    else
      .expanded callee summary.parameters.length arguments
        (callNodes env (callee :: active) summary.constraints) summary.result.isSome
termination_by (Machine.available env active, 0)
decreasing_by
  exact Prod.Lex.left _ _ (Machine.available_enter_lt env active callee
    (List.mem_map.mpr ⟨_, (env.find?_eq_some_iff _ _).mp _h, rfl⟩) _hn)

/-- The trees of the calls among constraints, in their order. -/
def callNodes (env : Environment) (active : List String) : List SummaryConstraint → List CallNode
  | [] => []
  | .require _ :: rest => callNodes env active rest
  | .call call :: rest =>
    callNode env active call.callee call.args.length :: callNodes env active rest
termination_by constraints => (Machine.available env active, constraints.length)
decreasing_by
  · exact Prod.Lex.right _ (by simp)
  · exact Prod.Lex.right _ (by simp)
  · exact Prod.Lex.right _ (by simp)

end

section

variable {env : Environment} {active : List String} {callee : String} {summary : FunctionSummary}
  {arguments : Nat}

/-- A call of a function without summary is a leaf. -/
theorem callNode_of_unknown (h : env.find? callee = none) :
    callNode env active callee arguments = .unknown callee := by
  rw [callNode]
  split
  · rfl
  · next found hs =>
    rw [h] at hs
    cases hs

/-- A call of a function that is being expanded is a leaf. -/
theorem callNode_of_active (h : env.find? callee = some summary) (ha : callee ∈ active) :
    callNode env active callee arguments = .recursive callee := by
  rw [callNode]
  split
  · next hs =>
    rw [h] at hs
    cases hs
  · rw [dif_pos ha]

/-- Any other call has the calls of its callee below it. -/
theorem callNode_of_not_active (h : env.find? callee = some summary) (ha : callee ∉ active) :
    callNode env active callee arguments =
      .expanded callee summary.parameters.length arguments
        (callNodes env (callee :: active) summary.constraints) summary.result.isSome := by
  rw [callNode]
  split
  · next hs =>
    rw [h] at hs
    cases hs
  · next found hs =>
    obtain rfl : summary = found := Option.some.inj (h.symm.trans hs)
    rw [dif_neg ha]

end

/-! ## Recording events -/

namespace Recorder

/-- The recorder at another reading of its clock. -/
def withClock (r : Recorder) (clock : Nat) : Recorder := { r with clock }

/-- Adds traces to the innermost open branch, one after the other. -/
def addAll (r : Recorder) (traces : List Trace) : Recorder := traces.foldl add r

/-- Adding a trace does not look at the clock. -/
theorem add_withClock (r : Recorder) (clock : Nat) (trace : Trace) :
    (r.withClock clock).add trace = (r.add trace).withClock clock := by
  obtain ⟨root, rootStop, branches, recording, verbose, _⟩ := r
  cases branches <;> rfl

/-- Adding traces does not look at the clock. -/
theorem addAll_withClock (r : Recorder) (clock : Nat) (traces : List Trace) :
    (r.withClock clock).addAll traces = (r.addAll traces).withClock clock := by
  induction traces generalizing r with
  | nil => rfl
  | cons trace rest ih =>
    rw [addAll, List.foldl_cons, add_withClock]
    exact ih (r.add trace)

/-- Adding traces does not switch the recording on or off. -/
theorem recording_addAll (r : Recorder) (traces : List Trace) :
    (r.addAll traces).recording = r.recording := by
  induction traces generalizing r with
  | nil => rfl
  | cons trace rest ih => exact (ih (r.add trace)).trans (add_recording r trace)

/-- What is added while a branch is open goes into this branch. -/
theorem addAll_opened (r : Recorder) (branch : OpenBranch) (outer : List OpenBranch)
    (traces : List Trace) :
    ({ r with branches := branch :: outer }).addAll traces =
      { r with branches :=
        { branch with recorded := traces.reverse ++ branch.recorded } :: outer } := by
  induction traces generalizing branch with
  | nil => rfl
  | cons trace rest ih =>
    rw [addAll, List.foldl_cons]
    refine (ih (branch.add trace)).trans ?_
    simp [OpenBranch.add]

end Recorder

/-- The recorder after an event, or the error of a stop that is refused. -/
def Event.record? (r : Recorder) : Event → Except TraceError Recorder
  | .leave => r.stop none
  | event => .ok (event.record r)

/-- The recorder after events that happen one after the other. The first stop that is refused ends
the recording. -/
def Recorder.recordAll (r : Recorder) (events : List Event) : Except TraceError Recorder :=
  events.foldlM Event.record? r

/-- A recorder that does not record takes no notice of an event. -/
theorem Event.record?_of_not_recording {r : Recorder} (h : r.recording = false) (event : Event) :
    event.record? r = .ok r := by
  cases event with
  | leave => exact Recorder.stop_of_not_recording h none
  | _ => simp [record?, record, Recorder.mark, Recorder.start, h]

namespace Recorder

/-- Events are recorded one after the other, up to the first stop that is refused. -/
theorem recordAll_append (r : Recorder) (first second : List Event) :
    r.recordAll (first ++ second) =
      (r.recordAll first).bind fun after => after.recordAll second := by
  rw [recordAll, List.foldlM_append]
  rfl

/-- A recorder that does not record takes no notice of any events. -/
theorem recordAll_of_not_recording {r : Recorder} (h : r.recording = false) (events : List Event) :
    r.recordAll events = .ok r := by
  induction events with
  | nil => rfl
  | cons event rest ih =>
    rw [recordAll, List.foldlM_cons, event.record?_of_not_recording h]
    exact ih

end Recorder

/-- Whatever recorder records these events, none of its stops is refused, and it ends up with the
branches and flags that it had, and with these trees behind what was in its innermost branch. -/
def Tells (events : List Event) (trees : List (Outline Bool)) : Prop :=
  ∀ r : Recorder, r.recording = true → ∃ children clock,
    r.recordAll events = .ok ((r.addAll children).withClock clock) ∧
      Trace.outlines Option.isSome children = trees

/-- No events tell no trees. -/
theorem tells_nil : Tells [] [] :=
  fun r _ => ⟨[], r.clock, rfl, rfl⟩

/-- Events behind others tell their trees behind the trees of the others. -/
theorem Tells.append {first second : List Event} {trees others : List (Outline Bool)}
    (hfirst : Tells first trees) (hsecond : Tells second others) :
    Tells (first ++ second) (trees ++ others) := by
  intro r hr
  obtain ⟨children, clock, hchildren, rfl⟩ := hfirst r hr
  obtain ⟨children', clock', hchildren', rfl⟩ :=
    hsecond ((r.addAll children).withClock clock) ((r.recording_addAll children).trans hr)
  refine ⟨children ++ children', clock', ?_, ?_⟩
  · rw [Recorder.recordAll_append, hchildren]
    refine hchildren'.trans ?_
    rw [Recorder.addAll_withClock, Recorder.addAll, Recorder.addAll, Recorder.addAll,
      List.foldl_append]
    rfl
  · simp only [Trace.outlines_eq_map, List.map_append]

/-- An event with details has some in the trace, whether or not they are computed. -/
theorem Recorder.isSome_detailsOf (r : Recorder) (details : Option (Id String)) :
    (Id.run (r.detailsOf details)).isSome = details.isSome := by
  cases details with
  | none => rfl
  | some compute =>
    show (if r.verbose then _ else _ : Option String).isSome = _
    split <;> rfl

/-- An event that is marked is recorded by itself. -/
theorem tells_mark {event : Event} {title : Title} (details : Option (Id String))
    (h : ∀ r : Recorder, event.record? r = .ok (Id.run (r.mark title details))) :
    Tells [event] [.event title details.isSome] := by
  intro r hr
  have hmark : Id.run (r.mark title details) =
      r.tick.add (.event title (Id.run (r.detailsOf details)) r.now) := by
    rw [Recorder.mark, if_pos hr]
    rfl
  refine ⟨[.event title (Id.run (r.detailsOf details)) r.now], r.clock + 1, ?_, ?_⟩
  · rw [Recorder.recordAll, List.foldlM_cons, h, hmark]
    exact congrArg Except.ok (r.add_withClock (r.clock + 1) _)
  · rw [Trace.outlines, Trace.outline, r.isSome_detailsOf]
    rfl

/-- An event by which a branch with this title is opened. -/
def Event.Opens (event : Event) (title : Title) : Prop :=
  ∀ r : Recorder, event.record? r = .ok (r.start title)

/-- Between an event that opens a branch and the `leave` that closes it stand the children of the
branch. -/
theorem Tells.branch {event : Event} {title : Title} {events : List Event}
    {trees : List (Outline Bool)} (h : Tells events trees) (hopens : event.Opens title) :
    Tells (event :: events ++ [.leave]) [.branch title false trees] := by
  intro r hr
  let opened : Recorder := { r.tick with branches := ⟨title, r.now, []⟩ :: r.branches }
  have hstart : r.start title = opened := if_pos hr
  obtain ⟨children, clock, hinner, rfl⟩ := h opened hr
  let filled : Recorder :=
    { r with branches := ⟨title, r.now, children.reverse⟩ :: r.branches, clock := clock }
  have hfilled : (opened.addAll children).withClock clock = filled := by
    rw [r.tick.addAll_opened, List.append_nil]
    rfl
  have hstop : filled.stop none =
      .ok ((r.withClock (clock + 1)).add (.branch title r.now (some (.ofNat clock)) children)) := by
    rw [filled.stop_of_recording hr]
    simp only [Option.filter_none, OpenBranch.toTrace, List.reverse_reverse, filled]
    rfl
  refine ⟨[.branch title r.now (some (.ofNat clock)) children], clock + 1, ?_, rfl⟩
  rw [Recorder.recordAll_append, Recorder.recordAll, List.foldlM_cons, hopens r, hstart]
  show (opened.recordAll events).bind _ = _
  rw [hinner, hfilled]
  show (filled.stop none).bind _ = _
  rw [hstop, Recorder.add_withClock]
  rfl

/-! ## What a session logs -/

namespace Session

/-- Between two sessions events were logged that tell these trees. -/
def Reports (before after : Session) (trees : List (Outline Bool)) : Prop :=
  ∃ events, after.events.toList = before.events.toList ++ events ∧ Tells events trees

/-- Nothing is told where nothing was logged. -/
theorem reports_of_events_eq {before after : Session} (h : after.events = before.events) :
    Reports before after [] :=
  ⟨[], by rw [h, List.append_nil], tells_nil⟩

/-- What is told in two stretches is told in order. -/
theorem Reports.trans {before between after : Session} {trees others : List (Outline Bool)}
    (hfirst : Reports before between trees) (hsecond : Reports between after others) :
    Reports before after (trees ++ others) := by
  obtain ⟨events, hevents, htells⟩ := hfirst
  obtain ⟨events', hevents', htells'⟩ := hsecond
  exact ⟨events ++ events', by rw [hevents', hevents, List.append_assoc], htells.append htells'⟩

/-- A logged event tells what it tells alone. -/
theorem reports_log (session : Session) {event : Event} {trees : List (Outline Bool)}
    (h : Tells [event] trees) : Reports session (session.log event) trees :=
  ⟨[event], Array.toList_push, h⟩

/-- Between the sessions a branch is opened, filled and closed again. -/
theorem Reports.branch {before opened filled : Session} {event : Event} {title : Title}
    {trees : List (Outline Bool)} (h : Reports opened filled trees) (hopens : event.Opens title)
    (hopened : opened.events = before.events.push event) :
    Reports before (filled.log .leave) [.branch title false trees] := by
  obtain ⟨events, hevents, htells⟩ := h
  refine ⟨event :: events ++ [.leave], ?_, htells.branch hopens⟩
  rw [log, Array.toList_push, hevents, hopened, Array.toList_push]
  simp

/-- Handing out names logs nothing. -/
@[simp] theorem events_named (session : Session) (naming : Naming) :
    (session.named naming).events = session.events := rfl

/-- Emitting an equality logs nothing. -/
@[simp] theorem events_emitImplied (session : Session) (equality : Option (Term .bool))
    (guard : Term .bool) (stack : CallStack) :
    (session.emitImplied equality guard stack).events = session.events := by
  cases equality <;> rfl

/-- Binding parameters logs nothing. -/
theorem events_foldl_bindParameter (session : Session) (scope : ScopeId) (guard : Term .bool)
    (stack : CallStack) (pairs : List (Option Expr × Option Expr)) :
    (pairs.foldl (bindParameter scope guard stack) session).events = session.events := by
  induction pairs generalizing session with
  | nil => rfl
  | cons pair rest ih =>
    refine (ih _).trans ?_
    obtain ⟨_ | formal, _ | actual⟩ := pair <;> simp [bindParameter]

/-- Binding a result logs nothing. -/
@[simp] theorem events_bindValue (session : Session) (scope : ScopeId) (guard : Term .bool)
    (stack : CallStack) (result : Option Var) (value : Option Expr) :
    (session.bindValue scope guard stack result value).events = session.events := by
  cases result <;> cases value <;> simp [bindValue]

/-- When the expansion of a call begins, its entry is all that was logged. -/
theorem events_bound (session : Session) (name : String) (summary : FunctionSummary)
    (args : List (Option Expr)) (stack : CallStack) (guard : Term .bool) :
    (session.bound name summary args stack guard).events =
      session.events.push (.enterCallee name) :=
  congrArg (Array.push · _)
    (events_foldl_bindParameter (session.named session.naming.openScope.2) _ guard stack _)

/-- A value that is returned is told as one event. -/
theorem reports_returnValue (session : Session) (frame : Frame) :
    Reports session (session.returnValue frame).2
      (if frame.result.isSome then [.event (.text "returns") true] else []) := by
  unfold returnValue
  cases frame.result with
  | none => exact reports_of_events_eq rfl
  | some result => exact reports_log _ (tells_mark (some _) fun _ => rfl)

end Session

/-- What was run from the session `before` has gone through these calls up to the first one with the
wrong number of arguments. It failed with the mismatch of this call, or there is none. -/
structure GoesThrough {α : Type} (nodes : List CallNode) (before : Session)
    (result : Except ArityMismatch α × Session) : Prop where
  error_iff : ∀ e, result.1 = .error e ↔ CallNode.firstMismatch? nodes = some e
  reports : before.Reports result.2 (CallNode.outlines (CallNode.allUpToMismatch nodes))

namespace GoesThrough

open CallNode

variable {α β : Type} {node : CallNode} {nodes : List CallNode} {before between after : Session}

/-- A run that failed has gone through a call with the wrong number of arguments, and failed with
this mismatch. -/
theorem firstMismatch?_of_error {e : ArityMismatch}
    (h : GoesThrough nodes before ((.error e : Except ArityMismatch α), after)) :
    firstMismatch? nodes = some e :=
  (h.error_iff e).mp rfl

/-- A run that did not fail has gone through no call with the wrong number of arguments. -/
theorem firstMismatch?_of_ok {value : α} (h : GoesThrough nodes before (.ok value, after)) :
    firstMismatch? nodes = none := by
  refine Option.eq_none_iff_forall_ne_some.mpr fun e he => ?_
  cases (h.error_iff e).mpr he

/-- What fails at a call does not come to those behind it. -/
theorem cons_error {e : ArityMismatch}
    (h : GoesThrough [node] before ((.error e : Except ArityMismatch α), after)) :
    GoesThrough (node :: nodes) before ((.error e : Except ArityMismatch β), after) where
  error_iff other := by
    have hnode := h.firstMismatch?_of_error
    rw [firstMismatch?_singleton] at hnode
    rw [firstMismatch?, hnode, Option.some_or, Except.error.injEq, Option.some.injEq]
  reports := by
    have hnode := h.firstMismatch?_of_error
    rw [firstMismatch?_singleton] at hnode
    rw [allUpToMismatch, hnode]
    simpa using h.reports

/-- What does not fail at a call goes on to those behind it. -/
theorem cons_ok {value : α} {result : Except ArityMismatch β × Session}
    (h : GoesThrough [node] before (.ok value, between))
    (hrest : GoesThrough nodes between result) : GoesThrough (node :: nodes) before result := by
  have hnode := h.firstMismatch?_of_ok
  have hreports := h.reports
  rw [firstMismatch?_singleton] at hnode
  rw [allUpToMismatch_singleton] at hreports
  constructor
  · rw [firstMismatch?, hnode, Option.none_or]
    exact hrest.error_iff
  · rw [allUpToMismatch, hnode, Option.isNone_none, if_pos rfl, outlines_append]
    exact hreports.trans hrest.reports

/-- Before a run nothing may have been logged. -/
theorem of_events_eq {result : Except ArityMismatch α × Session}
    (h : GoesThrough nodes between result) (heq : between.events = before.events) :
    GoesThrough nodes before result where
  error_iff := h.error_iff
  reports := (Session.reports_of_events_eq heq).trans h.reports

end GoesThrough

/-- Renaming arguments keeps their number. -/
theorem Naming.length_renameExprs (naming : Naming) (scope : ScopeId) (es : List (Option Expr)) :
    (naming.renameExprs scope es).1.length = es.length := by
  induction es generalizing naming with
  | nil => rfl
  | cons e rest ih =>
    cases e with
    | none => exact congrArg (· + 1) (ih naming)
    | some e => exact congrArg (· + 1) (ih _)

namespace Session

section

variable {env : Environment} {active : List String}

/-- The expansion of a call, which has begun with its entry only, goes through the call when the
constraints of the callee go through their calls. -/
theorem goesThrough_inlineFrame {before session : Session} {calls : List CallNode} (frame : Frame)
    (arguments : Nat)
    (hopened : session.events = before.events.push (.enterCallee frame.name))
    (h : GoesThrough calls session
      (session.inlineBody env active frame.scope frame.stack frame.guard frame.remaining)) :
    GoesThrough [.expanded frame.name arguments arguments calls frame.result.isSome] before
      (session.inlineFrame env active frame) := by
  unfold inlineFrame
  generalize session.inlineBody env active frame.scope frame.stack frame.guard frame.remaining =
    result at h
  obtain ⟨outcome, after⟩ := result
  have hopens : (Event.enterCallee frame.name).Opens (.ofWords ["expand", frame.name]) :=
    fun _ => rfl
  have hmismatch : CallNode.firstMismatch?
      [.expanded frame.name arguments arguments calls frame.result.isSome] =
        CallNode.firstMismatch? calls := by
    simp [CallNode.mismatch?]
  cases outcome with
  | error e =>
    have hcalls := h.firstMismatch?_of_error
    refine ⟨fun other => ?_, ?_⟩
    · rw [hmismatch, ← h.error_iff other, Except.error.injEq, Except.error.injEq]
    · have hbranch := h.reports.branch hopens hopened
      simpa [CallNode.upToMismatch, CallNode.outlines, CallNode.outline, hcalls] using hbranch
  | ok value =>
    have hcalls := h.firstMismatch?_of_ok
    refine ⟨fun other => ?_, ?_⟩
    · rw [hmismatch, hcalls]
      simp
    · have hbranch := (h.reports.trans (reports_returnValue after frame)).branch hopens hopened
      simpa [CallNode.upToMismatch, CallNode.outlines, CallNode.outline, hcalls] using hbranch

/-- A call goes through its tree when the constraints of the callee go through theirs. -/
theorem goesThrough_inlineCall_of_body {name : String}
    (hbody : ∀ summary, env.find? name = some summary → name ∉ active →
      ∀ (session : Session) (scope : ScopeId) (stack : CallStack) (guard : Term .bool),
        GoesThrough (callNodes env (name :: active) summary.constraints) session
          (session.inlineBody env (name :: active) scope stack guard summary.constraints))
    (session : Session) (args : List (Option Expr)) (stack : CallStack) (guard : Term .bool) :
    GoesThrough [callNode env active name args.length] session
      (session.inlineCall env active name args stack guard) := by
  cases hs : env.find? name with
  | none =>
    rw [inlineCall_of_unknown hs, callNode_of_unknown hs]
    exact ⟨by simp [CallNode.mismatch?], reports_log session (tells_mark none fun _ => rfl)⟩
  | some summary =>
    by_cases ha : name ∈ active
    · rw [inlineCall_of_active hs ha, callNode_of_active hs ha]
      exact ⟨by simp [CallNode.mismatch?], reports_log session (tells_mark none fun _ => rfl)⟩
    · rw [callNode_of_not_active hs ha]
      by_cases hl : summary.parameters.length = args.length
      · rw [inlineCall_of_length_eq hs ha hl]
        have hopened := events_bound session name summary args stack guard
        have hinner := hbody summary hs ha (session.bound name summary args stack guard)
          session.naming.scopes.size stack guard
        rw [← hl]
        exact goesThrough_inlineFrame (session.frameOf name summary stack guard) _ hopened hinner
      · rw [inlineCall_of_length_ne hs ha hl]
        have hcut : CallNode.outlines (CallNode.allUpToMismatch
            [.expanded name summary.parameters.length args.length
              (callNodes env (name :: active) summary.constraints) summary.result.isSome]) =
            [] := by
          simp [CallNode.upToMismatch, hl, CallNode.outlines]
        refine ⟨?_, hcut ▸ reports_of_events_eq rfl⟩
        simp [CallNode.mismatch?, hl]

/-- Going through constraints goes through the trees of the calls among them. -/
theorem goesThrough_inlineBody (active : List String) (constraints : List SummaryConstraint) :
    ∀ (session : Session) (scope : ScopeId) (stack : CallStack) (guard : Term .bool),
      GoesThrough (callNodes env active constraints) session
        (session.inlineBody env active scope stack guard constraints) := by
  induction active, constraints using inlining_induction env with
  | nil active =>
    intro session scope stack guard
    rw [inlineBody, callNodes]
    exact ⟨by simp [CallNode.firstMismatch?], reports_of_events_eq rfl⟩
  | require active r rest ih =>
    intro session scope stack guard
    rw [inlineBody, callNodes]
    exact (ih _ scope stack guard).of_events_eq rfl
  | call active call rest ihbody ihrest =>
    intro session scope stack guard
    rw [inlineBody, callNodes]
    have hcall := goesThrough_inlineCall_of_body ihbody
      (session.named ((session.naming.renameTerm scope call.assuming).2.renameExprs scope
        call.args).2)
      ((session.naming.renameTerm scope call.assuming).2.renameExprs scope call.args).1
      (stack.push call.location)
      (guard.conjoin (session.naming.renameTerm scope call.assuming).1)
    rw [Naming.length_renameExprs] at hcall
    have hcall := hcall.of_events_eq (events_named session _)
    -- a call that ends with a mismatch is the last one of the body
    split
    · next e after he =>
      rw [he] at hcall
      exact hcall.cons_error
    · next value after ho =>
      rw [ho] at hcall
      refine hcall.cons_ok ((ihrest _ scope stack guard).of_events_eq ?_)
      exact events_bindValue after scope _ _ call.result value

/-- The expansion of a call goes through the tree of the call. -/
theorem goesThrough_apply (env : Environment) (session : Session) (name : String)
    (args : List (Option Expr)) (stack : CallStack) (guard : Term .bool) :
    GoesThrough [callNode env session.active name args.length] session
      (session.apply env name args stack guard) := by
  rw [apply_eq_inlineCall]
  exact goesThrough_inlineCall_of_body
    (fun summary _ _ => goesThrough_inlineBody _ summary.constraints) session args stack guard

end

end Session

/-! ## Instantiations -/

/-- The tree of the function that is instantiated, which is applied to its own parameters. -/
def rootNode? (env : Environment) (entry : String) : Option CallNode :=
  (env.find? entry).map fun summary => callNode env [] entry summary.parameters.length

/-- The trace of an instantiation, cut off at the first call with the wrong number of arguments. -/
def instantiationOutline (env : Environment) (entry : String) : Outline Bool :=
  match rootNode? env entry with
  | none => .event (.ofWords ["no summary for root function", entry]) false
  | some root =>
    .branch (.ofWords ["instantiate", entry]) false (CallNode.outlines root.upToMismatch)

section

variable (env : Environment) (entry : String) (naming : Naming)

/-- An instantiation fails with the first mismatch in its tree of calls, if there is one. -/
theorem instantiate_error_iff (e : ArityMismatch) :
    (instantiate env entry naming).1 = .error e ↔
      (rootNode? env entry).bind CallNode.mismatch? = some e := by
  cases hs : env.find? entry with
  | none => simp [instantiate_of_none hs, rootNode?, hs]
  | some summary =>
    have hroot := (rootSession naming entry summary).goesThrough_apply env entry
      (naming.openScope.2.renameExprs naming.scopes.size summary.parameters).1 .top .alwaysTrue
    rw [Naming.length_renameExprs] at hroot
    have hiff := hroot.error_iff e
    rw [CallNode.firstMismatch?_singleton] at hiff
    rw [instantiate_of_some hs, rootNode?, hs, Option.map_some, Option.bind_some]
    refine Iff.trans ?_ hiff
    generalize ((rootSession naming entry summary).apply env entry _ _ _).1 = outcome
    cases outcome <;> simp [Except.map]

/-- What an instantiation logs tells its trace. -/
theorem tells_instantiate :
    Tells (instantiate env entry naming).2.events.toList [instantiationOutline env entry] := by
  cases hs : env.find? entry with
  | none =>
    rw [instantiate_of_none hs, instantiationOutline, rootNode?, hs]
    exact tells_mark none fun _ => rfl
  | some summary =>
    have hroot := (rootSession naming entry summary).goesThrough_apply env entry
      (naming.openScope.2.renameExprs naming.scopes.size summary.parameters).1 .top .alwaysTrue
    rw [Naming.length_renameExprs] at hroot
    have hopens : (Event.enterRoot entry).Opens (.ofWords ["instantiate", entry]) := fun _ => rfl
    have hopened : (rootSession naming entry summary).events =
        (Session.new naming).events.push (.enterRoot entry) := rfl
    have hreports := hroot.reports
    rw [CallNode.allUpToMismatch_singleton] at hreports
    obtain ⟨events, hevents, htells⟩ := hreports.branch hopens hopened
    rw [instantiate_of_some hs, instantiationOutline, rootNode?, hs, hevents]
    exact htells

end

end SummaryInlining
