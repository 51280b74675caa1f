import SummaryInlining.Proofs.SessionSteps

/-!
# The expansion machine inlines by recursion

A machine with an explicit stack expands a call as `Session.inlineCall` does by recursion
(`apply_eq_inlineCall`): it answers the same value or the same mismatch and leaves the same session
behind, with the same constraints in the same order, the same names of variables and the same log.

The simulation reads the stack of a machine as what is still to be done: `unwind` goes through the
waiting frames from the innermost one outwards, binds the value that came back, and inlines what
remains of the frame by recursion. Every step of the machine keeps this reading (`step_keeps`), and
so it ends as the recursion does (`run_eq_outcome`). The recursion never touches the active
functions of its session, whereas the machine has there the functions of its stack in front of those
that were active before.
-/

set_option autoImplicit false

namespace SummaryInlining

namespace Session

/-- Binding parameters does not look at which functions are being expanded. -/
@[simp] theorem bindParameters_withActive (session : Session) (active : List String)
    (scope : ScopeId) (guard : Term .bool) (stack : CallStack)
    (formals actuals : List (Option Expr)) :
    (session.withActive active).bindParameters scope guard stack formals actuals =
      (session.bindParameters scope guard stack formals actuals).withActive active := by
  fun_induction bindParameters session scope guard stack formals actuals with
  | case1 session formal formals actual actuals renamed bound ih =>
    rw [bindParameters]
    simpa [bound] using ih
  | case2 session actual formals actuals ih => rw [bindParameters]; exact ih
  | case3 session formal formals actuals hne ih =>
    obtain ⟨formal, rfl⟩ := Option.ne_none_iff_exists'.mp hne
    rw [bindParameters]
    · exact ih
    · exact hne
  | case4 => rw [bindParameters]
  | case5 => rw [bindParameters]

/-- Returning a value does not look at which functions are being expanded. -/
@[simp] theorem returnValue_withActive (session : Session) (active : List String) (frame : Frame) :
    (session.withActive active).returnValue frame =
      ((session.returnValue frame).1, (session.returnValue frame).2.withActive active) := by
  unfold returnValue
  split <;> rfl

/-- Binding a result does not look at which functions are being expanded. -/
theorem bindResult_withActive (session : Session) (active : List String) (caller : Waiting)
    (value : Option Expr) :
    (session.withActive active).bindResult caller value =
      (session.bindValue caller.frame.scope caller.guard caller.stack caller.call.result
        value).withActive active := by
  unfold bindResult bindValue
  cases value <;> cases caller.call.result <;> simp

/-- Leaving a function logs it and takes its name away. -/
theorem leave_withActive (session : Session) (active : List String) (name : String) :
    (session.withActive active).leave name =
      (session.log .leave).withActive (active.filter (· ≠ name)) := rfl

/-- What becomes of a call that the machine enters is what the recursion does with it. -/
theorem inlineCall_eq_enter (env : Environment) (active : List String) (session : Session)
    (name : String) (args : List (Option Expr)) (stack : CallStack) (guard : Term .bool) :
    session.inlineCall env active name args stack guard =
      match (session.withActive active).enter env name args stack guard with
      | .refused e => (.error e, session)
      | .skipped after => (.ok none, after.withActive session.active)
      | .entered frame after =>
        (after.withActive session.active).inlineFrame env (name :: active) frame := by
  cases hs : env.find? name with
  | none =>
    simp only [inlineCall_of_unknown hs, enter, hs]
    rfl
  | some summary =>
    by_cases ha : name ∈ active
    · simp only [inlineCall_of_active hs ha, enter, hs, active_withActive, if_pos ha]
      rfl
    · by_cases hl : summary.parameters.length = args.length
      · simp only [inlineCall_of_length_eq hs ha hl, enter, hs, active_withActive, if_neg ha, hl,
          ne_eq, not_true_eq_false, if_false, naming_withActive, named_withActive,
          bindParameters_withActive]
        have hactive := (evolves_bound session name summary args stack guard).active_eq
        rw [bindParameters_eq_foldl,
          ← withActive_self (session.bound name summary args stack guard), hactive]
        rfl
      · simp only [inlineCall_of_length_ne hs ha hl, enter, hs, active_withActive, if_neg ha,
          ne_eq, hl, not_false_eq_true, if_true]

/-- Without a value no result is bound. -/
theorem bindValue_none (session : Session) (scope : ScopeId) (guard : Term .bool)
    (stack : CallStack) (result : Option Var) :
    session.bindValue scope guard stack result none = session := by
  cases result <;> rfl

/-- What a waiting frame makes of the way in which its call has ended. A mismatch ends the frame as
well; otherwise it binds the value, and what remains of it is inlined. -/
def resume (env : Environment) (active : List String) (caller : Waiting) : Expanded → Expanded
  | (.error e, after) => (.error e, after.log .leave)
  | (.ok value, after) =>
    (after.bindValue caller.frame.scope caller.guard caller.stack caller.call.result
      value).inlineFrame env active caller.frame

/-- A frame whose next constraint is a call makes the call and goes on with what comes back. -/
theorem inlineFrame_of_call {env : Environment} {active : List String} {frame : Frame}
    {call : Call (Option SourceLocation)} {rest : List SummaryConstraint}
    (hr : frame.remaining = .call call :: rest) (session : Session) :
    session.inlineFrame env active frame =
      let assuming := session.naming.renameTerm frame.scope call.assuming
      let args := assuming.2.renameExprs frame.scope call.args
      let stack := frame.stack.push call.location
      let guard := frame.guard.conjoin assuming.1
      resume env active ⟨frame.next rest, call, guard, stack⟩
        ((session.named args.2).inlineCall env active call.callee args.1 stack guard) := by
  simp only [inlineFrame, hr]
  rw [inlineBody]
  generalize inlineCall env active _ call.callee _ _ _ = called
  obtain ⟨ended, after⟩ := called
  cases ended with
  | error e => rfl
  | ok value => rfl

/-- A function that is entered has a frame of its name. -/
theorem name_of_enter_eq_entered {env : Environment} {session after : Session} {name : String}
    {args : List (Option Expr)} {stack : CallStack} {guard : Term .bool} {frame : Frame}
    (h : session.enter env name args stack guard = .entered frame after) : frame.name = name := by
  unfold enter at h
  split at h
  · cases h
  · split at h
    · cases h
    · split at h
      · cases h
      · cases h
        rfl

end Session

namespace Machine

open Session

/-- What is still to be done once the frame above these waiting frames has ended: they resume one
after another, the innermost one first, each with the active functions of its stack in front of
`base`. -/
def unwind (env : Environment) (base : List String) : List Waiting → Expanded → Expanded
  | [], ended => ended
  | caller :: rest, ended =>
    unwind env base rest (resume env (caller.frame.name :: (rest.map (·.frame.name) ++ base))
      caller ended)

/-- A mismatch leaves all waiting frames. -/
theorem unwind_error (env : Environment) (base : List String) (callers : List Waiting)
    (e : ArityMismatch) (after : Session) :
    unwind env base callers (.error e, after) =
      (.error e,
        (callers.map (·.frame.name)).foldl (fun session _ => session.log .leave) after) := by
  induction callers generalizing after with
  | nil => rfl
  | cons caller rest ih => exact ih (after.log .leave)

/-- Taking away a name that comes once, in front, leaves the others. -/
theorem filter_ne_cons {name : String} {names : List String} (h : name ∉ names) :
    (name :: names).filter (· ≠ name) = names := by
  rw [List.filter_cons_of_neg (by simp), List.filter_eq_self]
  intro other hmem
  have hne : other ≠ name := fun e => h (e ▸ hmem)
  exact decide_eq_true hne

/-- Leaving all functions of a stack leaves those active that were before. -/
theorem leaveAll_withActive (session : Session) {base names : List String} (hn : names.Nodup)
    (hb : ∀ name ∈ names, name ∉ base) :
    (session.withActive (names ++ base)).leaveAll names =
      (names.foldl (fun session _ => session.log .leave) session).withActive base := by
  induction names generalizing session with
  | nil => rfl
  | cons name rest ih =>
    obtain ⟨hnr, hrest⟩ := List.nodup_cons.mp hn
    have hnb : name ∉ rest ++ base := by
      simpa [hnr] using hb name List.mem_cons_self
    have hfilter := filter_ne_cons hnb
    have hleave : (session.withActive (name :: rest ++ base)).leave name =
        (session.log .leave).withActive (rest ++ base) := by
      rw [leave_withActive, List.cons_append, hfilter]
    rw [leaveAll, List.foldl_cons, hleave]
    exact ih (session.log .leave) hrest fun other hm => hb other (List.mem_cons_of_mem _ hm)

/-- A run goes on after a step that does. -/
theorem run_of_running {env : Environment} {m next : Machine} (h : m.step env = .running next) :
    m.run env = next.run env := by
  rw [run]
  split
  · next other ho =>
    rw [h] at ho
    cases ho
    rfl
  · next ho =>
    rw [h] at ho
    cases ho

/-- A run ends with a step that does. -/
theorem run_of_ended {env : Environment} {m : Machine} {ended : Expanded}
    (h : m.step env = .ended ended) : m.run env = ended := by
  rw [run]
  split
  · next ho =>
    rw [h] at ho
    cases ho
  · next other ho =>
    rw [h] at ho
    cases ho
    rfl

/-- A session of the recursion that a machine is at: they differ in the active functions only, and
the stack holds pairwise distinct functions, none of which is in `base`. -/
structure Mirrors (base : List String) (m : Machine) (session : Session) : Prop where
  session_eq : m.session = session.withActive (m.names ++ base)
  nodup : m.names.Nodup
  not_mem : ∀ name ∈ m.names, name ∉ base

/-- How the expansion ends that a machine is in the middle of, by recursion. -/
def outcome (env : Environment) (base : List String) (m : Machine) (session : Session) :
    Expanded :=
  unwind env base m.callers (session.inlineFrame env (m.names ++ base) m.top)

/-- A step that keeps the way in which the expansion ends. -/
def Keeps (env : Environment) (base : List String) (expected : Expanded) : Progress → Prop
  | .running next => ∃ after, Mirrors base next after ∧ outcome env base next after = expected
  | .ended result => result = (expected.1, expected.2.withActive base)

section

variable {env : Environment} {base : List String} {m : Machine} {session : Session}

/-- The machine has inlined all of its top frame: it ends, or goes back to the frame below. -/
theorem finish_keeps (h : Mirrors base m session) (hr : m.top.remaining = []) :
    Keeps env base (outcome env base m session) m.finish := by
  let returned := session.returnValue m.top
  let below := m.callers.map (·.frame.name)
  have hnames : m.names = m.top.name :: below := rfl
  obtain ⟨htop, hbelow⟩ := List.nodup_cons.mp (hnames ▸ h.nodup)
  -- leaving the top frame takes its name out, and no other frame has that name
  have hleft : (m.session.returnValue m.top).2.leave m.top.name =
      (returned.2.log .leave).withActive (below ++ base) := by
    have hnot : m.top.name ∉ below ++ base := by
      simpa [htop] using h.not_mem m.top.name List.mem_cons_self
    rw [h.session_eq, returnValue_withActive, leave_withActive, hnames, List.cons_append,
      filter_ne_cons hnot]
  have hvalue : (m.session.returnValue m.top).1 = returned.1 := by
    rw [h.session_eq, returnValue_withActive]
  have hframe : session.inlineFrame env (m.names ++ base) m.top =
      (.ok returned.1, returned.2.log .leave) := by
    simp only [inlineFrame, hr, inlineBody, returned]
  simp only [finish, hleft, hvalue, outcome, hframe]
  cases hc : m.callers with
  | nil =>
    have hbase : below ++ base = base := by simp [below, hc]
    rw [hbase]
    rfl
  | cons caller rest =>
    have hnext : below = caller.frame.name :: rest.map (·.frame.name) := by simp [below, hc]
    refine ⟨(returned.2.log .leave).bindValue caller.frame.scope caller.guard caller.stack
      caller.call.result returned.1, ⟨?_, hnext ▸ hbelow, ?_⟩, rfl⟩
    · rw [bindResult_withActive, hnext]
      rfl
    · intro name hm
      exact h.not_mem name (hnames ▸ List.mem_cons_of_mem _ (hnext ▸ hm))

/-- The machine instantiates a requirement of its top frame. -/
theorem require_keeps (h : Mirrors base m session) {r : Requirement (Option SourceLocation)}
    {rest : List SummaryConstraint} (hr : m.top.remaining = .require r :: rest) :
    Keeps env base (outcome env base m session) (m.step env) := by
  have hstep : m.step env =
      .running ⟨m.session.instantiateRequirement m.top r, m.top.next rest, m.callers⟩ := by
    simp only [step, hr]
  rw [hstep]
  refine ⟨session.instantiateRequirement m.top r, ⟨?_, h.nodup, h.not_mem⟩, ?_⟩
  · rw [h.session_eq]
    rfl
  · simp only [outcome, inlineFrame, hr]
    rw [inlineBody]
    rfl

/-- The machine makes a call of its top frame. -/
theorem stepCall_keeps (h : Mirrors base m session) {call : Call (Option SourceLocation)}
    {rest : List SummaryConstraint} (hr : m.top.remaining = .call call :: rest) :
    Keeps env base (outcome env base m session) (m.stepCall env call rest) := by
  let assuming := session.naming.renameTerm m.top.scope call.assuming
  let args := assuming.2.renameExprs m.top.scope call.args
  let stack := m.top.stack.push call.location
  let guard := m.top.guard.conjoin assuming.1
  let called := session.named args.2
  have hcall := inlineCall_eq_enter env (m.names ++ base) called call.callee args.1 stack guard
  have houtcome : outcome env base m session = unwind env base m.callers
      (resume env (m.names ++ base) ⟨m.top.next rest, call, guard, stack⟩
        (called.inlineCall env (m.names ++ base) call.callee args.1 stack guard)) := by
    rw [outcome, inlineFrame_of_call hr]
  simp only [stepCall, h.session_eq, naming_withActive, named_withActive]
  cases he : (called.withActive (m.names ++ base)).enter env call.callee args.1 stack guard with
  | refused e =>
    rw [he] at hcall
    rw [hcall] at houtcome
    -- the machine leaves all its frames at once, the recursion one after the other
    rw [houtcome, resume, unwind_error]
    exact congrArg (Prod.mk (Except.error e)) (leaveAll_withActive called h.nodup h.not_mem)
  | skipped after =>
    rw [he] at hcall
    have hactive : after.active = m.names ++ base := active_of_enter_eq_skipped he
    refine ⟨after.withActive called.active, ⟨?_, h.nodup, h.not_mem⟩, ?_⟩
    · rw [withActive_withActive]
      exact congrArg after.withActive hactive
    · rw [houtcome, hcall]
      simp only [resume, bindValue_none]
      rfl
  | entered frame after =>
    rw [he] at hcall
    obtain ⟨hnot, hactive, -⟩ := enter_eq_entered he
    have hname : frame.name = call.callee := name_of_enter_eq_entered he
    have hactive' : after.active = frame.name :: (m.names ++ base) := hname.symm ▸ hactive
    have hcallee : frame.name ∉ m.names ++ base := hname ▸ hnot
    -- the top frame goes to the waiting ones, where it resumes with what the callee ends with
    refine ⟨after.withActive called.active, ⟨?_, ?_, ?_⟩, ?_⟩
    · rw [withActive_withActive]
      exact congrArg after.withActive hactive'
    · exact List.nodup_cons.mpr ⟨fun hm => hcallee (List.mem_append_left _ hm), h.nodup⟩
    · intro name hm
      rcases List.mem_cons.mp hm with rfl | hm
      · exact fun hb => hcallee (List.mem_append_right _ hb)
      · exact h.not_mem name hm
    · rw [houtcome, hcall, ← hname]
      rfl

/-- A step keeps the way in which the expansion ends. -/
theorem step_keeps (h : Mirrors base m session) :
    Keeps env base (outcome env base m session) (m.step env) := by
  cases hr : m.top.remaining with
  | nil =>
    have hstep : m.step env = m.finish := by simp only [step, hr]
    rw [hstep]
    exact finish_keeps h hr
  | cons c rest =>
    cases c with
    | require r => exact require_keeps h hr
    | call call =>
      have hstep : m.step env = m.stepCall env call rest := by simp only [step, hr]
      rw [hstep]
      exact stepCall_keeps h hr

end

/-- A machine ends as the recursion does. -/
theorem run_eq_outcome {env : Environment} {base : List String} (m : Machine) :
    ∀ session : Session, Mirrors base m session →
      m.run env =
        ((outcome env base m session).1, (outcome env base m session).2.withActive base) := by
  induction m using run.induct env with
  | case1 m next hstep hlt ih =>
    intro session h
    have hkeeps : Keeps env base (outcome env base m session) (m.step env) := step_keeps h
    rw [hstep] at hkeeps
    obtain ⟨after, hnext, houtcome⟩ := hkeeps
    rw [run_of_running hstep, ih after hnext, houtcome]
  | case2 m ended hstep =>
    intro session h
    have hkeeps : Keeps env base (outcome env base m session) (m.step env) := step_keeps h
    rw [hstep] at hkeeps
    rw [run_of_ended hstep]
    exact hkeeps

end Machine

namespace Session

/-- The machine expands a call as the recursion does. -/
theorem apply_eq_inlineCall (env : Environment) (session : Session) (name : String)
    (args : List (Option Expr)) (stack : CallStack) (guard : Term .bool) :
    session.apply env name args stack guard =
      session.inlineCall env session.active name args stack guard := by
  have hactive : (session.inlineCall env session.active name args stack guard).2.active =
      session.active := (evolves_inlineCall session.active session name args stack guard).active_eq
  have hcall := inlineCall_eq_enter env session.active session name args stack guard
  rw [withActive_self] at hcall
  unfold apply
  split
  · next e he =>
    rw [hcall, he]
  · next after he =>
    have hsame : after.active = session.active := active_of_enter_eq_skipped he
    rw [hcall, he, ← hsame]
    rfl
  · next frame after he =>
    obtain ⟨hnot, hentered, -⟩ := enter_eq_entered he
    have hname : frame.name = name := name_of_enter_eq_entered he
    have hentered' : after.active = frame.name :: session.active := hname.symm ▸ hentered
    rw [he] at hcall
    -- the machine that is entered mirrors the session without the names of its frames
    have hmirrors : Machine.Mirrors session.active ⟨after, frame, []⟩
        (after.withActive session.active) := by
      refine ⟨?_, by simp [Machine.names], ?_⟩
      · rw [withActive_withActive]
        exact congrArg after.withActive hentered'
      · intro other hm
        rw [List.mem_singleton.mp hm]
        exact hname.symm ▸ hnot
    have houtcome : Machine.outcome env session.active ⟨after, frame, []⟩
        (after.withActive session.active) =
          session.inlineCall env session.active name args stack guard := by
      rw [hcall, ← hname]
      rfl
    rw [Machine.run_eq_outcome _ _ hmirrors, houtcome]
    exact Prod.ext rfl (congrArg (Session.withActive _) hactive.symm)

/-- Applying a function is an evolution. -/
theorem evolves_apply (env : Environment) (session : Session) (name : String)
    (args : List (Option Expr)) (stack : CallStack) (guard : Term .bool) :
    Evolves session (session.apply env name args stack guard).2 := by
  rw [apply_eq_inlineCall]
  exact evolves_inlineCall session.active session name args stack guard

/-- In every session, whatever functions are active in it, the machine answers what the recursion
answers, a value or a mismatch, and leaves behind what the recursion leaves behind: the same names
of variables, the same constraints in the same order, and the same log. What was emitted before
stays in place, and in the end the same functions are active as in the beginning. -/
theorem apply_inlines_recursively (env : Environment) (session : Session) (name : String)
    (args : List (Option Expr)) (stack : CallStack) (guard : Term .bool) :
    session.apply env name args stack guard =
        session.inlineCall env session.active name args stack guard ∧
      (session.apply env name args stack guard).2.active = session.active ∧
      session.constraints.toList <+:
        (session.apply env name args stack guard).2.constraints.toList :=
  have hevolves := evolves_apply env session name args stack guard
  ⟨apply_eq_inlineCall env session name args stack guard, hevolves.active_eq,
    hevolves.constraints_prefix⟩

end Session

end SummaryInlining
