import SummaryInlining.Expansion.Session

/-!
# The expansion machine

Nested calls are expanded by a machine with an explicit stack: the frame on top is the expansion at
work, and below it wait the frames of its callers, each with the call it waits for. A step
instantiates one constraint of the top frame, or ends the top frame when no constraint is left. So
the depth of a chain of calls costs no recursion.

The machine stops because of `Machine.work`. Entering a callee makes one name of the environment
unavailable until it is left, and the weight of a constraint that is still to be instantiated
grows with the number of available names by more than all constraints of one summary together.
-/

set_option autoImplicit false

namespace SummaryInlining

/-- A frame that waits for the result of a call. -/
structure Waiting where
  frame : Frame
  call : Call (Option SourceLocation)
  /-- When the call takes place. -/
  guard : Term .bool
  /-- The call stack of the call. -/
  stack : CallStack

/-- A machine in the middle of an expansion. -/
structure Machine where
  session : Session
  /-- The frame at work. -/
  top : Frame
  /-- The frames below it, the innermost caller first. -/
  callers : List Waiting

/-- The end of an expansion: the value of the call that was expanded, or the arity mismatch that
cut the expansion off, and the session it leaves behind. -/
abbrev Expanded := Except ArityMismatch (Option Expr) × Session

/-- What a step of the machine leads to. -/
inductive Progress where
  | running (next : Machine)
  | ended (result : Expanded)

/-- A frame whose remaining constraints are these. -/
def Frame.next (frame : Frame) (remaining : List SummaryConstraint) : Frame :=
  { frame with remaining }

namespace Session

/-- Binds the result variable of a call to the value that its callee returned, where there are
both. -/
def bindResult (session : Session) (caller : Waiting) (value : Option Expr) : Session :=
  match value, caller.call.result with
  | some returned, some result =>
    let renamed := session.naming.renameVar caller.frame.scope result
    (session.named renamed.2).emitImplied ((Expr.ofVar renamed.1).equate? returned) caller.guard
      caller.stack
  | _, _ => session

/-- Instantiates a requirement inside an expansion. -/
def instantiateRequirement (session : Session) (frame : Frame)
    (r : Requirement (Option SourceLocation)) : Session :=
  let condition := session.naming.renameTerm frame.scope r.condition
  let assuming := condition.2.renameTerm frame.scope r.assuming
  (session.named assuming.2).emit
    ⟨condition.1, frame.guard.conjoin assuming.1, r.origin, frame.stack.push r.location⟩

/-- Leaves all expansions of these names, the innermost one first. -/
def leaveAll (session : Session) (names : List String) : Session := names.foldl leave session

end Session

namespace Machine

/-- The names of the functions that are being expanded by the machine, the innermost one first. -/
def names (m : Machine) : List String := m.top.name :: m.callers.map (·.frame.name)

/-- Ends the top frame, which has no constraints left. -/
def finish (m : Machine) : Progress :=
  let returned := m.session.returnValue m.top
  let left := returned.2.leave m.top.name
  match m.callers with
  | [] => .ended (.ok returned.1, left)
  | caller :: rest => .running ⟨left.bindResult caller returned.1, caller.frame, rest⟩

/-- Instantiates a call of the top frame, whose other constraints are `rest`. -/
def stepCall (env : Environment) (m : Machine) (call : Call (Option SourceLocation))
    (rest : List SummaryConstraint) : Progress :=
  let assuming := m.session.naming.renameTerm m.top.scope call.assuming
  let guard := m.top.guard.conjoin assuming.1
  let stack := m.top.stack.push call.location
  let args := assuming.2.renameExprs m.top.scope call.args
  match (m.session.named args.2).enter env call.callee args.1 stack guard with
  | .refused e => .ended (.error e, (m.session.named args.2).leaveAll m.names)
  | .skipped session => .running ⟨session, m.top.next rest, m.callers⟩
  | .entered callee session =>
    .running ⟨session, callee, ⟨m.top.next rest, call, guard, stack⟩ :: m.callers⟩

/-- One step of the machine. -/
def step (env : Environment) (m : Machine) : Progress :=
  match m.top.remaining with
  | [] => m.finish
  | .require r :: rest =>
    .running ⟨m.session.instantiateRequirement m.top r, m.top.next rest, m.callers⟩
  | .call call :: rest => m.stepCall env call rest

/-- How many names of the environment are not being expanded. -/
def available (env : Environment) (active : List String) : Nat :=
  env.names.countP fun name => decide (name ∉ active)

/-- The number of constraints in all summaries of the environment. -/
def width (env : Environment) : Nat :=
  env.entries.foldr (fun entry n => entry.2.constraints.length + n) 0

/-- The weight of a constraint while this many names are available. -/
def weight (width : Nat) : Nat → Nat
  | 0 => 2
  | n + 1 => width * weight width n + 2

/-- The weight of all constraints that are still to be instantiated, given how many of them each
frame has, the top one first. Below each frame one more name is available. -/
def load (width : Nat) : Nat → List Nat → Nat
  | _, [] => 0
  | n, count :: rest => count * weight width n + 1 + load width (n + 1) rest

/-- How many constraints of each frame are still to be instantiated, the top frame first. -/
def counts (m : Machine) : List Nat :=
  m.top.remaining.length :: m.callers.map (·.frame.remaining.length)

/-- The work that is left for the machine, at most. -/
def work (env : Environment) (m : Machine) : Nat :=
  load (width env) (available env m.session.active) m.counts

/-- Every constraint has some weight. -/
theorem weight_pos (width n : Nat) : 0 < weight width n := by
  cases n <;> simp [weight]

/-- A constraint weighs no less when one more name is available. -/
theorem weight_le_succ (width n : Nat) : weight width n ≤ weight width (n + 1) := by
  induction n with
  | zero => simp [weight]
  | succ n ih =>
    have := Nat.mul_le_mul_left width ih
    simp only [weight] at *
    omega

/-- A constraint weighs no less when more names are available. -/
theorem weight_mono (width : Nat) {a b : Nat} (h : a ≤ b) : weight width a ≤ weight width b := by
  induction h with
  | refl => exact Nat.le_refl _
  | step _ ih => exact Nat.le_trans ih (weight_le_succ width _)

/-- The load does not shrink when more names are available. -/
theorem load_mono (width : Nat) (counts : List Nat) :
    ∀ {a b : Nat}, a ≤ b → load width a counts ≤ load width b counts := by
  induction counts with
  | nil => simp [load]
  | cons count rest ih =>
    intro a b h
    have := Nat.mul_le_mul_left count (weight_mono width h)
    have := ih (show a + 1 ≤ b + 1 by omega)
    simp only [load]
    omega

/-- Ending a frame without constraints makes the load smaller, though it may make a name available.
-/
theorem load_pop_lt (width : Nat) (rest : List Nat) {a b : Nat} (h : b ≤ a + 1) :
    load width b rest < load width a (0 :: rest) := by
  have := load_mono width rest h
  simp only [load]
  omega

/-- Instantiating a constraint without expanding anything makes the load smaller. -/
theorem load_tick_lt (width a count : Nat) (rest : List Nat) :
    load width a (count :: rest) < load width a ((count + 1) :: rest) := by
  have := weight_pos width a
  simp only [load, Nat.add_mul, Nat.one_mul]
  omega

/-- Expanding a call makes the load smaller: the callee has no more constraints than the width, and
with one name less they weigh less than the call. -/
theorem load_push_lt (width : Nat) {a b callee : Nat} (count : Nat) (rest : List Nat)
    (ha : b + 1 ≤ a) (hc : callee ≤ width) :
    load width b (callee :: count :: rest) < load width a ((count + 1) :: rest) := by
  have hload := load_mono width rest (show b + 1 + 1 ≤ a + 1 by omega)
  have hcount := Nat.mul_le_mul_left count (weight_mono width ha)
  have hcallee := Nat.mul_le_mul_right (weight width b) hc
  have hweight := weight_mono width ha
  simp only [load, weight, Nat.add_mul, Nat.one_mul] at *
  omega

/-- Taking a name out of a list makes at most this name missing in it. -/
theorem countP_filter_ne_le (names active : List String) (name : String) (h : names.Nodup) :
    names.countP (fun n => decide (n ∉ active.filter (· ≠ name))) ≤
      names.countP (fun n => decide (n ∉ active)) + 1 := by
  induction names with
  | nil => simp
  | cons head rest ih =>
    rw [List.nodup_cons] at h
    by_cases hn : head = name
    · subst hn
      have same : rest.countP (fun n => decide (n ∉ active.filter (· ≠ head))) =
          rest.countP (fun n => decide (n ∉ active)) := by
        refine List.countP_congr fun n hm => ?_
        have hne : n ≠ head := fun e => h.1 (e ▸ hm)
        simp [hne]
      simp only [List.countP_cons, same]
      split <;> split <;> omega
    · have := ih h.2
      simp only [List.countP_cons, List.mem_filter, hn, ne_eq, not_false_eq_true, decide_true,
        and_true] at *
      omega

/-- Leaving a function makes at most one name available. -/
theorem available_leave_le (env : Environment) (active : List String) (name : String) :
    available env (active.filter (· ≠ name)) ≤ available env active + 1 :=
  countP_filter_ne_le env.names active name env.nodup

/-- Putting a name in front of a list that lacks it makes one name less missing. -/
theorem countP_cons_lt (names active : List String) (name : String) (hm : name ∈ names)
    (ha : name ∉ active) :
    names.countP (fun n => decide (n ∉ name :: active)) + 1 ≤
      names.countP (fun n => decide (n ∉ active)) := by
  have mono : ∀ l : List String, l.countP (fun n => decide (n ∉ name :: active)) ≤
      l.countP (fun n => decide (n ∉ active)) := fun l =>
    List.countP_mono_left fun n _ hn => by simp_all
  induction names with
  | nil => simp at hm
  | cons head rest ih =>
    by_cases hh : name = head
    · subst hh
      have := mono rest
      rw [List.countP_cons, List.countP_cons, if_neg (by simp), if_pos (by simpa using ha)]
      omega
    · have hr : name ∈ rest := by simpa [hh] using hm
      have := ih hr
      have hh' : ¬ head = name := fun e => hh e.symm
      simp only [List.countP_cons, List.mem_cons, hh', false_or] at *
      omega

/-- Entering a function takes its name from the available ones. -/
theorem available_enter_lt (env : Environment) (active : List String) (name : String)
    (hm : name ∈ env.names) (ha : name ∉ active) :
    available env (name :: active) + 1 ≤ available env active :=
  countP_cons_lt env.names active name hm ha

/-- No summary has more constraints than all summaries together. -/
theorem length_le_total_of_mem {entries : List (String × FunctionSummary)}
    {entry : String × FunctionSummary} (h : entry ∈ entries) :
    entry.2.constraints.length ≤
      entries.foldr (fun e n => e.2.constraints.length + n) 0 := by
  induction entries with
  | nil => simp at h
  | cons head rest ih =>
    simp only [List.foldr_cons]
    rcases List.mem_cons.mp h with rfl | hr
    · omega
    · have := ih hr
      omega

/-- No summary of an environment has more constraints than its width. -/
theorem length_constraints_le_width {env : Environment} {name : String}
    {summary : FunctionSummary} (h : env.find? name = some summary) :
    summary.constraints.length ≤ width env :=
  length_le_total_of_mem ((env.find?_eq_some_iff name summary).mp h)

end Machine

namespace Session

/-- Logging an event enters and leaves no function. -/
@[simp] theorem active_log (session : Session) (event : Event) :
    (session.log event).active = session.active := rfl

/-- Emitting an equality enters and leaves no function. -/
@[simp] theorem active_emitImplied (session : Session) (equality : Option (Term .bool))
    (guard : Term .bool) (stack : CallStack) :
    (session.emitImplied equality guard stack).active = session.active := by
  cases equality <;> rfl

/-- Handing out names enters and leaves no function. -/
@[simp] theorem active_named (session : Session) (naming : Naming) :
    (session.named naming).active = session.active := rfl

/-- An entered function is the innermost one that is being expanded. -/
@[simp] theorem active_activate (session : Session) (name : String) :
    (session.activate name).active = name :: session.active := rfl

/-- Binding parameters enters and leaves no function. -/
@[simp] theorem active_bindParameters (session : Session) (scope : ScopeId) (guard : Term .bool)
    (stack : CallStack) (formals actuals : List (Option Expr)) :
    (session.bindParameters scope guard stack formals actuals).active = session.active := by
  fun_induction bindParameters session scope guard stack formals actuals with
  | case1 session formal formals actual actuals renamed bound ih =>
    rw [ih]
    simp [bound]
  | case2 _ _ _ _ ih => exact ih
  | case3 _ _ _ _ _ ih => exact ih
  | case4 => rfl
  | case5 => rfl

/-- A function that was left is no longer being expanded. -/
@[simp] theorem active_leave (session : Session) (name : String) :
    (session.leave name).active = session.active.filter (· ≠ name) := rfl

/-- Returning a value enters and leaves no function. -/
@[simp] theorem active_returnValue (session : Session) (frame : Frame) :
    (session.returnValue frame).2.active = session.active := by
  unfold returnValue
  split <;> rfl

/-- Binding a result enters and leaves no function. -/
@[simp] theorem active_bindResult (session : Session) (caller : Waiting) (value : Option Expr) :
    (session.bindResult caller value).active = session.active := by
  unfold bindResult
  split
  · simp
  · rfl

/-- Instantiating a requirement enters and leaves no function. -/
@[simp] theorem active_instantiateRequirement (session : Session) (frame : Frame)
    (r : Requirement (Option SourceLocation)) :
    (session.instantiateRequirement frame r).active = session.active := rfl

/-- A call that is not expanded leaves the active functions as they were. -/
theorem active_of_enter_eq_skipped {env : Environment} {session after : Session} {name : String}
    {args : List (Option Expr)} {stack : CallStack} {guard : Term .bool}
    (h : session.enter env name args stack guard = .skipped after) :
    after.active = session.active := by
  unfold enter at h
  split at h
  · cases h
    rfl
  · split at h
    · cases h
      rfl
    · split at h
      · cases h
      · cases h

/-- A call that is expanded adds its callee, which has a summary and was not active, to the active
functions. -/
theorem enter_eq_entered {env : Environment} {session after : Session} {name : String}
    {args : List (Option Expr)} {stack : CallStack} {guard : Term .bool} {frame : Frame}
    (h : session.enter env name args stack guard = .entered frame after) :
    name ∉ session.active ∧ after.active = name :: session.active ∧
      ∃ summary, env.find? name = some summary ∧ frame.remaining = summary.constraints := by
  unfold enter at h
  split at h
  · cases h
  · next summary hs =>
    split at h
    · cases h
    · next hn =>
      split at h
      · cases h
      · cases h
        exact ⟨hn, by simp, summary, hs, rfl⟩

end Session

namespace Machine

/-- Ending the top frame leaves less work. -/
theorem work_finish_lt {env : Environment} {m next : Machine} (hr : m.top.remaining = [])
    (h : m.finish = .running next) : work env next < work env m := by
  unfold finish at h
  split at h
  · cases h
  · next caller rest hc =>
    cases h
    simp only [work, counts, hc, hr, List.length_nil, List.map_cons, Session.active_bindResult,
      Session.active_leave, Session.active_returnValue]
    exact load_pop_lt _ _ (available_leave_le env m.session.active m.top.name)

/-- Instantiating a call leaves less work, whether or not its callee is expanded. -/
theorem work_stepCall_lt {env : Environment} {m next : Machine}
    {call : Call (Option SourceLocation)} {rest : List SummaryConstraint}
    (hr : m.top.remaining = .call call :: rest) (h : m.stepCall env call rest = .running next) :
    work env next < work env m := by
  simp only [stepCall] at h
  split at h
  · cases h
  · next session he =>
    cases h
    have hactive := Session.active_of_enter_eq_skipped he
    simp only [work, counts, hr, List.length_cons, hactive]
    exact load_tick_lt _ _ _ _
  · next callee session he =>
    cases h
    obtain ⟨hn, hactive, summary, hs, hrem⟩ := Session.enter_eq_entered he
    have hmem : call.callee ∈ env.names :=
      List.mem_map.mpr ⟨_, (env.find?_eq_some_iff _ _).mp hs, rfl⟩
    simp only [work, counts, hr, hactive, hrem, List.length_cons, List.map_cons]
    exact load_push_lt _ _ _ (available_enter_lt env _ _ hmem hn) (length_constraints_le_width hs)

/-- Every step of the machine leaves less work. -/
theorem work_step_lt {env : Environment} {m next : Machine} (h : m.step env = .running next) :
    work env next < work env m := by
  unfold step at h
  split at h
  · next hr => exact work_finish_lt hr h
  · next r rest hr =>
    cases h
    simp only [work, counts, hr, List.length_cons, Session.active_instantiateRequirement]
    exact load_tick_lt _ _ _ _
  · next call rest hr => exact work_stepCall_lt hr h

/-- Runs the machine until the expansion has ended. -/
def run (env : Environment) (m : Machine) : Expanded :=
  match h : m.step env with
  | .running next =>
    have := work_step_lt h
    run env next
  | .ended result => result
termination_by work env m

end Machine

end SummaryInlining
