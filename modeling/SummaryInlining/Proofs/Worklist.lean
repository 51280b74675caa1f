import Mathlib.Logic.Function.Iterate
import SummaryInlining.Proofs.CheckedRenaming
import SummaryInlining.Proofs.MachineRefinement

/-!
# The expansions of a call as a worklist

The expansion machine excludes by its types what must not happen: a frame that waits has the call
that it waits for, and renaming cannot fail. A `Worklist` excludes nothing. Its expansions are all
alike, each with the position of the constraint that comes next and with the call that it waits for,
if it waits for one; variables are replaced by expressions whose sorts are checked; and an expansion
that is to take a value without waiting for one is an error. `Worklist.iterate` is one iteration of
the loop, and an error of any kind leaves all expansions of the worklist.

The pieces of an iteration are actions on a session that can fail (`Inlining`). In scopes that keep
sorts each of them does what its counterpart of the machine does (`outcomeIn_renameTerm` to
`outcomeIn_bindResult`), and a call has the three outcomes that `Inlining.enter_cases` lists.
-/

set_option autoImplicit false

namespace SummaryInlining

/-- Why an expansion breaks off. -/
inductive InternalError where
  | arity (e : ArityMismatch)
  | substitution (e : SubstitutionError)
  /-- A value came back to an expansion of this function, which does not wait for one. -/
  | notWaiting (name : String)

def InternalError.message : InternalError → String
  | .arity e => e.message
  | .substitution e => e.message
  | .notWaiting name => "ICE: `" ++ name ++ "` is not waiting on a call"

/-- What is kept of a call while its callee is being expanded. -/
structure Pending where
  result : Option Var
  /-- When the call takes place. -/
  guard : Term .bool
  /-- The call stack of the call. -/
  stack : CallStack

/-- A summary that is partway through being inlined. -/
structure Expansion where
  name : String
  summary : FunctionSummary
  /-- The renaming scope of this expansion. -/
  scope : ScopeId
  stack : CallStack
  guard : Term .bool
  /-- The position of the constraint to instantiate next. -/
  next : Nat
  /-- The call whose callee is being expanded. -/
  pending : Option Pending

def Expansion.frame (x : Expansion) : Frame :=
  ⟨x.name, x.scope, x.stack, x.guard, x.summary.constraints.drop x.next, x.summary.result⟩

namespace Expansion

/-- The frame of an expansion has its scope. -/
@[simp] theorem scope_frame (x : Expansion) : x.frame.scope = x.scope := rfl

/-- The frame of an expansion has its stack. -/
@[simp] theorem stack_frame (x : Expansion) : x.frame.stack = x.stack := rfl

/-- The frame of an expansion has its guard. -/
@[simp] theorem guard_frame (x : Expansion) : x.frame.guard = x.guard := rfl

end Expansion

/-- An action on a session that can break off. -/
abbrev Inlining := ExceptT InternalError (StateM Session)

namespace Inlining

def rename {α : Type} (action : Renaming α) : Inlining α := do
  let session ← get
  let renamed := outcomeIn action session.naming
  set (session.named renamed.2)
  match renamed.1 with
  | .ok value => return value
  | .error e => throw (.substitution e)

def renameTerm (scope : ScopeId) {s : ValueSort} (e : Term s) : Inlining (Term s) :=
  rename (e.mapVarsM (Renaming.replacement scope))

def renameExpr (scope : ScopeId) (e : Expr) : Inlining Expr :=
  rename (e.mapVarsM (Renaming.replacement scope))

/-- Renames those of some optional expressions that are present, from left to right. -/
def renameExprs (scope : ScopeId) : List (Option Expr) → Inlining (List (Option Expr))
  | [] => return []
  | none :: rest => do return none :: (← renameExprs scope rest)
  | some e :: rest => do return some (← renameExpr scope e) :: (← renameExprs scope rest)

def bindParameters (scope : ScopeId) (guard : Term .bool) (stack : CallStack) :
    List (Option Expr × Option Expr) → Inlining Unit
  | [] => return ()
  | (some formal, some actual) :: rest => do
    let renamed ← renameExpr scope formal
    modify (·.emitImplied (renamed.equate? actual) guard stack)
    bindParameters scope guard stack rest
  | (none, _) :: rest => bindParameters scope guard stack rest
  | (_, none) :: rest => bindParameters scope guard stack rest

/-- Begins the expansion of a call, unless it is not to be expanded. -/
def enter (env : Environment) (name : String) (args : List (Option Expr)) (stack : CallStack)
    (guard : Term .bool) : Inlining (Option Expansion) := do
  let session ← get
  match env.find? name with
  | none =>
    set (session.log (.unknownCallee name))
    return none
  | some summary =>
    if name ∈ session.active then
      set (session.log (.recursiveCallee name))
      return none
    else if summary.parameters.length ≠ args.length then
      throw (.arity ⟨name, summary.parameters.length, args.length⟩)
    else
      let opened := session.naming.openScope
      set (session.named opened.2)
      bindParameters opened.1 guard stack (summary.parameters.zip args)
      modify fun bound => (bound.activate name).log (.enterCallee name)
      return some ⟨name, summary, opened.1, stack, guard, 0, none⟩

/-- The value that an expansion yields, renamed into the variables of the result. -/
def returnValue (x : Expansion) : Inlining (Option Expr) :=
  match x.summary.result with
  | none => return none
  | some result => do
    let returned ← renameExpr x.scope result
    modify (·.log (.returns returned))
    return some returned

/-- Binds the result variable of the call that `caller` waits for to the value that came back. -/
def bindResult (caller : Expansion) (returned : Option Expr) : Inlining Unit :=
  match caller.pending with
  | none => throw (.notWaiting caller.name)
  | some pending =>
    match returned, pending.result with
    | some value, some result => do
      let captured ← rename (Renaming.lookUp caller.scope result)
      modify (·.emitImplied (captured.equate? value) pending.guard pending.stack)
    | _, _ => return ()

def instantiateRequirement (x : Expansion) (r : Requirement (Option SourceLocation)) :
    Inlining Unit := do
  let condition ← renameTerm x.scope r.condition
  let assuming ← renameTerm x.scope r.assuming
  modify (·.emit ⟨condition, x.guard.conjoin assuming, r.origin, x.stack.push r.location⟩)

/-- Makes a call. The expansion of the callee, if it is expanded, comes with what is to be kept of
the call. -/
def makeCall (env : Environment) (x : Expansion) (call : Call (Option SourceLocation)) :
    Inlining (Option (Expansion × Pending)) := do
  let assuming ← renameTerm x.scope call.assuming
  let guard := x.guard.conjoin assuming
  let stack := x.stack.push call.location
  let args ← renameExprs x.scope call.args
  let callee ← enter env call.callee args stack guard
  return callee.map fun callee => (callee, ⟨call.result, guard, stack⟩)

end Inlining

/-- The loop in the middle of its work. -/
structure Worklist where
  session : Session
  /-- The expansion at work. -/
  top : Expansion
  /-- The expansions below it, the innermost one first. -/
  below : List Expansion

/-- What an expansion with all its checks ends with. -/
abbrev Checked (α : Type) := Except InternalError α × Session

inductive Loop where
  | running (w : Worklist)
  | ended (result : Checked (Option Expr))

/-- Goes on with what an action has answered. If it has failed, the loop ends, and all expansions of
these names are left. -/
def Checked.andThen {α : Type} (outcome : Checked α) (names : List String)
    (goOn : α → Session → Loop) : Loop :=
  match outcome with
  | (.ok value, after) => goOn value after
  | (.error e, after) => .ended (.error e, after.leaveAll names)

namespace Worklist

/-- The expansions of a worklist, the one at work first. -/
def expansions (w : Worklist) : List Expansion := w.top :: w.below

def names (w : Worklist) : List String := w.expansions.map (·.name)

/-- One iteration of the loop: the expansion at work instantiates its next constraint, or ends when
there is none. -/
def iterate (env : Environment) (w : Worklist) : Loop :=
  match w.top.summary.constraints[w.top.next]? with
  | none =>
    Checked.andThen (outcomeIn (Inlining.returnValue w.top) w.session) w.names fun returned after =>
      match w.below with
      | [] => .ended (.ok returned, after.leave w.top.name)
      | caller :: rest =>
        Checked.andThen (outcomeIn (Inlining.bindResult caller returned) (after.leave w.top.name))
          (w.below.map (·.name)) fun _ bound =>
            .running ⟨bound, { caller with pending := none }, rest⟩
  | some (.require r) =>
    Checked.andThen (outcomeIn (Inlining.instantiateRequirement w.top r) w.session) w.names
      fun _ after => .running ⟨after, { w.top with next := w.top.next + 1 }, w.below⟩
  | some (.call call) =>
    Checked.andThen (outcomeIn (Inlining.makeCall env w.top call) w.session) w.names
      fun entered after =>
        match entered with
        | none => .running ⟨after, { w.top with next := w.top.next + 1 }, w.below⟩
        | some (callee, pending) =>
          .running ⟨after, callee,
            { w.top with next := w.top.next + 1, pending := some pending } :: w.below⟩

end Worklist

namespace Loop

/-- The loop before its first iteration. It has ended already when the call is not expanded. -/
def start (env : Environment) (session : Session) (name : String) (args : List (Option Expr))
    (stack : CallStack) (guard : Term .bool) : Loop :=
  match outcomeIn (Inlining.enter env name args stack guard) session with
  | (.ok none, after) => .ended (.ok none, after)
  | (.ok (some root), after) => .running ⟨after, root, []⟩
  | (.error e, after) => .ended (.error e, after)

def next (env : Environment) : Loop → Loop
  | running w => w.iterate env
  | ended result => ended result

/-- After finitely many iterations the loop has ended in this way. -/
def EndsWith (env : Environment) (loop : Loop) (result : Checked (Option Expr)) : Prop :=
  ∃ n, (next env)^[n] loop = ended result

end Loop

/-! ## The pieces of an iteration in scopes that keep sorts -/

namespace Inlining

section

variable (session : Session) {scope : ScopeId}

/-- Looking at the session answers the session. -/
theorem outcomeIn_get : outcomeIn (get : Inlining Session) session = (.ok session, session) := rfl

/-- Setting the session leads to this session. -/
theorem outcomeIn_set (other : Session) :
    outcomeIn (set other : Inlining PUnit) session = (.ok ⟨⟩, other) := rfl

/-- Changing the session leads to the changed session. -/
theorem outcomeIn_modify (f : Session → Session) :
    outcomeIn (modify f : Inlining PUnit) session = (.ok ⟨⟩, f session) := rfl

/-- A renaming that succeeds on the names of a session succeeds in the session. -/
theorem outcomeIn_rename {α : Type} {action : Renaming α} {value : α} {naming : Naming}
    (h : outcomeIn action session.naming = (.ok value, naming)) :
    outcomeIn (rename action) session = (.ok value, session.named naming) := by
  rw [rename, outcomeIn_bind_of_ok (outcomeIn_get session)]
  simp only [h]
  rw [outcomeIn_bind_of_ok (outcomeIn_set _ _)]
  rfl

/-- Where sorts are kept, renaming a term with all checks is renaming it. -/
theorem outcomeIn_renameTerm (h : session.naming.KeepsSorts scope) {s : ValueSort} (e : Term s) :
    outcomeIn (renameTerm scope e) session =
      (.ok (session.naming.renameTerm scope e).1,
        session.named (session.naming.renameTerm scope e).2) :=
  outcomeIn_rename session (Naming.outcomeIn_mapVarsM e _ h)

/-- Where sorts are kept, renaming an expression with all checks is renaming it. -/
theorem outcomeIn_renameExpr (h : session.naming.KeepsSorts scope) (e : Expr) :
    outcomeIn (renameExpr scope e) session =
      (.ok (session.naming.renameExpr scope e).1,
        session.named (session.naming.renameExpr scope e).2) :=
  outcomeIn_rename session (Naming.outcomeIn_mapVarsM_expr h e)

/-- Where sorts are kept, renaming arguments with all checks is renaming them. -/
theorem outcomeIn_renameExprs (h : session.naming.KeepsSorts scope) (es : List (Option Expr)) :
    outcomeIn (renameExprs scope es) session =
      (.ok (session.naming.renameExprs scope es).1,
        session.named (session.naming.renameExprs scope es).2) := by
  induction es generalizing session with
  | nil => rfl
  | cons e rest ih =>
    cases e with
    | none => exact outcomeIn_map_of_ok (ih session h) _
    | some e =>
      have hfirst := h.cover e.occurrences
      exact outcomeIn_map₂_of_ok (outcomeIn_renameExpr session h e)
        (ih (session.named (session.naming.renameExpr scope e).2) hfirst) _

/-- Where sorts are kept, binding parameters with all checks is binding them one after the other. -/
theorem outcomeIn_bindParameters (h : session.naming.KeepsSorts scope) (guard : Term .bool)
    (stack : CallStack) (pairs : List (Option Expr × Option Expr)) :
    outcomeIn (bindParameters scope guard stack pairs) session =
      (.ok (), pairs.foldl (Session.bindParameter scope guard stack) session) := by
  induction pairs generalizing session with
  | nil => rfl
  | cons pair rest ih =>
    have hgrows := (Session.evolves_bindParameter session h.opened guard stack pair).grows
    have hrest := ih _ (h.mono hgrows)
    obtain ⟨formal, actual⟩ := pair
    cases formal with
    | none => exact hrest
    | some formal =>
      cases actual with
      | none => exact hrest
      | some actual =>
        rw [bindParameters, outcomeIn_bind_of_ok (outcomeIn_renameExpr session h formal),
          outcomeIn_bind_of_ok (outcomeIn_modify _ _)]
        exact hrest

/-- Where sorts are kept, returning a value with all checks is returning it. -/
theorem outcomeIn_returnValue {x : Expansion} (h : session.naming.KeepsSorts x.scope) :
    outcomeIn (returnValue x) session =
      (.ok (session.returnValue x.frame).1, (session.returnValue x.frame).2) := by
  unfold returnValue Session.returnValue Expansion.frame
  cases x.summary.result with
  | none => rfl
  | some result =>
    simp only
    rw [outcomeIn_bind_of_ok (outcomeIn_renameExpr session h result),
      outcomeIn_bind_of_ok (outcomeIn_modify _ _)]
    rfl

/-- Where sorts are kept, binding the result of a waiting call with all checks is binding it. -/
theorem outcomeIn_bindResult {caller : Expansion} {pending : Pending}
    (h : session.naming.KeepsSorts caller.scope) (hp : caller.pending = some pending)
    (returned : Option Expr) :
    outcomeIn (bindResult caller returned) session =
      (.ok (), session.bindValue caller.scope pending.guard pending.stack pending.result
        returned) := by
  simp only [bindResult, hp]
  cases returned with
  | none => rw [Session.bindValue_none]; rfl
  | some value =>
    cases pending.result with
    | none => rfl
    | some result =>
      have hlook := outcomeIn_rename session (Naming.outcomeIn_lookUp h result)
      simp only
      rw [outcomeIn_bind_of_ok hlook]
      rfl

/-- Where sorts are kept, instantiating a requirement with all checks is instantiating it. -/
theorem outcomeIn_instantiateRequirement {x : Expansion} (h : session.naming.KeepsSorts x.scope)
    (r : Requirement (Option SourceLocation)) :
    outcomeIn (instantiateRequirement x r) session =
      (.ok (), session.instantiateRequirement x.frame r) := by
  have hcondition := outcomeIn_renameTerm session h r.condition
  have hassuming := outcomeIn_renameTerm
    (session.named (session.naming.renameTerm x.scope r.condition).2)
    (h.cover r.condition.occurrences) r.assuming
  rw [instantiateRequirement, outcomeIn_bind_of_ok hcondition, outcomeIn_bind_of_ok hassuming]
  rfl

/-- Making a call renames the assumption and then the arguments, and enters the callee. -/
theorem outcomeIn_makeCall {x : Expansion} (h : session.naming.KeepsSorts x.scope)
    (env : Environment) (call : Call (Option SourceLocation)) :
    let assuming := session.naming.renameTerm x.scope call.assuming
    let args := assuming.2.renameExprs x.scope call.args
    let stack := x.stack.push call.location
    let guard := x.guard.conjoin assuming.1
    outcomeIn (makeCall env x call) session =
      outcomeIn (enter env call.callee args.1 stack guard >>= fun callee =>
        pure (callee.map fun callee => (callee, ⟨call.result, guard, stack⟩)))
        (session.named args.2) := by
  have hassuming := outcomeIn_renameTerm session h call.assuming
  have hargs := outcomeIn_renameExprs
    (session.named (session.naming.renameTerm x.scope call.assuming).2)
    (h.cover call.assuming.occurrences) call.args
  rw [makeCall, outcomeIn_bind_of_ok hassuming, outcomeIn_bind_of_ok hargs]
  rfl

end

/-- A call is refused, or it is not expanded and leaves only an entry in the log, or its callee is
entered. What comes of it is what the machine makes of it. -/
theorem enter_cases (env : Environment) (session : Session) (name : String)
    (args : List (Option Expr)) (stack : CallStack) (guard : Term .bool) :
    (∃ e, session.enter env name args stack guard = .refused e ∧
      outcomeIn (enter env name args stack guard) session = (.error (.arity e), session)) ∨
    (∃ event, session.enter env name args stack guard = .skipped (session.log event) ∧
      outcomeIn (enter env name args stack guard) session = (.ok none, session.log event)) ∨
    ∃ summary, env.find? name = some summary ∧ name ∉ session.active ∧
      session.enter env name args stack guard =
        .entered (session.frameOf name summary stack guard)
          ((session.bound name summary args stack guard).activate name) ∧
      outcomeIn (enter env name args stack guard) session =
        (.ok (some ⟨name, summary, session.naming.scopes.size, stack, guard, 0, none⟩),
          (session.bound name summary args stack guard).activate name) := by
  have hget := outcomeIn_get session
  cases hs : env.find? name with
  | none =>
    refine .inr (.inl ⟨.unknownCallee name, ?_, ?_⟩)
    · simp only [Session.enter, hs]
    · rw [enter, outcomeIn_bind_of_ok hget]
      simp only [hs]
      rw [outcomeIn_bind_of_ok (outcomeIn_set _ _), outcomeIn_pure]
  | some summary =>
    by_cases ha : name ∈ session.active
    · refine .inr (.inl ⟨.recursiveCallee name, ?_, ?_⟩)
      · simp only [Session.enter, hs, if_pos ha]
      · rw [enter, outcomeIn_bind_of_ok hget]
        simp only [hs, if_pos ha]
        rw [outcomeIn_bind_of_ok (outcomeIn_set _ _), outcomeIn_pure]
    · by_cases hl : summary.parameters.length = args.length
      · have hne : ¬ summary.parameters.length ≠ args.length := fun hne => hne hl
        refine .inr (.inr ⟨summary, rfl, ha, ?_, ?_⟩)
        · simp only [Session.enter, hs, if_neg ha, if_neg hne]
          rw [Session.bindParameters_eq_foldl]
          rfl
        · have hbind := outcomeIn_bindParameters (session.named session.naming.openScope.2)
            session.naming.keepsSorts_openScope guard stack (summary.parameters.zip args)
          have hscope : session.naming.scopes.size = session.naming.openScope.1 := rfl
          rw [hscope] at hbind
          rw [enter, outcomeIn_bind_of_ok hget]
          simp only [hs, if_neg ha, if_neg hne]
          rw [outcomeIn_bind_of_ok (outcomeIn_set _ _), outcomeIn_bind_of_ok hbind,
            outcomeIn_bind_of_ok (outcomeIn_modify _ _)]
          rfl
      · refine .inl ⟨⟨name, summary.parameters.length, args.length⟩, ?_, ?_⟩
        · simp only [Session.enter, hs, if_neg ha, ne_eq, hl, not_false_eq_true, if_true]
        · rw [enter, outcomeIn_bind_of_ok hget]
          simp only [hs, if_neg ha, ne_eq, hl, not_false_eq_true, if_true]
          rfl

end Inlining

end SummaryInlining
