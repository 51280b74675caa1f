import SummaryInlining.Expansion.Naming
import SummaryInlining.Summary.Basic
import SummaryInlining.Term.Connectives

/-!
# What an expansion leaves behind

A `Session` is the state that the inlining of summaries works on: the naming of variables, the
constraints emitted so far, the functions that are being expanded along the current call path, and
a log of what happened. The operations here are the parts of the expansion of one call: entering
the callee, which binds its parameters, and leaving it, which binds its result.
-/

set_option autoImplicit false

namespace SummaryInlining

/-- A function was called with a number of arguments that is not the number of its parameters. -/
structure ArityMismatch where
  callee : String
  /-- How many parameters it has. -/
  parameters : Nat
  /-- How many arguments it was given. -/
  arguments : Nat
  deriving DecidableEq

def ArityMismatch.message (e : ArityMismatch) : String :=
  "ICE: `" ++ e.callee ++ "` takes " ++ toString e.parameters ++ " arguments but was applied to "
    ++ toString e.arguments

/-- What happens during an instantiation. -/
inductive Event where
  /-- The function to instantiate has no summary. -/
  | unknownRoot (name : String)
  /-- The instantiation of a function begins. -/
  | enterRoot (name : String)
  /-- The expansion of a call of this function begins. -/
  | enterCallee (name : String)
  /-- A call is not expanded, because the callee has no summary. -/
  | unknownCallee (name : String)
  /-- A call is not expanded, because the callee is being expanded already. -/
  | recursiveCallee (name : String)
  /-- The expansion of a call yields this value. -/
  | returns (value : Expr)
  /-- What was entered last and not left yet is left. -/
  | leave

/-- The state of an expansion. -/
structure Session where
  naming : Naming
  /-- The constraints emitted so far, in order. -/
  constraints : Array InstantiatedConstraint
  /-- The functions that are being expanded. -/
  active : List String
  /-- What has happened so far, in order. -/
  events : Array Event

/-- The expansion of a call whose constraints are not all instantiated yet. -/
structure Frame where
  name : String
  /-- The renaming scope of this expansion. -/
  scope : ScopeId
  stack : CallStack
  /-- When the call takes place. -/
  guard : Term .bool
  /-- The constraints that are still to be instantiated. -/
  remaining : List SummaryConstraint
  /-- The value that the function returns, in its own variables. -/
  result : Option Expr

/-- What becomes of a call. -/
inductive Entry where
  /-- It cannot be expanded; nothing has happened. -/
  | refused (error : ArityMismatch)
  /-- It is not expanded. -/
  | skipped (session : Session)
  /-- Its expansion has begun with this frame. -/
  | entered (frame : Frame) (session : Session)

namespace Session

/-- The session in which nothing has happened yet. -/
def new (naming : Naming) : Session := ⟨naming, #[], [], #[]⟩

/-- The session with another naming of variables. -/
def named (session : Session) (naming : Naming) : Session := { session with naming }

/-- Takes a function into those that are being expanded. -/
def activate (session : Session) (name : String) : Session :=
  { session with active := name :: session.active }

/-- Takes a function out of those that are being expanded. -/
def deactivate (session : Session) (name : String) : Session :=
  { session with active := session.active.filter (· ≠ name) }

def log (session : Session) (event : Event) : Session :=
  { session with events := session.events.push event }

def emit (session : Session) (c : InstantiatedConstraint) : Session :=
  { session with constraints := session.constraints.push c }

/-- Emits a derived equality, if it can be stated. -/
def emitImplied (session : Session) (equality : Option (Term .bool)) (guard : Term .bool)
    (stack : CallStack) : Session :=
  match equality with
  | none => session
  | some condition => session.emit ⟨condition, guard, .implied, stack⟩

/-- Binds parameters to arguments, position by position. A parameter is bound only where both it
and its argument are present, and their equality is emitted only where their sorts agree. -/
def bindParameters (session : Session) (scope : ScopeId) (guard : Term .bool)
    (stack : CallStack) : List (Option Expr) → List (Option Expr) → Session
  | some formal :: formals, some actual :: actuals =>
    let renamed := session.naming.renameExpr scope formal
    let bound := (session.named renamed.2).emitImplied (renamed.1.equate? actual) guard stack
    bound.bindParameters scope guard stack formals actuals
  | none :: formals, _ :: actuals => session.bindParameters scope guard stack formals actuals
  | _ :: formals, none :: actuals => session.bindParameters scope guard stack formals actuals
  | [], _ => session
  | _ :: _, [] => session

/-- Begins the expansion of a call and binds the parameters of the callee in a scope of their own.
The call is not expanded when the callee is unknown or is being expanded already. -/
def enter (env : Environment) (session : Session) (name : String) (args : List (Option Expr))
    (stack : CallStack) (guard : Term .bool) : Entry :=
  match env.find? name with
  | none => .skipped (session.log (.unknownCallee name))
  | some summary =>
    if name ∈ session.active then .skipped (session.log (.recursiveCallee name))
    else if summary.parameters.length ≠ args.length then
      .refused ⟨name, summary.parameters.length, args.length⟩
    else
      let opened := session.naming.openScope
      let bound :=
        (session.named opened.2).bindParameters opened.1 guard stack summary.parameters args
      .entered ⟨name, opened.1, stack, guard, summary.constraints, summary.result⟩
        ((bound.activate name).log (.enterCallee name))

/-- Ends the expansion of a call. -/
def leave (session : Session) (name : String) : Session :=
  (session.deactivate name).log .leave

/-- The value that an expansion yields, renamed into the variables of the result. -/
def returnValue (session : Session) (frame : Frame) : Option Expr × Session :=
  match frame.result with
  | none => (none, session)
  | some result =>
    let renamed := session.naming.renameExpr frame.scope result
    (some renamed.1, (session.named renamed.2).log (.returns renamed.1))

end Session

end SummaryInlining
