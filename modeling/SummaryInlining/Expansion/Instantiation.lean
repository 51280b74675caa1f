import SummaryInlining.Expansion.Machine

/-!
# Instantiating a function

`Session.apply` expands one call, and `instantiate` flattens the summary of a function and of
everything it calls into one list of constraints. The constraints stand in depth-first order,
following the order of the constraints within each summary. Nothing binds the parameters of the
root, so they are renamed into variables of their own first.
-/

set_option autoImplicit false

namespace SummaryInlining

/-- Expands a call of the function `name` with these arguments, which takes place at `stack`
whenever `guard` holds. The value is that of the call, or none when the call is not expanded or the
callee returns none. -/
def Session.apply (env : Environment) (session : Session) (name : String)
    (args : List (Option Expr)) (stack : CallStack) (guard : Term .bool) : Expanded :=
  match session.enter env name args stack guard with
  | .refused e => (.error e, session)
  | .skipped after => (.ok none, after)
  | .entered frame after => Machine.run env ⟨after, frame, []⟩

/-- Flattens the function `entry` and everything that it calls. An unknown function has no
constraints. The session is left behind also when an arity mismatch cuts the expansion off. -/
def instantiate (env : Environment) (entry : String) (naming : Naming) :
    Except ArityMismatch Unit × Session :=
  match env.find? entry with
  | none => (.ok (), (Session.new naming).log (.unknownRoot entry))
  | some summary =>
    let opened := naming.openScope
    let args := opened.2.renameExprs opened.1 summary.parameters
    let entered := (Session.new args.2).log (.enterRoot entry)
    let applied := entered.apply env entry args.1 .top .alwaysTrue
    (applied.1.map fun _ => (), applied.2.log .leave)

end SummaryInlining
