import SummaryInlining.Expansion.Instantiation

/-!
# Inlining by recursion

`Session.inlineCall` expands a call by recursion: it binds the parameters of the callee in a scope
of their own, goes through the constraints of the callee in order, and calls itself for every call
among them. The functions that are being expanded are a parameter of the recursion, which every
expansion extends for its own constraints only, so that nothing has to be taken back afterwards.

The recursion ends because an expansion takes a name with a summary out of those that are left
(`Machine.available`), and because the constraints of one summary are met one after the other.
`inlining_induction` packages the induction along these two lines.
-/

set_option autoImplicit false

namespace SummaryInlining

namespace Session

/-- Binds a parameter to its argument, where both are present and their sorts agree. -/
def bindParameter (scope : ScopeId) (guard : Term .bool) (stack : CallStack) (session : Session) :
    Option Expr × Option Expr → Session
  | (some formal, some actual) =>
    let renamed := session.naming.renameExpr scope formal
    (session.named renamed.2).emitImplied (renamed.1.equate? actual) guard stack
  | (none, _) => session
  | (_, none) => session

/-- Binds the result variable of a call, if it has one, to the value that came back, if there is
one and their sorts agree. -/
def bindValue (scope : ScopeId) (guard : Term .bool) (stack : CallStack) (session : Session) :
    Option Var → Option Expr → Session
  | some result, some value =>
    let renamed := session.naming.renameVar scope result
    (session.named renamed.2).emitImplied ((Expr.ofVar renamed.1).equate? value) guard stack
  | none, _ => session
  | _, none => session

mutual

/-- Expands a call of the function `name`, which takes place at `stack` whenever `guard` holds.
The functions that are being expanded along the path to the call are `active`. -/
def inlineCall (env : Environment) (active : List String) (session : Session) (name : String)
    (args : List (Option Expr)) (stack : CallStack) (guard : Term .bool) : Expanded :=
  match _h : env.find? name with
  | none => (.ok none, session.log (.unknownCallee name))
  | some summary =>
    if _hn : name ∈ active then (.ok none, session.log (.recursiveCallee name))
    else if summary.parameters.length ≠ args.length then
      (.error ⟨name, summary.parameters.length, args.length⟩, session)
    else
      let opened := session.naming.openScope
      let bound :=
        (summary.parameters.zip args).foldl (bindParameter opened.1 guard stack)
          (session.named opened.2)
      match (bound.log (.enterCallee name)).inlineBody env (name :: active) opened.1 stack guard
          summary.constraints with
      | (.error e, after) => (.error e, after.log .leave)
      | (.ok (), after) =>
        match summary.result with
        | none => (.ok none, after.log .leave)
        | some result =>
          let renamed := after.naming.renameExpr opened.1 result
          (.ok (some renamed.1), ((after.named renamed.2).log (.returns renamed.1)).log .leave)
termination_by (Machine.available env active, 0)
decreasing_by
  exact Prod.Lex.left _ _ (Machine.available_enter_lt env active name
    (List.mem_map.mpr ⟨_, (env.find?_eq_some_iff _ _).mp _h, rfl⟩) _hn)

/-- Goes through constraints of a function whose variables are renamed in `scope`, and which is
expanded at `stack` whenever `guard` holds. -/
def inlineBody (env : Environment) (active : List String) (session : Session) (scope : ScopeId)
    (stack : CallStack) (guard : Term .bool) :
    List SummaryConstraint → Except ArityMismatch Unit × Session
  | [] => (.ok (), session)
  | .require r :: rest =>
    let condition := session.naming.renameTerm scope r.condition
    let assuming := condition.2.renameTerm scope r.assuming
    let emitted := (session.named assuming.2).emit
      ⟨condition.1, guard.conjoin assuming.1, r.origin, stack.push r.location⟩
    emitted.inlineBody env active scope stack guard rest
  | .call call :: rest =>
    let assuming := session.naming.renameTerm scope call.assuming
    let args := assuming.2.renameExprs scope call.args
    let callStack := stack.push call.location
    let callGuard := guard.conjoin assuming.1
    match (session.named args.2).inlineCall env active call.callee args.1 callStack callGuard with
    | (.error e, after) => (.error e, after)
    | (.ok value, after) =>
      (after.bindValue scope callGuard callStack call.result value).inlineBody env active scope
        stack guard rest
termination_by constraints => (Machine.available env active, constraints.length)
decreasing_by
  · exact Prod.Lex.right _ (by simp)
  · exact Prod.Lex.right _ (by simp)
  · exact Prod.Lex.right _ (by simp)

end

/-- Goes through the constraints that a frame has left and takes the value of its call. -/
def inlineFrame (env : Environment) (active : List String) (session : Session) (frame : Frame) :
    Expanded :=
  match session.inlineBody env active frame.scope frame.stack frame.guard frame.remaining with
  | (.error e, after) => (.error e, after.log .leave)
  | (.ok (), after) =>
    let returned := after.returnValue frame
    (.ok returned.1, returned.2.log .leave)

/-- The session in which these functions are being expanded. -/
def withActive (session : Session) (active : List String) : Session := { session with active }

/-- A session is left alone when it is given the active functions that it has. -/
@[simp] theorem withActive_self (session : Session) :
    session.withActive session.active = session := rfl

/-- The functions that are given last are the active ones. -/
@[simp] theorem withActive_withActive (session : Session) (active other : List String) :
    (session.withActive active).withActive other = session.withActive other := rfl

/-- The functions that are given are the active ones. -/
@[simp] theorem active_withActive (session : Session) (active : List String) :
    (session.withActive active).active = active := rfl

/-- Giving a session other active functions keeps its names. -/
@[simp] theorem naming_withActive (session : Session) (active : List String) :
    (session.withActive active).naming = session.naming := rfl

/-- New names can be put into a session before or after it is given other active functions. -/
@[simp] theorem named_withActive (session : Session) (active : List String) (naming : Naming) :
    (session.withActive active).named naming = (session.named naming).withActive active := rfl

/-- An equality can be emitted before or after a session is given other active functions. -/
@[simp] theorem emitImplied_withActive (session : Session) (active : List String)
    (equality : Option (Term .bool)) (guard : Term .bool) (stack : CallStack) :
    (session.withActive active).emitImplied equality guard stack =
      (session.emitImplied equality guard stack).withActive active := by
  cases equality <;> rfl

/-- Binding parameters goes through the pairs of parameters and arguments from left to right. -/
theorem bindParameters_eq_foldl (session : Session) (scope : ScopeId) (guard : Term .bool)
    (stack : CallStack) (formals actuals : List (Option Expr)) :
    session.bindParameters scope guard stack formals actuals =
      (formals.zip actuals).foldl (bindParameter scope guard stack) session := by
  fun_induction bindParameters session scope guard stack formals actuals with
  | case1 session formal formals actual actuals renamed bound ih => rw [ih]; rfl
  | case2 session actual formals actuals ih => rw [ih]; rfl
  | case3 session formal formals actuals _ ih =>
    rw [ih]
    cases formal <;> rfl
  | case4 => simp
  | case5 => simp

/-- The frame that the expansion of a call begins with. -/
def frameOf (session : Session) (name : String) (summary : FunctionSummary) (stack : CallStack)
    (guard : Term .bool) : Frame :=
  ⟨name, session.naming.scopes.size, stack, guard, summary.constraints, summary.result⟩

/-- The session in which the expansion of a call begins: the parameters of the callee are bound to
the arguments. -/
def bound (session : Session) (name : String) (summary : FunctionSummary)
    (args : List (Option Expr)) (stack : CallStack) (guard : Term .bool) : Session :=
  ((summary.parameters.zip args).foldl (bindParameter session.naming.scopes.size guard stack)
    (session.named session.naming.openScope.2)).log (.enterCallee name)

section

variable {env : Environment} {active : List String} {session : Session} {name : String}
  {summary : FunctionSummary} {args : List (Option Expr)} {stack : CallStack} {guard : Term .bool}

/-- A call of a function without summary is logged and has no value. -/
theorem inlineCall_of_unknown (h : env.find? name = none) :
    session.inlineCall env active name args stack guard =
      (.ok none, session.log (.unknownCallee name)) := by
  rw [inlineCall]
  split
  · rfl
  · next summary hs =>
    rw [h] at hs
    cases hs

/-- A call of a function that is being expanded is logged and has no value. -/
theorem inlineCall_of_active (h : env.find? name = some summary) (ha : name ∈ active) :
    session.inlineCall env active name args stack guard =
      (.ok none, session.log (.recursiveCallee name)) := by
  rw [inlineCall]
  split
  · next hs =>
    rw [h] at hs
    cases hs
  · rw [dif_pos ha]

/-- Any other call with the wrong number of arguments fails. -/
theorem inlineCall_of_length_ne (h : env.find? name = some summary) (ha : name ∉ active)
    (hl : summary.parameters.length ≠ args.length) :
    session.inlineCall env active name args stack guard =
      (.error ⟨name, summary.parameters.length, args.length⟩, session) := by
  rw [inlineCall]
  split
  · next hs =>
    rw [h] at hs
    cases hs
  · next found hs =>
    obtain rfl : summary = found := Option.some.inj (h.symm.trans hs)
    rw [dif_neg ha, if_pos hl]

/-- Any other call is expanded: its parameters are bound to the arguments, and its constraints are
gone through. -/
theorem inlineCall_of_length_eq (h : env.find? name = some summary) (ha : name ∉ active)
    (hl : summary.parameters.length = args.length) :
    session.inlineCall env active name args stack guard =
      (session.bound name summary args stack guard).inlineFrame env (name :: active)
        (session.frameOf name summary stack guard) := by
  rw [inlineCall]
  split
  · next hs =>
    rw [h] at hs
    cases hs
  · next found hs =>
    obtain rfl : summary = found := Option.some.inj (h.symm.trans hs)
    rw [dif_neg ha, if_neg fun hne => hne hl]
    simp only [inlineFrame, bound, frameOf, Naming.openScope]
    split
    · rfl
    · simp only [returnValue]
      cases summary.result <;> rfl

end

end Session

/-- Induction along an expansion: on the constraints that a function has left while the functions
`active` are being expanded. The constraints of a callee that is expanded come with the callee among
the active functions. -/
theorem inlining_induction (env : Environment)
    {motive : List String → List SummaryConstraint → Prop}
    (nil : ∀ active, motive active [])
    (require : ∀ active r rest, motive active rest → motive active (.require r :: rest))
    (call : ∀ active call rest,
      (∀ callee, env.find? call.callee = some callee → call.callee ∉ active →
        motive (call.callee :: active) callee.constraints) →
      motive active rest → motive active (.call call :: rest)) :
    (active : List String) → (constraints : List SummaryConstraint) → motive active constraints
  | active, [] => nil active
  | active, .require r :: rest =>
    require active r rest (inlining_induction env nil require call active rest)
  | active, .call c :: rest =>
    call active c rest
      (fun callee hs ha =>
        have := Machine.available_enter_lt env active c.callee
          (List.mem_map.mpr ⟨_, (env.find?_eq_some_iff _ _).mp hs, rfl⟩) ha
        inlining_induction env nil require call (c.callee :: active) callee.constraints)
      (inlining_induction env nil require call active rest)
termination_by active constraints => (Machine.available env active, constraints.length)
decreasing_by
  · exact Prod.Lex.right _ (by simp)
  · exact Prod.Lex.left _ _ (by omega)
  · exact Prod.Lex.right _ (by simp)

end SummaryInlining
