import SummaryInlining.Proofs.Execution

/-!
# Calls do not depend on the history of a session

A session can be asked to apply functions again and again. `Session.append` puts what a session has
done behind what another one did before it: the scopes, the constraints and the log follow each
other, while the supply and the active functions are those of the later session. Everything that an
expansion does commutes with this (`inlineCall_append`). The scopes of the earlier session are
nowhere looked at; they only move the numbers of the later scopes.

A call leaves no function active, whether it returns or is cut off. So a session is what was done
before, followed by a new session whose supply stands where it stands now (`append_fresh`), and what
it answers next depends on its history only through the number of variables that were handed out
(`requests_depend_on_count_only`).
-/

set_option autoImplicit false

namespace SummaryInlining

namespace Naming

/-- The scopes of a naming behind those of an earlier one. -/
def append (before naming : Naming) : Naming := ⟨naming.supply, before.scopes ++ naming.scopes⟩

section

variable (before naming : Naming) (scope : ScopeId)

/-- The scopes of both namings are there. -/
theorem size_scopes_append :
    (before.append naming).scopes.size = before.scopes.size + naming.scopes.size :=
  Array.size_append

/-- Behind the earlier scopes, a scope maps what it mapped without them. -/
theorem find?_append (v : Var) :
    (before.append naming).find? (before.scopes.size + scope) v = naming.find? scope v := by
  simp [find?, append, Array.getElem?_append_right]

/-- Changing a scope behind the earlier ones does not touch these. -/
theorem modify_append (scope : Nat) (f : Scope → Scope) :
    (before.scopes ++ naming.scopes).modify (before.scopes.size + scope) f =
      before.scopes ++ naming.scopes.modify scope f := by
  refine Array.ext_getElem? fun i => ?_
  rw [Array.getElem?_modify]
  by_cases hi : i < before.scopes.size
  · -- the scopes in front stay as they are
    have hne : before.scopes.size + scope ≠ i := by omega
    rw [if_neg hne, Array.getElem?_append_left hi, Array.getElem?_append_left hi]
  · have hle : before.scopes.size ≤ i := Nat.le_of_not_lt hi
    have hscope : before.scopes.size + scope = i ↔ scope = i - before.scopes.size := by omega
    rw [Array.getElem?_append_right hle, Array.getElem?_append_right hle, Array.getElem?_modify]
    simp only [hscope]

/-- Opening a scope commutes with the scopes that were opened before. -/
theorem openScope_append :
    (before.append naming).openScope =
      (before.scopes.size + naming.openScope.1, before.append naming.openScope.2) := by
  simp [openScope, append]

/-- Meeting a variable commutes with the scopes that were opened before. -/
theorem meet_append (v : Var) :
    (before.append naming).meet (before.scopes.size + scope) v =
      before.append (naming.meet scope v) := by
  unfold meet
  rw [find?_append]
  cases naming.find? scope v with
  | some w => rfl
  | none => exact congrArg (Naming.mk _) (modify_append before naming scope _)

/-- Meeting several variables commutes with the scopes that were opened before. -/
theorem cover_append_scopes (vs : List Var) :
    (before.append naming).cover (before.scopes.size + scope) vs =
      before.append (naming.cover scope vs) := by
  induction vs generalizing naming with
  | nil => rfl
  | cons v rest ih =>
    have hrest := ih (naming.meet scope v)
    rw [← meet_append] at hrest
    exact hrest

/-- Behind the earlier scopes, the variables of a scope have the numbers that they had without them.
-/
theorem numberOf_append :
    (before.append naming).numberOf (before.scopes.size + scope) = naming.numberOf scope := by
  funext v
  rw [numberOf, numberOf, find?_append]

/-- Renaming a variable commutes with the scopes that were opened before. -/
theorem renameVar_append (v : Var) :
    (before.append naming).renameVar (before.scopes.size + scope) v =
      (naming.renameVar scope v).map id before.append := by
  simp only [renameVar, meet_append, numberOf_append]
  rfl

/-- Renaming a term commutes with the scopes that were opened before. -/
theorem renameTerm_append {s : ValueSort} (e : Term s) :
    (before.append naming).renameTerm (before.scopes.size + scope) e =
      (naming.renameTerm scope e).map id before.append := by
  simp only [renameTerm, cover_append_scopes, numberOf_append]
  rfl

/-- Renaming an expression commutes with the scopes that were opened before. -/
theorem renameExpr_append (e : Expr) :
    (before.append naming).renameExpr (before.scopes.size + scope) e =
      (naming.renameExpr scope e).map id before.append := by
  simp only [renameExpr, renameTerm_append]
  rfl

/-- Renaming arguments commutes with the scopes that were opened before. -/
theorem renameExprs_append (es : List (Option Expr)) :
    (before.append naming).renameExprs (before.scopes.size + scope) es =
      (naming.renameExprs scope es).map id before.append := by
  induction es generalizing naming with
  | nil => rfl
  | cons e rest ih =>
    cases e with
    | none =>
      simp only [renameExprs, ih]
      rfl
    | some e =>
      simp only [renameExprs, renameExpr_append, Prod.map_snd, ih]
      rfl

end

end Naming

namespace Session

/-- What a session has done behind what an earlier one did. -/
def append (before session : Session) : Session :=
  ⟨before.naming.append session.naming, before.constraints ++ session.constraints, session.active,
    before.events ++ session.events⟩

section

variable (before session : Session) (scope : ScopeId) (stack : CallStack) (guard : Term .bool)

/-- The names of two sessions behind one another are their names behind one another. -/
@[simp] theorem naming_append :
    (before.append session).naming = before.naming.append session.naming := rfl

/-- Putting new names into a session commutes with what was done before. -/
@[simp] theorem named_append (naming : Naming) :
    (before.append session).named (before.naming.append naming) =
      before.append (session.named naming) := rfl

/-- Logging an event commutes with what was done before. -/
theorem log_append (event : Event) :
    (before.append session).log event = before.append (session.log event) := by
  simp [append, log]

/-- Emitting a constraint commutes with what was done before. -/
theorem emit_append (c : InstantiatedConstraint) :
    (before.append session).emit c = before.append (session.emit c) := by
  simp [append, emit]

/-- Emitting an equality commutes with what was done before. -/
theorem emitImplied_append (equality : Option (Term .bool)) :
    (before.append session).emitImplied equality guard stack =
      before.append (session.emitImplied equality guard stack) := by
  cases equality with
  | none => rfl
  | some condition => exact emit_append before session _

/-- Binding a parameter commutes with what was done before. -/
theorem bindParameter_append (pair : Option Expr × Option Expr) :
    (before.append session).bindParameter (before.naming.scopes.size + scope) guard stack pair =
      before.append (session.bindParameter scope guard stack pair) := by
  obtain ⟨formal, actual⟩ := pair
  cases formal with
  | none => rfl
  | some formal =>
    cases actual with
    | none => rfl
    | some actual =>
      simp only [bindParameter, naming_append, Naming.renameExpr_append, Prod.map_fst, id_eq,
        Prod.map_snd, named_append, emitImplied_append]

/-- Binding a result commutes with what was done before. -/
theorem bindValue_append (result : Option Var) (value : Option Expr) :
    (before.append session).bindValue (before.naming.scopes.size + scope) guard stack result value =
      before.append (session.bindValue scope guard stack result value) := by
  cases result with
  | none => rfl
  | some result =>
    cases value with
    | none => rfl
    | some value =>
      simp only [bindValue, naming_append, Naming.renameVar_append, Prod.map_fst, id_eq,
        Prod.map_snd, named_append, emitImplied_append]

/-- Entering a function commutes with what was done before. -/
theorem bound_append (name : String) (summary : FunctionSummary) (args : List (Option Expr)) :
    (before.append session).bound name summary args stack guard =
      before.append (session.bound name summary args stack guard) := by
  have hscope : (before.append session).naming.scopes.size =
      before.naming.scopes.size + session.naming.scopes.size := Naming.size_scopes_append _ _
  have hopen : (before.append session).named (before.append session).naming.openScope.2 =
      before.append (session.named session.naming.openScope.2) :=
    congrArg (before.append session).named
      (congrArg Prod.snd (Naming.openScope_append before.naming session.naming))
  rw [bound, bound, hscope, hopen, ← log_append]
  generalize session.named session.naming.openScope.2 = opened
  congr 1
  induction summary.parameters.zip args generalizing opened with
  | nil => rfl
  | cons pair rest ih =>
    rw [List.foldl_cons, bindParameter_append, ih]
    rfl

/-- Returning a value commutes with what was done before. -/
theorem returnValue_append (frame : Frame) :
    (before.append session).returnValue
        { frame with scope := before.naming.scopes.size + frame.scope } =
      (session.returnValue frame).map id before.append := by
  unfold returnValue
  cases frame.result with
  | none => rfl
  | some result =>
    simp only [naming_append, Naming.renameExpr_append, Prod.map_fst, id_eq, Prod.map_snd,
      named_append, log_append]
    rfl

end

section

variable {env : Environment} {before : Session}

/-- Going through these constraints commutes with what was done before. -/
def CommutesBody (env : Environment) (before : Session) (active : List String)
    (constraints : List SummaryConstraint) : Prop :=
  ∀ (session : Session) (scope : ScopeId) (stack : CallStack) (guard : Term .bool),
    (before.append session).inlineBody env active (before.naming.scopes.size + scope) stack guard
        constraints =
      (session.inlineBody env active scope stack guard constraints).map id before.append

/-- Expanding a frame commutes with what was done before, if going through its constraints does. -/
theorem inlineFrame_append_of_body {active : List String} (session : Session) {frame : Frame}
    (hbody : CommutesBody env before active frame.remaining) :
    (before.append session).inlineFrame env active
        { frame with scope := before.naming.scopes.size + frame.scope } =
      (session.inlineFrame env active frame).map id before.append := by
  unfold inlineFrame
  simp only [hbody session frame.scope frame.stack frame.guard]
  obtain ⟨e | ⟨⟩, after⟩ :=
    session.inlineBody env active frame.scope frame.stack frame.guard frame.remaining
  · exact congrArg (Prod.mk _) (log_append before after .leave)
  · have hreturn := returnValue_append before after frame
    simp only [Prod.map_apply, id_eq, hreturn]
    exact congrArg (Prod.mk _) (log_append before _ .leave)

/-- A call commutes with what was done before when the constraints of its callee do. -/
theorem inlineCall_append_of_body {active : List String} {name : String}
    (hbody : ∀ summary, env.find? name = some summary → name ∉ active →
      CommutesBody env before (name :: active) summary.constraints)
    (session : Session) (args : List (Option Expr)) (stack : CallStack) (guard : Term .bool) :
    (before.append session).inlineCall env active name args stack guard =
      (session.inlineCall env active name args stack guard).map id before.append := by
  cases hs : env.find? name with
  | none =>
    rw [inlineCall_of_unknown hs, inlineCall_of_unknown hs, log_append]
    rfl
  | some summary =>
    by_cases ha : name ∈ active
    · rw [inlineCall_of_active hs ha, inlineCall_of_active hs ha, log_append]
      rfl
    · by_cases hl : summary.parameters.length = args.length
      · have hframe : (before.append session).frameOf name summary stack guard =
            { session.frameOf name summary stack guard with
              scope := before.naming.scopes.size + session.naming.scopes.size } :=
          congrArg (Frame.mk name · stack guard summary.constraints summary.result)
            (Naming.size_scopes_append before.naming session.naming)
        rw [inlineCall_of_length_eq hs ha hl, inlineCall_of_length_eq hs ha hl, bound_append,
          hframe]
        exact inlineFrame_append_of_body _ (hbody summary hs ha)
      · rw [inlineCall_of_length_ne hs ha hl, inlineCall_of_length_ne hs ha hl]
        rfl

/-- Going through any constraints commutes with what was done before. -/
theorem inlineBody_append (active : List String) (constraints : List SummaryConstraint) :
    CommutesBody env before active constraints := by
  -- the session stays general: every constraint leads on to another one
  induction active, constraints using inlining_induction env with
  | nil active =>
    intro session scope stack guard
    rw [inlineBody, inlineBody]
    rfl
  | require active r rest ih =>
    intro session scope stack guard
    rw [inlineBody, inlineBody]
    simp only [naming_append, Naming.renameTerm_append, Prod.map_fst, id_eq, Prod.map_snd,
      named_append, emit_append]
    exact ih _ scope stack guard
  | call active call rest ihbody ihrest =>
    intro session scope stack guard
    rw [inlineBody, inlineBody]
    simp only [naming_append, Naming.renameTerm_append, Naming.renameExprs_append, Prod.map_fst,
      id_eq, Prod.map_snd, named_append]
    have hcall := inlineCall_append_of_body ihbody
    simp only [hcall]
    generalize Session.inlineCall env active _ call.callee _ _ _ = called
    obtain ⟨e | value, after⟩ := called
    · rfl
    · simp only [Prod.map_apply, id_eq, bindValue_append]
      exact ihrest _ scope stack guard

/-- A call commutes with what was done before, also when a mismatch cuts it off. -/
theorem inlineCall_append (env : Environment) (before session : Session) (active : List String)
    (name : String) (args : List (Option Expr)) (stack : CallStack) (guard : Term .bool) :
    (before.append session).inlineCall env active name args stack guard =
      (session.inlineCall env active name args stack guard).map id before.append :=
  inlineCall_append_of_body (fun summary _ _ => inlineBody_append _ summary.constraints)
    session args stack guard

end

/-! ## Sequences of calls -/

/-- What a session can be asked to apply. -/
structure Request where
  name : String
  args : List (Option Expr)
  stack : CallStack
  /-- When the call takes place. -/
  guard : Term .bool

variable {env : Environment}

def answer (env : Environment) (session : Session) (r : Request) : Expanded :=
  session.apply env r.name r.args r.stack r.guard

/-- The session after some requests, whatever has become of them. -/
def serve (env : Environment) (session : Session) (requests : List Request) : Session :=
  requests.foldl (fun before r => (before.answer env r).2) session

/-- A session in which nothing has happened, with a supply from which as many variables have been
handed out. -/
def fresh (session : Session) : Session := new ⟨⟨session.naming.count⟩, #[]⟩

/-- A session that expands nothing at the moment is what was done before, followed by nothing. -/
theorem append_fresh {session : Session} (h : session.active = []) :
    session.append session.fresh = session := by
  obtain ⟨⟨⟨count⟩, scopes⟩, constraints, active, events⟩ := session
  obtain rfl : active = [] := h
  simp [append, fresh, new, Naming.append, Naming.count]

/-- A request leaves the functions that are being expanded as they were, whether or not it failed.
-/
theorem active_answer (session : Session) (r : Request) :
    (session.answer env r).2.active = session.active :=
  (evolves_apply env session r.name r.args r.stack r.guard).active_eq

/-- Requests leave the functions that are being expanded as they were, whatever has become of them.
-/
theorem active_serve (session : Session) (requests : List Request) :
    (session.serve env requests).active = session.active := by
  induction requests generalizing session with
  | nil => rfl
  | cons r rest ih => exact (ih (session.answer env r).2).trans (active_answer session r)

/-- A request is answered as by a new session, behind what was done before. -/
theorem answer_eq_append_fresh {session : Session} (h : session.active = []) (r : Request) :
    session.answer env r = (session.fresh.answer env r).map id session.append := by
  have hcall := inlineCall_append env session session.fresh [] r.name r.args r.stack r.guard
  rw [append_fresh h] at hcall
  rw [answer, answer, apply_eq_inlineCall, apply_eq_inlineCall, h]
  exact hcall

end Session

/-- No function is active when an instantiator has been constructed. -/
theorem active_instantiate (env : Environment) (entry : String) (naming : Naming) :
    (instantiate env entry naming).2.active = [] := by
  cases hs : env.find? entry with
  | none =>
    rw [instantiate, hs]
    rfl
  | some summary =>
    rw [instantiate_of_some hs]
    exact (Session.evolves_apply ..).active_eq

/-- Whatever an instantiator has been asked before and whatever has become of it, after the next
request no function is active, the constraints that were there are still in front, and the count of
variables has not gone back. The request is answered with what a new session answers whose supply
has the same count, a value or a mismatch; it adds the same constraints and the same entries in the
log, and hands out as many variables. -/
theorem requests_depend_on_count_only (env : Environment) (entry : String) (naming : Naming)
    (requests : List Session.Request) (request : Session.Request) :
    let session := (instantiate env entry naming).2.serve env requests
    let after := session.answer env request
    let alone := (Session.new ⟨⟨session.naming.count⟩, #[]⟩).answer env request
    session.active = [] ∧ after.2.active = [] ∧
      session.constraints.toList <+: after.2.constraints.toList ∧
      session.naming.count ≤ after.2.naming.count ∧
      after.1 = alone.1 ∧
      after.2.constraints = session.constraints ++ alone.2.constraints ∧
      after.2.events = session.events ++ alone.2.events ∧
      after.2.naming.count = alone.2.naming.count := by
  intro session after alone
  have hactive : session.active = [] :=
    (Session.active_serve _ requests).trans (active_instantiate env entry naming)
  have hevolves := Session.evolves_apply env session request.name request.args request.stack
    request.guard
  have hanswer : after = alone.map id session.append :=
    Session.answer_eq_append_fresh hactive request
  refine ⟨hactive, hevolves.active_eq.trans hactive, hevolves.constraints_prefix,
    hevolves.grows.count_le, ?_⟩
  rw [hanswer]
  exact ⟨rfl, rfl, rfl, rfl⟩

end SummaryInlining
