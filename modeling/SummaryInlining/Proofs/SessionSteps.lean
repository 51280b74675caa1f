import Mathlib.Logic.Relation
import SummaryInlining.Proofs.RecursiveInlining

/-!
# What an expansion does to a session, step by step

Everything that an expansion does to a session is made of four small steps: it logs an event, emits
a constraint, opens a scope, or meets a variable in a scope that exists. `Session.Evolves` relates
a session to those that come out of it by such steps. Recursive inlining evolves its session
whatever becomes of it, a mismatch included (`evolves_inlineCall`), so what each small step keeps
is kept by every expansion.
-/

set_option autoImplicit false

namespace SummaryInlining

namespace Naming

/-- Meeting a variable opens no scope. -/
@[simp] theorem size_scopes_meet (naming : Naming) (scope : ScopeId) (v : Var) :
    (naming.meet scope v).scopes.size = naming.scopes.size := by
  unfold meet
  split <;> simp

/-- Meeting several variables opens no scope. -/
@[simp] theorem size_scopes_cover (naming : Naming) (scope : ScopeId) (vs : List Var) :
    (naming.cover scope vs).scopes.size = naming.scopes.size := by
  induction vs generalizing naming with
  | nil => rfl
  | cons v rest ih => exact (ih (naming.meet scope v)).trans (size_scopes_meet naming scope v)

/-- Opening a scope adds one. -/
@[simp] theorem size_scopes_openScope (naming : Naming) :
    naming.openScope.2.scopes.size = naming.scopes.size + 1 := by
  simp [openScope]

/-- Variables are met in two parts as they are at once. -/
theorem cover_append (naming : Naming) (scope : ScopeId) (vs ws : List Var) :
    naming.cover scope (vs ++ ws) = (naming.cover scope vs).cover scope ws :=
  List.foldl_append

/-- Renaming expressions meets the variables that occur in them, from left to right. -/
theorem renameExprs_snd (naming : Naming) (scope : ScopeId) (es : List (Option Expr)) :
    (naming.renameExprs scope es).2 = naming.cover scope (Expr.listOccurrences es) := by
  induction es generalizing naming with
  | nil => rfl
  | cons e rest ih =>
    cases e with
    | none => exact ih naming
    | some e =>
      rw [Expr.listOccurrences, List.flatMap_cons, cover_append]
      exact ih (naming.renameExpr scope e).2

end Naming

namespace Session

/-- The small steps of an expansion. -/
inductive SmallStep : Session → Session → Prop where
  | log (session : Session) (event : Event) : SmallStep session (session.log event)
  | emit (session : Session) (c : InstantiatedConstraint) : SmallStep session (session.emit c)
  | openScope (session : Session) : SmallStep session (session.named session.naming.openScope.2)
  | meet (session : Session) (scope : ScopeId) (v : Var) (h : scope < session.naming.scopes.size) :
    SmallStep session (session.named (session.naming.meet scope v))

/-- The second session comes out of the first one by small steps. -/
def Evolves : Session → Session → Prop := Relation.ReflTransGen SmallStep

namespace Evolves

/-- A session evolves into itself without a step. -/
theorem refl (session : Session) : Evolves session session := Relation.ReflTransGen.refl

/-- What evolves in two stretches evolves. -/
theorem trans {a b c : Session} (hab : Evolves a b) (hbc : Evolves b c) : Evolves a c :=
  Relation.ReflTransGen.trans hab hbc

/-- A small step is an evolution. -/
theorem of_smallStep {a b : Session} (h : SmallStep a b) : Evolves a b :=
  Relation.ReflTransGen.single h

/-- What every small step keeps is kept by all of them together. -/
theorem keeps {a b : Session} {R : Session → Session → Prop} (h : Evolves a b)
    (refl : ∀ s, R s s) (trans : ∀ {s t u}, R s t → R t u → R s u)
    (step : ∀ {s t}, SmallStep s t → R s t) : R a b := by
  induction h with
  | refl => exact refl a
  | tail _ hstep ih => exact trans ih (step hstep)

/-- An evolution ends with the functions being expanded that it began with. -/
theorem active_eq {a b : Session} (h : Evolves a b) : b.active = a.active := by
  refine h.keeps (R := fun s t => t.active = s.active) (fun _ => rfl)
    (fun h₁ h₂ => h₂.trans h₁) ?_
  intro s t hstep
  cases hstep <;> rfl

/-- An evolution takes no scope away. -/
theorem size_scopes_le {a b : Session} (h : Evolves a b) :
    a.naming.scopes.size ≤ b.naming.scopes.size := by
  refine h.keeps (R := fun s t => s.naming.scopes.size ≤ t.naming.scopes.size)
    (fun _ => Nat.le_refl _) Nat.le_trans ?_
  intro s t hstep
  cases hstep with
  | log => exact Nat.le_refl _
  | emit => exact Nat.le_refl _
  | openScope => simp [named]
  | meet scope v => simp [named]

/-- The constraints that were there stay in place, in front of those that come. -/
theorem constraints_prefix {a b : Session} (h : Evolves a b) :
    a.constraints.toList <+: b.constraints.toList := by
  refine h.keeps (R := fun s t => s.constraints.toList <+: t.constraints.toList)
    (fun _ => List.prefix_refl _) List.IsPrefix.trans ?_
  intro s t hstep
  cases hstep with
  | log => exact List.prefix_refl _
  | emit c => exact ⟨[c], by simp [emit]⟩
  | openScope => exact List.prefix_refl _
  | meet => exact List.prefix_refl _

end Evolves

/-- Logging an event is an evolution. -/
theorem evolves_log (session : Session) (event : Event) : Evolves session (session.log event) :=
  .of_smallStep (.log session event)

/-- Emitting an equality is an evolution. -/
theorem evolves_emitImplied (session : Session) (equality : Option (Term .bool))
    (guard : Term .bool) (stack : CallStack) :
    Evolves session (session.emitImplied equality guard stack) := by
  cases equality with
  | none => exact .refl session
  | some condition => exact .of_smallStep (.emit session _)

/-- Meeting variables in an open scope is an evolution. -/
theorem evolves_cover (session : Session) {scope : ScopeId}
    (h : scope < session.naming.scopes.size) (vs : List Var) :
    Evolves session (session.named (session.naming.cover scope vs)) := by
  induction vs generalizing session with
  | nil => exact .refl session
  | cons v rest ih =>
    have hmeet : Evolves session (session.named (session.naming.meet scope v)) :=
      .of_smallStep (.meet session scope v h)
    exact hmeet.trans (ih (session.named (session.naming.meet scope v)) (by simpa [named] using h))

/-- Renaming arguments in an open scope is an evolution. -/
theorem evolves_renameExprs (session : Session) {scope : ScopeId}
    (h : scope < session.naming.scopes.size) (es : List (Option Expr)) :
    Evolves session (session.named (session.naming.renameExprs scope es).2) := by
  rw [Naming.renameExprs_snd]
  exact evolves_cover session h _

/-- Binding a parameter in an open scope is an evolution. -/
theorem evolves_bindParameter (session : Session) {scope : ScopeId}
    (h : scope < session.naming.scopes.size) (guard : Term .bool) (stack : CallStack)
    (pair : Option Expr × Option Expr) :
    Evolves session (session.bindParameter scope guard stack pair) := by
  obtain ⟨formal, actual⟩ := pair
  cases formal with
  | none => exact .refl session
  | some formal =>
    cases actual with
    | none => exact .refl session
    | some actual =>
      exact (evolves_cover session h formal.occurrences).trans (evolves_emitImplied _ _ guard stack)

/-- Binding a result in an open scope is an evolution. -/
theorem evolves_bindValue (session : Session) {scope : ScopeId}
    (h : scope < session.naming.scopes.size) (guard : Term .bool) (stack : CallStack)
    (result : Option Var) (value : Option Expr) :
    Evolves session (session.bindValue scope guard stack result value) := by
  cases result with
  | none => exact .refl session
  | some result =>
    cases value with
    | none => exact .refl session
    | some value =>
      exact (evolves_cover session h [result]).trans (evolves_emitImplied _ _ guard stack)

/-- Once its scope is open, the rest of entering a function is an evolution. -/
theorem evolves_opened_bound (session : Session) (name : String) (summary : FunctionSummary)
    (args : List (Option Expr)) (stack : CallStack) (guard : Term .bool) :
    Evolves (session.named session.naming.openScope.2)
      (session.bound name summary args stack guard) := by
  have hscope : session.naming.scopes.size <
      (session.named session.naming.openScope.2).naming.scopes.size := by
    simp [named]
  refine Evolves.trans ?_ (evolves_log _ _)
  generalize session.named session.naming.openScope.2 = opened at hscope ⊢
  induction summary.parameters.zip args generalizing opened with
  | nil => exact .refl opened
  | cons pair rest ih =>
    have hpair := evolves_bindParameter opened hscope guard stack pair
    exact hpair.trans (ih _ (Nat.lt_of_lt_of_le hscope hpair.size_scopes_le))

/-- Entering a function is an evolution. -/
theorem evolves_bound (session : Session) (name : String) (summary : FunctionSummary)
    (args : List (Option Expr)) (stack : CallStack) (guard : Term .bool) :
    Evolves session (session.bound name summary args stack guard) := by
  have hopen : Evolves session (session.named session.naming.openScope.2) :=
    .of_smallStep (.openScope session)
  exact hopen.trans (evolves_opened_bound session name summary args stack guard)

/-- Entering a function opens a scope. -/
theorem size_scopes_lt_bound (session : Session) (name : String) (summary : FunctionSummary)
    (args : List (Option Expr)) (stack : CallStack) (guard : Term .bool) :
    session.naming.scopes.size <
      (session.bound name summary args stack guard).naming.scopes.size := by
  have hle := (evolves_opened_bound session name summary args stack guard).size_scopes_le
  simp only [named, Naming.size_scopes_openScope] at hle
  omega

/-- Returning a value from an open scope is an evolution. -/
theorem evolves_returnValue (session : Session) (frame : Frame)
    (h : frame.scope < session.naming.scopes.size) :
    Evolves session (session.returnValue frame).2 := by
  unfold returnValue
  split
  · exact .refl session
  · next result _ =>
    exact (evolves_cover session h result.occurrences).trans (evolves_log _ _)

section

variable {env : Environment} {active : List String}

/-- Expanding a frame is an evolution, if going through its constraints is. -/
theorem evolves_inlineFrame_of_body {session : Session} {frame : Frame}
    (h : frame.scope < session.naming.scopes.size)
    (hbody : Evolves session
      (session.inlineBody env active frame.scope frame.stack frame.guard frame.remaining).2) :
    Evolves session (session.inlineFrame env active frame).2 := by
  unfold inlineFrame
  split
  · next e after he =>
    rw [he] at hbody
    exact hbody.trans (evolves_log after .leave)
  · next after ho =>
    rw [ho] at hbody
    have hreturn := evolves_returnValue after frame (Nat.lt_of_lt_of_le h hbody.size_scopes_le)
    exact hbody.trans (hreturn.trans (evolves_log _ .leave))

/-- A call evolves a session when the constraints of the callee do. -/
theorem evolves_inlineCall_of_body {name : String}
    (hbody : ∀ summary, env.find? name = some summary → name ∉ active →
      ∀ (session : Session) (scope : ScopeId) (stack : CallStack) (guard : Term .bool),
        scope < session.naming.scopes.size → Evolves session
          (session.inlineBody env (name :: active) scope stack guard summary.constraints).2)
    (session : Session) (args : List (Option Expr)) (stack : CallStack) (guard : Term .bool) :
    Evolves session (session.inlineCall env active name args stack guard).2 := by
  cases hs : env.find? name with
  | none =>
    rw [inlineCall_of_unknown hs]
    exact evolves_log session _
  | some summary =>
    by_cases ha : name ∈ active
    · rw [inlineCall_of_active hs ha]
      exact evolves_log session _
    · by_cases hl : summary.parameters.length = args.length
      · rw [inlineCall_of_length_eq hs ha hl]
        have hscope := size_scopes_lt_bound session name summary args stack guard
        exact (evolves_bound session name summary args stack guard).trans
          (evolves_inlineFrame_of_body hscope (hbody summary hs ha _ _ stack guard hscope))
      · rw [inlineCall_of_length_ne hs ha hl]
        exact .refl session

/-- Going through constraints evolves the session, also when a mismatch cuts it off. -/
theorem evolves_inlineBody (active : List String) (constraints : List SummaryConstraint) :
    ∀ (session : Session) (scope : ScopeId) (stack : CallStack) (guard : Term .bool),
      scope < session.naming.scopes.size →
        Evolves session (session.inlineBody env active scope stack guard constraints).2 := by
  induction active, constraints using inlining_induction env with
  | nil active =>
    intro session scope stack guard _
    rw [inlineBody]
    exact .refl session
  | require active r rest ih =>
    intro session scope stack guard h
    rw [inlineBody]
    have hcondition := evolves_cover session h r.condition.occurrences
    have hassuming := hcondition.trans (evolves_cover _ (by simpa [named] using h)
      r.assuming.occurrences)
    have hemit := hassuming.trans (.of_smallStep (.emit _
      ⟨(session.naming.renameTerm scope r.condition).1, guard.conjoin
        ((session.naming.renameTerm scope r.condition).2.renameTerm scope r.assuming).1,
        r.origin, stack.push r.location⟩))
    exact hemit.trans (ih _ scope stack guard (Nat.lt_of_lt_of_le h hemit.size_scopes_le))
  | call active call rest ihbody ihrest =>
    intro session scope stack guard h
    rw [inlineBody]
    have hassuming := evolves_cover session h call.assuming.occurrences
    have hargs := hassuming.trans (evolves_renameExprs _ (by simpa [named] using h) call.args)
    -- the hypothesis on the callee holds in whatever session it is entered
    have hcall := hargs.trans (evolves_inlineCall_of_body ihbody _
      ((session.naming.renameTerm scope call.assuming).2.renameExprs scope call.args).1
      (stack.push call.location)
      (guard.conjoin (session.naming.renameTerm scope call.assuming).1))
    split
    · next e after he =>
      exact (congrArg (fun r => Evolves session r.2) he).mp hcall
    · next value after ho =>
      have hafter : Evolves session after := (congrArg (fun r => Evolves session r.2) ho).mp hcall
      have hscope := Nat.lt_of_lt_of_le h hafter.size_scopes_le
      have hvalue := hafter.trans (evolves_bindValue after hscope
        (guard.conjoin (session.naming.renameTerm scope call.assuming).1)
        (stack.push call.location) call.result value)
      exact hvalue.trans (ihrest _ scope stack guard
        (Nat.lt_of_lt_of_le h hvalue.size_scopes_le))

/-- Expanding a call evolves the session, also when a mismatch cuts it off. -/
theorem evolves_inlineCall (active : List String) (session : Session) (name : String)
    (args : List (Option Expr)) (stack : CallStack) (guard : Term .bool) :
    Evolves session (session.inlineCall env active name args stack guard).2 :=
  evolves_inlineCall_of_body (fun summary _ _ => evolves_inlineBody _ summary.constraints)
    session args stack guard

end

end Session

end SummaryInlining
