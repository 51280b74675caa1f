import Mathlib.Data.List.Chain
import Mathlib.Data.List.Nodup
import Mathlib.Data.List.Perm.Subperm
import SummaryInlining.Proofs.Worklist

/-!
# The form of the worklist, and its end

At every iteration the worklist is the active part of the call tree: a chain of pairwise distinct
functions with summaries, in which every expansion but the one at work waits for the call that led
to the expansion above it (`Worklist.WellFormed`). Three lemmas say how an iteration keeps it so:
the expansion at work goes on to its next constraint (`WellFormed.advance`), a callee is put on top
(`WellFormed.push`), or the expansion at work is taken off (`WellFormed.pop`).

A worklist of this form is at the same point as a machine (`Represents`), and they agree on every
step (`iterate_agrees`), so the two go side by side (`Agrees.iterate`). The machine stops, so the
loop ends, and it ends as the machine does. No error besides the wrong number of arguments of a call
is left (`worklist_is_wellFormed_and_ends`).
-/

set_option autoImplicit false

namespace SummaryInlining

/-- `caller` waits for `callee`, which it has called last: the constraint in front of its next one
is this call, and it has kept the result of the call, and when and where it takes place. -/
structure WaitsFor (naming : Naming) (callee caller : Expansion)
    (call : Call (Option SourceLocation)) : Prop where
  before_next : ∃ position, caller.next = position + 1 ∧
    caller.summary.constraints[position]? = some (.call call)
  callee_eq : call.callee = callee.name
  pending_eq : caller.pending = some ⟨call.result, callee.guard, callee.stack⟩
  /-- The assumption of the call is in the names that the caller has given. -/
  guard_eq : callee.guard =
    caller.guard.conjoin (call.assuming.rename (naming.numberOf caller.scope))
  stack_eq : callee.stack = caller.stack.push call.location
  knows : ∀ v ∈ call.assuming.occurrences, naming.Knows caller.scope v

/-- An expansion still waits when more names are handed out. -/
theorem WaitsFor.mono {before after : Naming} {callee caller : Expansion}
    {call : Call (Option SourceLocation)} (h : WaitsFor before callee caller call)
    (hg : Naming.Grows before after) : WaitsFor after callee caller call where
  before_next := h.before_next
  callee_eq := h.callee_eq
  pending_eq := h.pending_eq
  guard_eq := by
    have hrename : call.assuming.rename (after.numberOf caller.scope) =
        call.assuming.rename (before.numberOf caller.scope) :=
      Term.rename_congr fun v hv => (h.knows v hv).numberOf_eq hg
    rw [hrename]
    exact h.guard_eq
  stack_eq := h.stack_eq
  knows v hv := (h.knows v hv).mono hg

/-- The lower one of two expansions waits for the upper one. -/
def IsCalledBy (naming : Naming) (callee caller : Expansion) : Prop :=
  ∃ call, WaitsFor naming callee caller call

/-- What an expansion waits for is the name of the upper one, and when and where that is called. -/
theorem IsCalledBy.of_callee {naming : Naming} {callee callee' caller : Expansion}
    (h : IsCalledBy naming callee caller) (hname : callee'.name = callee.name)
    (hguard : callee'.guard = callee.guard) (hstack : callee'.stack = callee.stack) :
    IsCalledBy naming callee' caller := by
  obtain ⟨call, hw⟩ := h
  refine ⟨call, hw.before_next, hw.callee_eq.trans hname.symm, ?_, hguard.trans hw.guard_eq,
    hstack.trans hw.stack_eq, hw.knows⟩
  rw [hguard, hstack]
  exact hw.pending_eq

/-- An expansion of a function with a summary that is at one of its constraints, or behind the last
one, and renames in a scope that keeps sorts. -/
structure Expansion.Fits (env : Environment) (naming : Naming) (x : Expansion) : Prop where
  known : env.find? x.name = some x.summary
  next_le : x.next ≤ x.summary.constraints.length
  keepsSorts : naming.KeepsSorts x.scope

/-- An expansion still fits when more names are handed out. -/
theorem Expansion.Fits.mono {env : Environment} {before after : Naming} {x : Expansion}
    (h : x.Fits env before) (hg : Naming.Grows before after) : x.Fits env after :=
  ⟨h.known, h.next_le, h.keepsSorts.mono hg⟩

namespace Worklist

/-- The form of a worklist that began with a call while the functions `active` were being
expanded. -/
structure WellFormed (env : Environment) (active : List String) (w : Worklist) : Prop where
  nodup : w.names.Nodup
  not_mem : ∀ name ∈ w.names, name ∉ active
  active_eq : w.session.active = w.names ++ active
  fits : ∀ x ∈ w.expansions, x.Fits env w.session.naming
  top_pending : w.top.pending = none
  /-- Every expansion below the top waits for the one above it. -/
  waiting : w.expansions.IsChain (IsCalledBy w.session.naming)

variable {env : Environment} {active : List String} {session after : Session}
  {top callee caller : Expansion} {below rest : List Expansion}

/-- Functions that are pairwise distinct and have summaries are not more than there are
summaries. -/
theorem WellFormed.length_le {w : Worklist} (h : w.WellFormed env active) :
    w.expansions.length ≤ env.entries.length := by
  have hsubset : w.names ⊆ env.names := by
    intro name hname
    obtain ⟨x, hx, rfl⟩ := List.mem_map.mp hname
    exact List.mem_map.mpr ⟨_, (env.find?_eq_some_iff _ _).mp (h.fits x hx).known, rfl⟩
  have hle := (h.nodup.subperm hsubset).length_le
  rwa [names, List.length_map, Table.names, List.length_map] at hle

/-- Whatever is named while the worklist stays the same, its expansions wait as before. -/
theorem waiting_mono {xs : List Expansion} {before after : Naming}
    (h : xs.IsChain (IsCalledBy before)) (hg : Naming.Grows before after) :
    xs.IsChain (IsCalledBy after) :=
  h.imp fun _ _ hc => hc.imp fun _ hw => hw.mono hg

/-- The expansion at work goes on to its next constraint. -/
theorem WellFormed.advance (h : WellFormed env active ⟨session, top, below⟩)
    (hlt : top.next < top.summary.constraints.length)
    (hg : Naming.Grows session.naming after.naming) (ha : after.active = session.active) :
    WellFormed env active ⟨after, { top with next := top.next + 1 }, below⟩ := by
  obtain ⟨hnodup, hnot, hactive, hfits, htop, hwaiting⟩ := h
  obtain ⟨hfirst, hrest⟩ := List.forall_mem_cons.mp hfits
  refine ⟨hnodup, hnot, ha.trans hactive, ?_, htop, ?_⟩
  · exact List.forall_mem_cons.mpr ⟨⟨hfirst.known, hlt, hfirst.keepsSorts.mono hg⟩,
      fun x hx => (hrest x hx).mono hg⟩
  · exact (waiting_mono hwaiting hg).imp_head fun hc => hc.of_callee rfl rfl rfl

/-- A callee is put on top of the expansion that has called it. -/
theorem WellFormed.push (h : WellFormed env active ⟨session, top, below⟩)
    (hlt : top.next < top.summary.constraints.length)
    (hg : Naming.Grows session.naming after.naming)
    (ha : after.active = callee.name :: session.active)
    (hfits : callee.Fits env after.naming) (hnot : callee.name ∉ session.active)
    (hpending : callee.pending = none) {pending : Pending}
    (hcalled : IsCalledBy after.naming callee
      { top with next := top.next + 1, pending := some pending }) :
    WellFormed env active
      ⟨after, callee, { top with next := top.next + 1, pending := some pending } :: below⟩ := by
  have hactive : session.active = top.name :: below.map (·.name) ++ active := h.active_eq
  obtain ⟨hnew, hbase⟩ : callee.name ∉ top.name :: below.map (·.name) ∧ callee.name ∉ active := by
    rw [hactive, List.mem_append, not_or] at hnot
    exact hnot
  obtain ⟨hfirst, hrest⟩ := List.forall_mem_cons.mp h.fits
  refine ⟨List.nodup_cons.mpr ⟨hnew, h.nodup⟩, ?not_mem, ?active_eq, ?fits, hpending, ?waiting⟩
  case not_mem =>
    exact List.forall_mem_cons.mpr ⟨hbase, h.not_mem⟩
  case active_eq =>
    exact ha.trans (congrArg (List.cons callee.name) hactive)
  case fits =>
    exact List.forall_mem_cons.mpr ⟨hfits, List.forall_mem_cons.mpr
      ⟨⟨hfirst.known, hlt, hfirst.keepsSorts.mono hg⟩, fun x hx => (hrest x hx).mono hg⟩⟩
  case waiting =>
    refine List.isChain_cons_cons.mpr ⟨hcalled, ?_⟩
    exact (waiting_mono h.waiting hg).imp_head fun hc => hc.of_callee rfl rfl rfl

/-- The expansion at work is taken off, and the one below it does not wait any longer. -/
theorem WellFormed.pop (h : WellFormed env active ⟨session, top, caller :: rest⟩)
    (hg : Naming.Grows session.naming after.naming)
    (ha : after.active = session.active.filter (· ≠ top.name)) :
    WellFormed env active ⟨after, { caller with pending := none }, rest⟩ := by
  have hactive : session.active = top.name :: (caller.name :: rest.map (·.name) ++ active) :=
    h.active_eq
  obtain ⟨htop, hnodup⟩ := List.nodup_cons.mp h.nodup
  obtain ⟨hbase, hnot⟩ := List.forall_mem_cons.mp h.not_mem
  obtain ⟨-, hfits⟩ := List.forall_mem_cons.mp h.fits
  obtain ⟨hfirst, hrest⟩ := List.forall_mem_cons.mp hfits
  -- so taking out the name of the top takes out nothing else
  have hleft : top.name ∉ caller.name :: rest.map (·.name) ++ active :=
    fun hm => (List.mem_append.mp hm).elim htop hbase
  refine ⟨hnodup, hnot, ?active_eq, ?fits, rfl, ?waiting⟩
  case active_eq =>
    rw [ha, hactive, Machine.filter_ne_cons hleft]
    rfl
  case fits =>
    exact List.forall_mem_cons.mpr
      ⟨⟨hfirst.known, hfirst.next_le, hfirst.keepsSorts.mono hg⟩, fun x hx => (hrest x hx).mono hg⟩
  case waiting =>
    exact (waiting_mono h.waiting.tail hg).imp_head fun hc => hc.of_callee rfl rfl rfl

/-- An expansion below the top and a frame that waits, with the same call. -/
structure Keeps (x : Expansion) (waiting : Waiting) : Prop where
  frame_eq : waiting.frame = x.frame
  pending_eq : x.pending = some ⟨waiting.call.result, waiting.guard, waiting.stack⟩

/-- A worklist and a machine at the same point of an expansion. -/
structure Represents (w : Worklist) (m : Machine) : Prop where
  session_eq : m.session = w.session
  top_eq : m.top = w.top.frame
  callers : List.Forall₂ Keeps w.below m.callers

/-- The result of the machine among the results of the loop. -/
def checked {α : Type} (result : Except ArityMismatch α × Session) : Checked α :=
  (result.1.mapError .arity, result.2)

/-- The machine fails with arity mismatches only. -/
theorem exists_mismatch_of_eq_checked {α : Type} {result : Except ArityMismatch α × Session}
    {e : InternalError} {after : Session} (h : (.error e, after) = checked result) :
    ∃ mismatch, result.1 = .error mismatch ∧ e = .arity mismatch := by
  obtain ⟨mismatch | value, other⟩ := result
  · cases h
    exact ⟨mismatch, rfl, rfl⟩
  · cases h

/-- An iteration of the loop and a step of the machine that lead to the same point. -/
inductive Agrees (env : Environment) (active : List String) : Loop → Progress → Prop where
  | running {w : Worklist} {m : Machine} (hw : w.WellFormed env active) (hm : w.Represents m) :
    Agrees env active (.running w) (.running m)
  | ended (result : Expanded) : Agrees env active (.ended (checked result)) (.ended result)

end Worklist

/-- A waiting frame binds the value to the result of its call, in its scope. -/
theorem Session.bindResult_eq_bindValue (session : Session) (caller : Waiting)
    (value : Option Expr) :
    session.bindResult caller value = session.bindValue caller.frame.scope caller.guard
      caller.stack caller.call.result value := by
  unfold bindResult bindValue
  cases value <;> cases caller.call.result <;> rfl

/-- A position in front of the end splits what is left there. -/
theorem Expansion.remaining_of_some {x : Expansion} {c : SummaryConstraint}
    (h : x.summary.constraints[x.next]? = some c) :
    x.frame.remaining = c :: (Expansion.frame { x with next := x.next + 1 }).remaining := by
  obtain ⟨hlt, hget⟩ := List.getElem?_eq_some_iff.mp h
  rw [← hget]
  exact List.drop_eq_getElem_cons hlt

namespace Worklist

variable {env : Environment} {active : List String} {session : Session} {top : Expansion}
  {below : List Expansion} {callers : List Waiting}

/-- When the expansion at work is done, an iteration ends it as a step of the machine does. -/
theorem iterate_agrees_of_done (h : WellFormed env active ⟨session, top, below⟩)
    (hcallers : List.Forall₂ Keeps below callers)
    (hnone : top.summary.constraints[top.next]? = none) :
    Agrees env active (iterate env ⟨session, top, below⟩)
      (Machine.step env ⟨session, top.frame, callers⟩) := by
  have hsorts := (h.fits top List.mem_cons_self).keepsSorts
  have hreturn := Inlining.outcomeIn_returnValue session hsorts
  have hevolves := Session.evolves_returnValue session top.frame hsorts.opened
  have hgrows := hevolves.grows
  have hactive := hevolves.active_eq
  have hremaining : top.frame.remaining = [] :=
    List.drop_eq_nil_of_le (List.getElem?_eq_none_iff.mp hnone)
  simp only [iterate, hnone, hreturn, Checked.andThen, Machine.step, hremaining, Machine.finish]
  generalize session.returnValue top.frame = returned at hgrows hactive ⊢
  cases hcallers with
  | nil => exact .ended (.ok returned.1, returned.2.leave top.name)
  | @cons caller waiting rest waitings hcaller hrest =>
    have hcallerSorts := (h.fits caller (by simp [expansions])).keepsSorts.mono hgrows
    have hbind := Inlining.outcomeIn_bindResult (returned.2.leave top.name) hcallerSorts
      hcaller.pending_eq returned.1
    have hbound := Session.evolves_bindValue (returned.2.leave top.name) hcallerSorts.opened
      waiting.guard waiting.stack waiting.call.result returned.1
    simp only [hbind]
    refine .running (h.pop (hgrows.trans hbound.grows) ?_) ⟨?_, hcaller.frame_eq, hrest⟩
    · rw [hbound.active_eq, Session.active_leave, hactive]
    · rw [Session.bindResult_eq_bindValue, hcaller.frame_eq]
      rfl

/-- At a requirement, an iteration and a step of the machine instantiate the same requirement. -/
theorem iterate_agrees_of_require (h : WellFormed env active ⟨session, top, below⟩)
    (hcallers : List.Forall₂ Keeps below callers) {r : Requirement (Option SourceLocation)}
    (hr : top.summary.constraints[top.next]? = some (.require r)) :
    Agrees env active (iterate env ⟨session, top, below⟩)
      (Machine.step env ⟨session, top.frame, callers⟩) := by
  obtain ⟨hlt, -⟩ := List.getElem?_eq_some_iff.mp hr
  have hsorts := (h.fits top List.mem_cons_self).keepsSorts
  have hrequire := Inlining.outcomeIn_instantiateRequirement session hsorts r
  have hremaining := Expansion.remaining_of_some hr
  have hcondition := Naming.grows_cover hsorts.opened r.condition.occurrences
  have hassuming := Naming.grows_cover (hsorts.mono hcondition).opened r.assuming.occurrences
  simp only [iterate, hr, hrequire, Checked.andThen, Machine.step, hremaining]
  exact .running (h.advance hlt (hcondition.trans hassuming) rfl) ⟨rfl, rfl, hcallers⟩

/-- The expansions below the top and the frames that wait have the same names. -/
theorem names_eq_of_keeps (h : List.Forall₂ Keeps below callers) :
    callers.map (·.frame.name) = below.map (·.name) := by
  induction h with
  | nil => rfl
  | cons hkeeps _ ih => exact congrArg₂ List.cons (congrArg Frame.name hkeeps.frame_eq) ih

/-- Renaming the assumption of a call names its variables, and nothing that is named later changes
what it is renamed to. -/
theorem renamed_assuming {naming : Naming} {scope : ScopeId} (h : naming.KeepsSorts scope)
    (call : Call (Option SourceLocation)) :
    let assuming := naming.renameTerm scope call.assuming
    Naming.Grows naming assuming.2 ∧
      Naming.Grows assuming.2 (assuming.2.renameExprs scope call.args).2 ∧
      (∀ v ∈ call.assuming.occurrences, assuming.2.Knows scope v) ∧
      ∀ later, Naming.Grows assuming.2 later →
        assuming.1 = call.assuming.rename (later.numberOf scope) := by
  intro assuming
  have hassuming : Naming.Grows naming assuming.2 := Naming.grows_cover h.opened _
  refine ⟨hassuming, ?_, fun v hv => Naming.knows_cover h.opened hv,
    fun later hg => Naming.renameTerm_fst_of_grows h.opened call.assuming hg⟩
  rw [Naming.renameExprs_snd]
  exact Naming.grows_cover (h.mono hassuming).opened _

/-- At a call, an iteration and a step of the machine enter the same function, skip the same call or
fail with the same mismatch. -/
theorem iterate_agrees_of_call (h : WellFormed env active ⟨session, top, below⟩)
    (hcallers : List.Forall₂ Keeps below callers) {call : Call (Option SourceLocation)}
    (hc : top.summary.constraints[top.next]? = some (.call call)) :
    Agrees env active (iterate env ⟨session, top, below⟩)
      (Machine.step env ⟨session, top.frame, callers⟩) := by
  obtain ⟨hlt, -⟩ := List.getElem?_eq_some_iff.mp hc
  have hsorts := (h.fits top List.mem_cons_self).keepsSorts
  have hmake := Inlining.outcomeIn_makeCall session hsorts env call
  have hremaining := Expansion.remaining_of_some hc
  obtain ⟨hassuming, hargs, hknows, hterm⟩ := renamed_assuming hsorts call
  simp only [iterate, hc, hmake, Machine.step, hremaining, Machine.stepCall, Expansion.scope_frame,
    Expansion.stack_frame, Expansion.guard_frame]
  generalize session.naming.renameTerm top.scope call.assuming = assuming
    at hassuming hargs hknows hterm ⊢
  generalize assuming.2.renameExprs top.scope call.args = args at hargs ⊢
  have hgrows : Naming.Grows session.naming args.2 := hassuming.trans hargs
  rcases Inlining.enter_cases env (session.named args.2) call.callee args.1
      (CallStack.push call.location top.stack) (top.guard.conjoin assuming.1) with
    ⟨e, hstep, hiter⟩ | ⟨event, hstep, hiter⟩ | ⟨callee, hs, hn, hstep, hiter⟩
  · have hnames : Machine.names ⟨session, top.frame, callers⟩ = top.name :: below.map (·.name) :=
      congrArg (List.cons top.name) (names_eq_of_keeps hcallers)
    simp only [hstep, outcomeIn_bind, hiter, Checked.andThen, hnames]
    exact .ended (.error e, _)
  · simp only [hstep, outcomeIn_bind, hiter, Checked.andThen, outcomeIn_pure, Option.map_none]
    exact .running (h.advance hlt hgrows rfl) ⟨rfl, rfl, hcallers⟩
  · simp only [hstep, outcomeIn_bind, hiter, Checked.andThen, outcomeIn_pure, Option.map_some]
    -- the callee goes on top, and the expansion that was at work waits for it
    let inner : Expansion := ⟨call.callee, callee, args.2.scopes.size,
      CallStack.push call.location top.stack, top.guard.conjoin assuming.1, 0, none⟩
    let entered := ((session.named args.2).bound call.callee callee args.1 inner.stack
      inner.guard).activate call.callee
    have hbound := Session.evolves_bound (session.named args.2) call.callee callee args.1
      inner.stack inner.guard
    have hopened := Session.evolves_opened_bound (session.named args.2) call.callee callee args.1
      inner.stack inner.guard
    have hlater : Naming.Grows assuming.2 entered.naming := hargs.trans hbound.grows
    have hactive : entered.active = inner.name :: session.active :=
      congrArg (List.cons call.callee) hbound.active_eq
    have hfits : inner.Fits env entered.naming :=
      ⟨hs, Nat.zero_le _, args.2.keepsSorts_openScope.mono hopened.grows⟩
    have hcalled : IsCalledBy entered.naming inner { top with
        next := top.next + 1, pending := some ⟨call.result, inner.guard, inner.stack⟩ } :=
      ⟨call, ⟨top.next, rfl, hc⟩, rfl, rfl, congrArg top.guard.conjoin (hterm _ hlater), rfl,
        fun v hv => (hknows v hv).mono hlater⟩
    exact .running (h.push hlt (hassuming.trans hlater) hactive hfits hn rfl hcalled)
      ⟨rfl, rfl, .cons ⟨rfl, rfl⟩ hcallers⟩

/-- An iteration of the loop and a step of the machine lead to the same point. -/
theorem iterate_agrees {w : Worklist} {m : Machine} (h : w.WellFormed env active)
    (hm : w.Represents m) : Agrees env active (w.iterate env) (m.step env) := by
  obtain ⟨session, top, below⟩ := w
  obtain ⟨other, frame, callers⟩ := m
  obtain ⟨hsession, htop, hcallers⟩ := hm
  obtain rfl : other = session := hsession
  obtain rfl : frame = top.frame := htop
  cases hc : top.summary.constraints[top.next]? with
  | none => exact iterate_agrees_of_done h hcallers hc
  | some c =>
    cases c with
    | require r => exact iterate_agrees_of_require h hcallers hc
    | call call => exact iterate_agrees_of_call h hcallers hc

end Worklist

/-! ## The loop and the machine side by side -/

namespace Progress

def next (env : Environment) : Progress → Progress
  | running m => m.step env
  | ended result => ended result

/-- The machine before its first step. It has ended already when the call is not expanded. -/
def start (env : Environment) (session : Session) (name : String) (args : List (Option Expr))
    (stack : CallStack) (guard : Term .bool) : Progress :=
  match session.enter env name args stack guard with
  | .refused e => ended (.error e, session)
  | .skipped after => ended (.ok none, after)
  | .entered frame after => running ⟨after, frame, []⟩

/-- The machine stops, with what running it answers. -/
theorem exists_ended_run (env : Environment) (m : Machine) :
    ∃ n, (next env)^[n] (running m) = ended (m.run env) := by
  -- along the recursion of `Machine.run`, which takes one step at a time
  induction m using Machine.run.induct env with
  | case1 m after hstep _ ih =>
    obtain ⟨n, hn⟩ := ih
    rw [Machine.run_of_running hstep]
    refine ⟨n + 1, ?_⟩
    rw [Function.iterate_succ_apply, next, hstep, hn]
  | case2 m result hstep =>
    rw [Machine.run_of_ended hstep]
    exact ⟨1, hstep⟩

/-- The steps of an application come to the end that the application answers. -/
theorem exists_ended_apply (env : Environment) (session : Session) (name : String)
    (args : List (Option Expr)) (stack : CallStack) (guard : Term .bool) :
    ∃ n, (next env)^[n] (start env session name args stack guard) =
      ended (session.apply env name args stack guard) := by
  unfold start Session.apply
  cases session.enter env name args stack guard with
  | refused e => exact ⟨0, rfl⟩
  | skipped after => exact ⟨0, rfl⟩
  | entered frame after => exact exists_ended_run env _

end Progress

namespace Worklist

variable {env : Environment} {active : List String} {loop : Loop} {progress : Progress}

/-- Going on by one keeps loop and machine at the same point. -/
theorem Agrees.next (h : Agrees env active loop progress) :
    Agrees env active (loop.next env) (progress.next env) := by
  cases h with
  | running hw hm => exact iterate_agrees hw hm
  | ended result => exact .ended result

/-- Going on any number of times keeps loop and machine at the same point. -/
theorem Agrees.iterate (h : Agrees env active loop progress) (n : Nat) :
    Agrees env active ((Loop.next env)^[n] loop) ((Progress.next env)^[n] progress) := by
  induction n with
  | zero => exact h
  | succ n ih =>
    rw [Function.iterate_succ_apply', Function.iterate_succ_apply']
    exact ih.next

/-- A call starts a worklist and a machine at the same point. -/
theorem start_agrees (env : Environment) (session : Session) (name : String)
    (args : List (Option Expr)) (stack : CallStack) (guard : Term .bool) :
    Agrees env session.active (Loop.start env session name args stack guard)
      (Progress.start env session name args stack guard) := by
  unfold Loop.start Progress.start
  rcases Inlining.enter_cases env session name args stack guard with
    ⟨e, hstep, hiter⟩ | ⟨event, hstep, hiter⟩ | ⟨summary, hs, hn, hstep, hiter⟩
  · simp only [hstep, hiter]
    exact .ended (.error e, session)
  · simp only [hstep, hiter]
    exact .ended (.ok none, _)
  · simp only [hstep, hiter]
    have hbound := Session.evolves_bound session name summary args stack guard
    have hopened := Session.evolves_opened_bound session name summary args stack guard
    refine .running ⟨List.nodup_singleton name, List.forall_mem_singleton.mpr hn, ?_,
      List.forall_mem_singleton.mpr ⟨hs, Nat.zero_le _, ?_⟩, rfl, .singleton _⟩ ⟨rfl, rfl, .nil⟩
    · exact congrArg (List.cons name) hbound.active_eq
    · exact session.naming.keepsSorts_openScope.mono hopened.grows

end Worklist

namespace Loop

variable {env : Environment}

/-- The loop ends, and as `Session.apply` does. -/
theorem endsWith_apply (env : Environment) (session : Session) (name : String)
    (args : List (Option Expr)) (stack : CallStack) (guard : Term .bool) :
    (start env session name args stack guard).EndsWith env
      (Worklist.checked (session.apply env name args stack guard)) := by
  obtain ⟨n, hn⟩ := Progress.exists_ended_apply env session name args stack guard
  have hagrees := (Worklist.start_agrees env session name args stack guard).iterate n
  rw [hn] at hagrees
  refine ⟨n, ?_⟩
  generalize (next env)^[n] (start env session name args stack guard) = loop at hagrees ⊢
  cases hagrees
  rfl

/-- A loop that has ended stays as it is. -/
theorem next_ended (n : Nat) (result : Checked (Option Expr)) :
    (next env)^[n] (ended result) = ended result :=
  Function.iterate_fixed rfl n

/-- The loop ends in one way only. -/
theorem EndsWith.unique {loop : Loop} {result other : Checked (Option Expr)}
    (h : loop.EndsWith env result) (h' : loop.EndsWith env other) : result = other := by
  obtain ⟨n, hn⟩ := h
  obtain ⟨k, hk⟩ := h'
  have hboth : ended result = ended other := by
    rw [← next_ended k result, ← hn, ← Function.iterate_add_apply, Nat.add_comm,
      Function.iterate_add_apply, hk, next_ended]
  cases hboth
  rfl

end Loop

/-- Whatever the environment and the call, and whatever functions are being expanded around it: at
every iteration the worklist is well-formed, has no more expansions than there are summaries, and is
at the same point as the machine after as many steps; the loop ends; it ends with the value or the
mismatch that `Session.apply` answers, and in the session that it leaves behind; and no other error
is possible. -/
theorem worklist_is_wellFormed_and_ends (env : Environment) (session : Session) (name : String)
    (args : List (Option Expr)) (stack : CallStack) (guard : Term .bool) :
    let start := Loop.start env session name args stack guard
    (∀ n w, (Loop.next env)^[n] start = .running w →
      w.WellFormed env session.active ∧ w.expansions.length ≤ env.entries.length ∧
        ∃ m, (Progress.next env)^[n] (.start env session name args stack guard) = .running m ∧
          w.Represents m) ∧
    start.EndsWith env (Worklist.checked (session.apply env name args stack guard)) ∧
    ∀ e after, start.EndsWith env (.error e, after) → ∃ mismatch, e = .arity mismatch := by
  intro start
  have hends := Loop.endsWith_apply env session name args stack guard
  refine ⟨fun n w hw => ?_, hends, fun e after he => ?_⟩
  · have hagrees := (Worklist.start_agrees env session name args stack guard).iterate n
    rw [hw] at hagrees
    generalize (Progress.next env)^[n] (.start env session name args stack guard) = progress
      at hagrees ⊢
    cases hagrees with
    | running hform hm => exact ⟨hform, hform.length_le, _, rfl, hm⟩
  · obtain ⟨mismatch, -, he⟩ := Worklist.exists_mismatch_of_eq_checked (he.unique hends)
    exact ⟨mismatch, he⟩

end SummaryInlining
