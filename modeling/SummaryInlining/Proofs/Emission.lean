import SummaryInlining.Proofs.MachineRefinement
import SummaryInlining.Proofs.Sources

/-!
# What the steps of an expansion emit

Going through a visit of the walk through a call tree emits the constraints of the sources at this
visit, in their order, and opens a scope if a function is entered (`Follows`). Each piece of an
expansion has a lemma of its own: binding the parameters (`follows_bound`), instantiating
a requirement (`follows_require`), and binding a result (`follows_leave`). They compose because the
constraint of a source stays the same once the variables that it reads have their names.
-/

set_option autoImplicit false

namespace SummaryInlining

open Visit (entered)

/-- The second session comes out of the first one by emitting the constraints of these sources. The
names that they read are given. -/
structure Emits (site : CallSite) (sources : List Source) (before after : Session) : Prop where
  grows : Naming.Grows before.naming after.naming
  covers : ∀ source ∈ sources, Covers site after.naming source.reads
  constraints_eq : after.constraints.toList =
    before.constraints.toList ++ sources.map (Source.constraint site after.naming)

/-- The second session comes out of the first one by going through these visits: what they come by
has been emitted, and a scope has been opened for every function that is entered. -/
structure Follows (site : CallSite) (visits : List Visit) (before after : Session) : Prop
    extends Emits site (visits.flatMap (Visit.sources site)) before after where
  size_eq : after.naming.scopes.size = before.naming.scopes.size + (entered visits).length

namespace Emits

variable {site : CallSite} {sources others : List Source} {a b c : Session}

/-- Names that are handed out emit no source. -/
theorem of_grows (hg : Naming.Grows a.naming b.naming) (hc : b.constraints = a.constraints) :
    Emits site [] a b where
  grows := hg
  covers _ hs := absurd hs List.not_mem_nil
  constraints_eq := by rw [hc, List.map_nil, List.append_nil]

/-- Doing nothing emits no source. -/
theorem refl (session : Session) : Emits site [] session session := .of_grows (.refl _) rfl

/-- What is emitted in two stretches is emitted in order. -/
theorem append (hab : Emits site sources a b) (hbc : Emits site others b c) :
    Emits site (sources ++ others) a c where
  grows := hab.grows.trans hbc.grows
  covers source hs := by
    rcases List.mem_append.mp hs with hs | hs
    · exact (hab.covers source hs).mono hbc.grows
    · exact hbc.covers source hs
  constraints_eq := by
    have hstable : sources.map (Source.constraint site c.naming) =
        sources.map (Source.constraint site b.naming) :=
      List.map_congr_left fun source hs => constraint_of_grows (hab.covers source hs) hbc.grows
    rw [hbc.constraints_eq, hab.constraints_eq, List.map_append, hstable, List.append_assoc]

/-- Naming variables before does not change what is emitted. -/
theorem of_grows_left (hg : Naming.Grows a.naming b.naming) (hc : b.constraints = a.constraints)
    (h : Emits site sources b c) : Emits site sources a c :=
  (of_grows hg hc).append h

/-- Emitting the constraint of a source emits this source, if all that it reads has a name. -/
theorem emit {source : Source} {session : Session} {c : InstantiatedConstraint}
    (hcovers : Covers site session.naming source.reads)
    (hc : source.constraint site session.naming = c) :
    Emits site [source] session (session.emit c) where
  grows := .refl _
  covers other ho := by
    rw [List.mem_singleton.mp ho]
    exact hcovers
  constraints_eq := by
    rw [List.map_cons, List.map_nil, ← hc]
    exact Array.toList_push

end Emits

namespace Follows

variable {site : CallSite} {visits others : List Visit} {a b c : Session}

/-- Names that are handed out in open scopes come by nothing. -/
theorem of_grows (hg : Naming.Grows a.naming b.naming) (hc : b.constraints = a.constraints)
    (hsize : b.naming.scopes.size = a.naming.scopes.size) : Follows site [] a b :=
  ⟨.of_grows hg hc, hsize⟩

/-- What is gone through in two stretches is gone through in order. -/
theorem append (hab : Follows site visits a b) (hbc : Follows site others b c) :
    Follows site (visits ++ others) a c := by
  refine ⟨?_, ?_⟩
  · rw [List.flatMap_append]
    exact hab.toEmits.append hbc.toEmits
  · rw [hbc.size_eq, hab.size_eq, CallPath.entered_append, List.length_append, Nat.add_assoc]

/-- Names may be handed out before some visits are gone through. -/
theorem of_grows_left (hg : Naming.Grows a.naming b.naming) (hc : b.constraints = a.constraints)
    (hsize : b.naming.scopes.size = a.naming.scopes.size) (h : Follows site visits b c) :
    Follows site visits a c :=
  (of_grows hg hc hsize).append h

/-- An event may be logged after some visits were gone through. -/
theorem log (h : Follows site visits a b) (event : Event) : Follows site visits a (b.log event) :=
  ⟨⟨h.grows, h.covers, h.constraints_eq⟩, h.size_eq⟩

end Follows

/-! ## The steps of an expansion -/

namespace Session

/-- Emitting an equality opens no scope. -/
@[simp] theorem size_scopes_emitImplied (session : Session) (equality : Option (Term .bool))
    (guard : Term .bool) (stack : CallStack) :
    (session.emitImplied equality guard stack).naming.scopes.size =
      session.naming.scopes.size := by
  cases equality <;> rfl

/-- Binding a parameter opens no scope. -/
theorem size_scopes_bindParameter (session : Session) (scope : ScopeId) (guard : Term .bool)
    (stack : CallStack) (pair : Option Expr × Option Expr) :
    (session.bindParameter scope guard stack pair).naming.scopes.size =
      session.naming.scopes.size := by
  obtain ⟨formal, actual⟩ := pair
  cases formal with
  | none => rfl
  | some formal =>
    cases actual with
    | none => rfl
    | some actual =>
      simp [bindParameter, named, Naming.renameExpr, Naming.renameTerm]

/-- Binding a result opens no scope. -/
theorem size_scopes_bindValue (session : Session) (scope : ScopeId) (guard : Term .bool)
    (stack : CallStack) (result : Option Var) (value : Option Expr) :
    (session.bindValue scope guard stack result value).naming.scopes.size =
      session.naming.scopes.size := by
  cases result with
  | none => rfl
  | some captured =>
    cases value with
    | none => rfl
    | some value => simp [bindValue, named, Naming.renameVar]

/-- Entering a function opens one scope. -/
theorem size_scopes_bound (session : Session) (name : String) (summary : FunctionSummary)
    (args : List (Option Expr)) (stack : CallStack) (guard : Term .bool) :
    (session.bound name summary args stack guard).naming.scopes.size =
      session.naming.scopes.size + 1 := by
  have hfold : ∀ (pairs : List (Option Expr × Option Expr)) (opened : Session),
      (pairs.foldl (bindParameter session.naming.scopes.size guard stack)
        opened).naming.scopes.size = opened.naming.scopes.size := by
    intro pairs
    induction pairs with
    | nil => exact fun _ => rfl
    | cons pair rest ih => exact fun opened => (ih _).trans (size_scopes_bindParameter ..)
  exact (hfold _ _).trans (Naming.size_scopes_openScope session.naming)

end Session

section

variable {site : CallSite} {p : CallPath} {names : Naming}

/-- Binding a parameter emits the constraint of its source, if it has one. The argument and the
guard are in names that were given before. -/
theorem emits_bindParameter {session : Session}
    (hscope : p.scopeAt site < session.naming.scopes.size)
    (hg : Naming.Grows names session.naming) (hp : Covers site names p.reads)
    {pair : Option Expr × Option Expr} (hpair : pair.2 ∈ p.givenArgs site) (position : Nat) :
    Emits site (p.parameterSource? (pair, position)).toList session
      (session.bindParameter (p.scopeAt site) (p.guard site names) (p.stack site)
        (pair.1, pair.2.map (p.passed site names))) := by
  obtain ⟨formal, actual⟩ := pair
  cases formal with
  | none => exact .refl session
  | some formal =>
    cases actual with
    | none => exact .refl session
    | some actual =>
      have hactual := covers_callerReads hp hpair
      obtain ⟨s, left⟩ := formal
      obtain ⟨t, right⟩ := actual
      have hgrows := Naming.grows_cover hscope left.occurrences
      -- the formal is renamed in any case, but it is equated to an argument of its sort only
      by_cases hst : s = t
      · subst hst
        have hsource : p.parameterSource? ((some ⟨s, left⟩, some ⟨s, right⟩), position) =
            some (.parameter p position s left right) :=
          CallPath.parameterSource?_eq_some_iff.mpr ⟨s, left, right, rfl, rfl⟩
        have hbind := Expr.equate?_mk (session.naming.renameTerm (p.scopeAt site) left).1
          (p.fromCaller site names right)
        have hleft := Naming.renameTerm_fst_of_grows hscope left (.refl _)
        simp only [Session.bindParameter, Option.map_some, Naming.renameExpr, CallPath.passed,
          hbind, hsource, Session.emitImplied, Option.toList_some]
        refine .of_grows_left (b := session.named (session.naming.cover _ left.occurrences))
          hgrows rfl (.emit ?_ ?_)
        · have hformal : Covers site (session.naming.cover (p.scopeAt site) left.occurrences)
              (left.occurrences.map (p, ·)) :=
            covers_map.mpr fun v hv => Naming.knows_cover hscope hv
          exact covers_append.mpr ⟨covers_append.mpr ⟨hp.mono (hg.trans hgrows), hformal⟩,
            hactual.mono (hg.trans hgrows)⟩
        · have hguard := guard_of_grows hp (hg.trans hgrows)
          have hright := fromCaller_of_grows hactual (hg.trans hgrows)
          rw [Source.constraint, Session.named, hguard, hright, hleft]
          rfl
      · have hsource := p.parameterSource?_of_ne position
          (show (⟨s, left⟩ : Expr).sort ≠ (⟨t, right⟩ : Expr).sort from hst)
        have hbind := Expr.equate?_of_ne
          (l := ⟨s, (session.naming.renameTerm (p.scopeAt site) left).1⟩)
          (r := ⟨t, p.fromCaller site names right⟩) hst
        simp only [Session.bindParameter, Option.map_some, Naming.renameExpr, CallPath.passed,
          hbind, hsource, Session.emitImplied, Option.toList_none]
        exact .of_grows hgrows rfl

/-- Binding the parameters of a function emits the sources of those that have an argument, in order.
-/
theorem emits_foldl_bindParameter (session : Session)
    (hscope : p.scopeAt site < session.naming.scopes.size)
    (hg : Naming.Grows names session.naming) (hp : Covers site names p.reads)
    {pairs : List (Option Expr × Option Expr)} (hpairs : ∀ pair ∈ pairs, pair.2 ∈ p.givenArgs site)
    (position : Nat) :
    Emits site ((pairs.zipIdx position).filterMap p.parameterSource?) session
      ((pairs.map (Prod.map id (Option.map (p.passed site names)))).foldl
        (Session.bindParameter (p.scopeAt site) (p.guard site names) (p.stack site)) session) := by
  induction pairs generalizing session position with
  | nil => exact .refl session
  | cons pair rest ih =>
    obtain ⟨hpair, hrest⟩ := List.forall_mem_cons.mp hpairs
    have hfirst := emits_bindParameter hscope hg hp hpair position
    have hsize := Session.size_scopes_bindParameter session (p.scopeAt site) (p.guard site names)
      (p.stack site) (pair.1, pair.2.map (p.passed site names))
    have hothers := ih _ (hsize ▸ hscope) (hg.trans hfirst.grows) hrest (position + 1)
    rw [List.zipIdx_cons, List.filterMap_cons]
    refine (congrArg (Emits site · session _) ?_).mp (hfirst.append hothers)
    cases p.parameterSource? (pair, position) <;> rfl

/-- Entering a function goes through the visit that enters it. -/
theorem follows_bound {session : Session} (hp : Covers site session.naming p.reads)
    (hscope : session.naming.scopes.size = p.scopeAt site) :
    Follows site [.enter p] session
      (session.bound p.name p.summary (p.args site session.naming) (p.stack site)
        (p.guard site session.naming)) := by
  have hopen := Naming.grows_openScope session.naming
  have hpairs : ∀ pair ∈ p.summary.parameters.zip (p.givenArgs site),
      pair.2 ∈ p.givenArgs site := fun pair hpair => (List.of_mem_zip hpair).2
  have hlt : p.scopeAt site < session.naming.openScope.2.scopes.size := by
    rw [Naming.size_scopes_openScope, hscope]
    exact Nat.lt_succ_self _
  have hbind := emits_foldl_bindParameter (session.named session.naming.openScope.2) hlt hopen hp
    hpairs 0
  have hall := Emits.of_grows_left (a := session) (b := session.named session.naming.openScope.2)
    hopen rfl hbind
  rw [← List.zip_map_right, ← hscope] at hall
  refine ⟨?_, Session.size_scopes_bound ..⟩
  rw [List.flatMap_cons, List.flatMap_nil, List.append_nil]
  exact ⟨hall.grows, hall.covers, hall.constraints_eq⟩

/-- Instantiating a requirement goes through its visit. -/
theorem follows_require {session : Session} (hp : Covers site session.naming p.reads)
    (hscope : p.scopeAt site < session.naming.scopes.size) (position : Nat)
    (r : Requirement (Option SourceLocation)) :
    let condition := session.naming.renameTerm (p.scopeAt site) r.condition
    let assuming := condition.2.renameTerm (p.scopeAt site) r.assuming
    Follows site [.require p position r] session
      ((session.named assuming.2).emit
        ⟨condition.1, (p.guard site session.naming).conjoin assuming.1, r.origin,
          (p.stack site).push r.location⟩) := by
  intro condition assuming
  have hcondition : Naming.Grows session.naming condition.2 := Naming.grows_cover hscope _
  have hscope' : p.scopeAt site < condition.2.scopes.size :=
    Nat.lt_of_lt_of_le hscope hcondition.scopes_le
  have hassuming : Naming.Grows condition.2 assuming.2 := Naming.grows_cover hscope' _
  have hsize : assuming.2.scopes.size = session.naming.scopes.size :=
    (Naming.size_scopes_cover ..).trans (Naming.size_scopes_cover ..)
  refine ⟨.of_grows_left (b := session.named assuming.2) (hcondition.trans hassuming) rfl
    (.emit ?_ ?_), hsize⟩
  · rw [Source.reads, List.map_append]
    refine covers_append.mpr ⟨hp.mono (hcondition.trans hassuming), covers_append.mpr ⟨?_, ?_⟩⟩
    · exact covers_map.mpr fun v hv => (Naming.knows_cover hscope hv).mono hassuming
    · exact covers_map.mpr fun v hv => Naming.knows_cover hscope' hv
  · have hguard := guard_of_grows hp (hcondition.trans hassuming)
    have hleft : condition.1 = r.condition.rename (p.number site assuming.2) :=
      Naming.renameTerm_fst_of_grows hscope r.condition hassuming
    have hright : assuming.1 = r.assuming.rename (p.number site assuming.2) :=
      Naming.renameTerm_fst_of_grows hscope' r.assuming (.refl _)
    rw [Source.constraint, Session.named, hguard, hleft, hright]

/-- Binding a value to a captured result emits the equation of the two when they are of the same
sort. -/
theorem emits_bindValue_of_some {session : Session} {caller : CallPath} {position : Nat}
    {call : Call (Option SourceLocation)} {callee : FunctionSummary} {captured : Var}
    {s : ValueSort} {value : Term s} (hresult : call.result = some captured)
    (hreturn : callee.result = some ⟨s, value⟩)
    (hp : Covers site names (CallPath.step caller position call callee).reads)
    (hg : Naming.Grows names session.naming)
    (hscope : caller.scopeAt site < session.naming.scopes.size)
    (hvalue : Covers site session.naming
      (value.occurrences.map (CallPath.step caller position call callee, ·))) :
    Emits site (CallPath.step caller position call callee).resultSource?.toList session
      (session.bindValue (caller.scopeAt site)
        ((CallPath.step caller position call callee).guard site names)
        ((CallPath.step caller position call callee).stack site) (some captured)
        (some ⟨s, value.rename
          ((CallPath.step caller position call callee).number site session.naming)⟩)) := by
  have hgrows : Naming.Grows session.naming (session.naming.meet (caller.scopeAt site) captured) :=
    Naming.grows_meet hscope
  -- the captured variable is renamed in any case, but it is equated to a value of its sort only
  by_cases hs : captured.sort = s
  · subst hs
    have hsource : (CallPath.step caller position call callee).resultSource? =
        some (.result caller position call callee captured value) :=
      CallPath.resultSource?_eq_some_iff.mpr
        ⟨caller, position, call, callee, captured, value, rfl, hresult, hreturn, rfl⟩
    have hbind := Expr.equate?_mk
      (Term.var captured.sort ((session.naming.meet (caller.scopeAt site) captured).numberOf
        (caller.scopeAt site) captured))
      (value.rename ((CallPath.step caller position call callee).number site session.naming))
    simp only [Session.bindValue, Naming.renameVar, Expr.ofVar, Term.toExpr, Term.ofVar, hbind,
      hsource, Session.emitImplied, Option.toList_some]
    refine .of_grows_left
      (b := session.named (session.naming.meet (caller.scopeAt site) captured)) hgrows rfl
      (.emit ?_ ?_)
    · have hcaptured : Covers site (session.naming.meet (caller.scopeAt site) captured)
          ([captured].map (caller, ·)) :=
        covers_map.mpr fun v hv => List.mem_singleton.mp hv ▸ Naming.knows_meet hscope captured
      exact covers_append.mpr ⟨covers_append.mpr ⟨hp.mono (hg.trans hgrows),
        hvalue.mono hgrows⟩, hcaptured⟩
    · have hguard := guard_of_grows hp (hg.trans hgrows)
      have hterm := rename_number_of_grows hvalue hgrows
      simp only [Source.constraint, Session.named]
      rw [hguard, hterm]
      rfl
  · have hsource := CallPath.resultSource?_of_ne caller position hresult hreturn hs
    have hbind := Expr.equate?_of_ne
      (l := Expr.ofVar (session.naming.renameVar (caller.scopeAt site) captured).1)
      (r := ⟨s, value.rename
        ((CallPath.step caller position call callee).number site session.naming)⟩) hs
    simp only [Session.bindValue, hbind, hsource, Session.emitImplied, Option.toList_none]
    exact .of_grows hgrows rfl

/-- Binding the result of a call emits the constraint of its source, if it has one. The guard is in
names that were given before. -/
theorem emits_bindValue {session : Session} {caller : CallPath} {position : Nat}
    {call : Call (Option SourceLocation)} {callee : FunctionSummary}
    (hp : Covers site names (CallPath.step caller position call callee).reads)
    (hg : Naming.Grows names session.naming)
    (hscope : caller.scopeAt site < session.naming.scopes.size)
    (hvalue : Covers site session.naming ((Expr.optionOccurrences callee.result).map
      (CallPath.step caller position call callee, ·))) :
    Emits site (CallPath.step caller position call callee).resultSource?.toList session
      (session.bindValue (caller.scopeAt site)
        ((CallPath.step caller position call callee).guard site names)
        ((CallPath.step caller position call callee).stack site) call.result
        ((CallPath.step caller position call callee).value site session.naming)) := by
  rw [CallPath.value, CallPath.summary]
  cases hresult : call.result with
  | none =>
    rw [CallPath.resultSource?, hresult]
    exact .refl session
  | some captured =>
    cases hreturn : callee.result with
    | none =>
      rw [CallPath.resultSource?, hresult, hreturn]
      exact .refl session
    | some returned =>
      rw [hreturn] at hvalue
      exact emits_bindValue_of_some hresult hreturn hp hg hscope hvalue

/-- Binding the result of a call goes through the visit that leaves the callee. -/
theorem follows_leave {session : Session} {caller : CallPath} {position : Nat}
    {call : Call (Option SourceLocation)} {callee : FunctionSummary}
    (hp : Covers site names (CallPath.step caller position call callee).reads)
    (hg : Naming.Grows names session.naming)
    (hscope : caller.scopeAt site < session.naming.scopes.size)
    (hvalue : Covers site session.naming ((Expr.optionOccurrences callee.result).map
      (CallPath.step caller position call callee, ·))) :
    Follows site [.leave (.step caller position call callee)] session
      (session.bindValue (caller.scopeAt site)
        ((CallPath.step caller position call callee).guard site names)
        ((CallPath.step caller position call callee).stack site) call.result
        ((CallPath.step caller position call callee).value site session.naming)) := by
  refine ⟨?_, Session.size_scopes_bindValue ..⟩
  rw [List.flatMap_cons, List.flatMap_nil, List.append_nil]
  exact emits_bindValue hp hg hscope hvalue

end

end SummaryInlining
