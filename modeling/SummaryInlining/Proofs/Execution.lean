import Mathlib.Data.List.TakeWhile
import SummaryInlining.Proofs.Emission

/-!
# An expansion performs the walk through its call tree

An expansion comes to the end of the walk through its call tree unless a call on it has the wrong
number of arguments; then it stops there, and has followed the walk up to that call (`Performs`).
The proof is an induction along the walk (`inlinesWalk`), with a lemma for each case: what
a requirement, a call that is not expanded and a call that is expanded add to the walk. The
instantiation of a function is the application of the function to its own parameters in the names of
a scope that comes before all others (`performs_instantiate`).
-/

set_option autoImplicit false

namespace SummaryInlining

/-! ## Where an expansion stops -/

namespace Visit

/-- The arity mismatch at a visit: a function is entered with the wrong number of arguments. -/
def mismatch? (site : CallSite) : Visit → Option ArityMismatch
  | enter p =>
    if p.summary.parameters.length = (p.givenArgs site).length then none
    else some ⟨p.name, p.summary.parameters.length, (p.givenArgs site).length⟩
  | require _ _ _ => none
  | leave _ => none

def firstMismatch? (site : CallSite) (visits : List Visit) : Option ArityMismatch :=
  visits.findSome? (mismatch? site)

/-- The part of a walk that comes before its first arity mismatch. -/
def executed (site : CallSite) (visits : List Visit) : List Visit :=
  visits.takeWhile fun visit => (visit.mismatch? site).isNone

section

variable {site : CallSite} {visits : List Visit} {e : ArityMismatch}

/-- A walk without arity mismatch is executed as a whole. -/
theorem executed_of_none (h : firstMismatch? site visits = none) :
    executed site visits = visits := by
  rw [executed, List.takeWhile_eq_self_iff]
  intro visit hv
  rw [List.findSome?_eq_none_iff.mp h visit hv]
  rfl

/-- Behind a walk without arity mismatch the first one is looked for further on. -/
theorem firstMismatch?_append_of_none (h : firstMismatch? site visits = none)
    (others : List Visit) :
    firstMismatch? site (visits ++ others) = firstMismatch? site others := by
  rw [firstMismatch?] at h
  rw [firstMismatch?, firstMismatch?, List.findSome?_append, h, Option.none_or]

/-- A first arity mismatch stays the first one whatever comes behind it. -/
theorem firstMismatch?_append_of_some (h : firstMismatch? site visits = some e)
    (others : List Visit) :
    firstMismatch? site (visits ++ others) = some e := by
  rw [firstMismatch?] at h
  rw [firstMismatch?, List.findSome?_append, h, Option.some_or]

/-- A walk without arity mismatch is executed before what comes behind it. -/
theorem executed_append_of_none (h : firstMismatch? site visits = none) (others : List Visit) :
    executed site (visits ++ others) = visits ++ executed site others := by
  refine List.takeWhile_append_of_pos fun visit hv => ?_
  rw [List.findSome?_eq_none_iff.mp h visit hv]
  rfl

/-- Nothing is executed behind a walk with an arity mismatch. -/
theorem executed_append_of_some (h : firstMismatch? site visits = some e)
    (others : List Visit) :
    executed site (visits ++ others) = executed site visits := by
  induction visits with
  | nil => cases h
  | cons visit rest ih =>
    cases hv : visit.mismatch? site with
    | none =>
      rw [firstMismatch?, List.findSome?_cons, hv] at h
      simpa [executed, hv] using ih h
    | some found => simp [executed, hv]

end

end Visit

open Visit (firstMismatch? executed)

/-- The result of an expansion that is to go through these visits. It has come to the end of them
and returns what `returns` allows, or it has stopped at the first arity mismatch among them. -/
inductive Performs {α : Type} (site : CallSite) (visits : List Visit) (before : Session)
    (returns : α → Session → Prop) : Except ArityMismatch α × Session → Prop where
  | completed {value : α} {after : Session} (hm : firstMismatch? site visits = none)
      (hf : Follows site visits before after) (hr : returns value after) :
      Performs site visits before returns (.ok value, after)
  | refused {e : ArityMismatch} {after : Session} (hm : firstMismatch? site visits = some e)
      (hf : Follows site (executed site visits) before after) :
      Performs site visits before returns (.error e, after)

namespace Performs

variable {α : Type} {site : CallSite} {visits others : List Visit} {a b : Session}
  {returns : α → Session → Prop} {result : Except ArityMismatch α × Session}

/-- What goes through some visits after others were gone through goes through all of them. -/
theorem after_follows (visits : List Visit) (hm : firstMismatch? site visits = none)
    (hf : Follows site visits a b) (h : Performs site others b returns result) :
    Performs site (visits ++ others) a returns result := by
  cases h with
  | completed hm' hf' hr =>
    exact .completed ((Visit.firstMismatch?_append_of_none hm _).trans hm') (hf.append hf') hr
  | refused hm' hf' =>
    refine .refused ((Visit.firstMismatch?_append_of_none hm _).trans hm') ?_
    rw [Visit.executed_append_of_none hm]
    exact hf.append hf'

/-- Whatever becomes of an expansion, it has gone through the part of the walk that comes before the
first arity mismatch. -/
theorem follows (h : Performs site visits a returns result) :
    Follows site (executed site visits) a result.2 := by
  cases h with
  | completed hm hf _ =>
    rw [Visit.executed_of_none hm]
    exact hf
  | refused _ hf => exact hf

/-- An expansion that is cut off does not go through the visits that would follow. -/
theorem refused_append {e : ArityMismatch} (visits : List Visit)
    (hm : firstMismatch? site visits = some e)
    (hf : Follows site (executed site visits) a b) :
    Performs site (visits ++ others) a returns (.error e, b) := by
  refine .refused (Visit.firstMismatch?_append_of_some hm _) ?_
  rw [Visit.executed_append_of_some hm]
  exact hf

end Performs

/-! ## The whole expansion -/

section

variable {site : CallSite}

/-- The value of a function comes back in the names that its variables have. -/
def Returns (site : CallSite) (p : CallPath) (value : Option Expr) (after : Session) : Prop :=
  value = p.value site after.naming ∧
    Covers site after.naming ((Expr.optionOccurrences p.summary.result).map (p, ·))

/-- A frame at the end of a path returns the value of the function there. -/
theorem Returns.of_returnValue {p : CallPath} (session : Session) {frame : Frame}
    (hscope : frame.scope = p.scopeAt site) (hresult : frame.result = p.summary.result)
    (hlt : p.scopeAt site < session.naming.scopes.size) :
    Returns site p (session.returnValue frame).1 (session.returnValue frame).2 := by
  unfold Returns CallPath.value Session.returnValue
  rw [hscope, hresult]
  cases p.summary.result with
  | none => exact ⟨rfl, covers_nil⟩
  | some result =>
    refine ⟨congrArg some (Naming.renameExpr_fst_of_grows hlt result (.refl _)), ?_⟩
    exact covers_map.mpr fun v hv => Naming.knows_cover hlt hv

/-- Taking the value of a function adds nothing to what has been gone through. -/
theorem Follows.of_returnValue {visits : List Visit} {a b : Session} {frame : Frame}
    (h : Follows site visits a b) (hlt : frame.scope < b.naming.scopes.size) :
    Follows site visits a (b.returnValue frame).2 := by
  have hgrows := (Session.evolves_returnValue b frame hlt).grows
  have hconstraints : (b.returnValue frame).2.constraints = b.constraints := by
    unfold Session.returnValue
    split <;> rfl
  have hsize : (b.returnValue frame).2.naming.scopes.size = b.naming.scopes.size := by
    unfold Session.returnValue
    split
    · rfl
    · simp [Session.named, Session.log, Naming.renameExpr, Naming.renameTerm]
  have hreturn : Follows site [] b (b.returnValue frame).2 := .of_grows hgrows hconstraints hsize
  have happend := h.append hreturn
  rwa [List.append_nil] at happend

/-- Going through constraints at the end of a path, of which the first one stands at this position,
follows the walk from there on: in every session that has names for what the calls on the path read,
and in which as many scopes have been opened as the walk opens before this position. -/
def InlinesWalk (site : CallSite) (p : CallPath) (position : Nat)
    (constraints : List SummaryConstraint) : Prop :=
  ∀ session : Session, Covers site session.naming p.reads →
    session.naming.scopes.size = p.nextScope site.env site.active site.base position →
      Performs site (p.walk site.env site.active position constraints) session (fun _ _ => True)
        (session.inlineBody site.env (p.names ++ site.active) (p.scopeAt site) (p.stack site)
          (p.guard site session.naming) constraints)

/-- A call goes through the visit that enters its callee and then through the constraints of the
callee when these do. -/
theorem performs_inlineCall_of_body (p : CallPath) (session : Session)
    (hs : site.env.find? p.name = some p.summary) (ha : p.name ∉ p.around site.active)
    (hp : Covers site session.naming p.reads)
    (hsize : session.naming.scopes.size = p.scopeAt site)
    (hbody : InlinesWalk site p 0 p.summary.constraints) :
    Performs site (.enter p :: p.walk site.env site.active 0 p.summary.constraints) session
      (Returns site p)
      (session.inlineCall site.env (p.around site.active) p.name (p.args site session.naming)
        (p.stack site) (p.guard site session.naming)) := by
  have hlength : (p.args site session.naming).length = (p.givenArgs site).length :=
    List.length_map _
  by_cases hl : p.summary.parameters.length = (p.givenArgs site).length
  · rw [Session.inlineCall_of_length_eq hs ha (hl.trans hlength.symm), Session.inlineFrame]
    have henter : firstMismatch? site [.enter p] = none := by
      simp [firstMismatch?, Visit.mismatch?, hl]
    have hbound := follows_bound hp hsize
    have hopened := hbound.size_eq
    have hcallee := hbody _ (hp.mono hbound.grows) (by
      rw [hopened, hsize, CallPath.nextScope_zero]
      rfl)
    rw [CallPath.names_append, guard_of_grows hp hbound.grows, ← hsize] at hcallee
    -- from here on only what binding the parameters did is used, not how
    generalize session.bound p.name p.summary (p.args site session.naming) (p.stack site)
      (p.guard site session.naming) = bound at hbound hopened hcallee ⊢
    generalize hresult : bound.inlineBody site.env (p.name :: p.around site.active)
      session.naming.scopes.size (p.stack site) (p.guard site session.naming)
      p.summary.constraints = result at hcallee
    simp only [Session.frameOf, hresult]
    have hnone := Visit.firstMismatch?_append_of_none henter
      (p.walk site.env site.active 0 p.summary.constraints)
    cases hcallee with
    | @completed _ after hm hf _ =>
      have hlt : session.naming.scopes.size < after.naming.scopes.size := by
        have hle := hf.grows.scopes_le
        rw [hopened] at hle
        exact hle
      refine .completed (hnone.trans hm) (((hbound.append hf).of_returnValue hlt).log .leave) ?_
      exact Returns.of_returnValue after hsize rfl (hsize ▸ hlt)
    | @refused _ after hm hf =>
      refine .refused (hnone.trans hm) ?_
      rw [← List.singleton_append, Visit.executed_append_of_none henter]
      exact (hbound.append hf).log .leave
  · rw [Session.inlineCall_of_length_ne hs ha (fun h => hl (h.trans hlength)), hlength]
    refine .refused_append [.enter p] ?_ ?_
    · simp [firstMismatch?, Visit.mismatch?, hl]
    -- the call is wrong itself, so nothing of it is executed
    · have hexecuted : executed site [.enter p] = [] := by
        simp [executed, Visit.mismatch?, hl]
      rw [hexecuted]
      exact .of_grows (.refl _) rfl rfl

/-- Renaming the assumption and the arguments of a call gives names to all that the path to its
callee reads, and yields the arguments and the guard of the callee. -/
theorem renamed_call {p : CallPath} {naming : Naming} (hp : Covers site naming p.reads)
    (hlt : p.scopeAt site < naming.scopes.size) (position : Nat)
    (call : Call (Option SourceLocation)) (callee : FunctionSummary) :
    let assuming := naming.renameTerm (p.scopeAt site) call.assuming
    let args := assuming.2.renameExprs (p.scopeAt site) call.args
    let inner := CallPath.step p position call callee
    Naming.Grows naming args.2 ∧ args.2.scopes.size = naming.scopes.size ∧
      Covers site args.2 inner.reads ∧ args.1 = inner.args site args.2 ∧
        (p.guard site naming).conjoin assuming.1 = inner.guard site args.2 := by
  intro assuming args inner
  have hassuming : Naming.Grows naming assuming.2 := Naming.grows_cover hlt _
  have hlt' : p.scopeAt site < assuming.2.scopes.size :=
    Nat.lt_of_lt_of_le hlt hassuming.scopes_le
  have hcover : args.2 = assuming.2.cover (p.scopeAt site) (Expr.listOccurrences call.args) :=
    Naming.renameExprs_snd ..
  have hargs : Naming.Grows assuming.2 args.2 := hcover ▸ Naming.grows_cover hlt' _
  refine ⟨hassuming.trans hargs, ?_, ?_, ?_, ?_⟩
  · rw [hcover]
    exact (Naming.size_scopes_cover ..).trans (Naming.size_scopes_cover ..)
  · rw [CallPath.reads, List.map_append]
    refine covers_append.mpr ⟨hp.mono (hassuming.trans hargs), covers_append.mpr ⟨?_, ?_⟩⟩
    · exact covers_map.mpr fun v hv => (Naming.knows_cover hlt hv).mono hargs
    · exact covers_map.mpr fun v hv => hcover ▸ Naming.knows_cover hlt' hv
  · exact Naming.renameExprs_fst_of_grows hlt' call.args (hcover ▸ .refl _)
  · have hguard := guard_of_grows hp (hassuming.trans hargs)
    have hterm := Naming.renameTerm_fst_of_grows hlt call.assuming hargs
    exact (congrArg₂ Term.conjoin hguard hterm.symm).symm

/-- A call that leads nowhere is not expanded and yields no value. -/
theorem inlineCall_of_callee?_eq_none {env : Environment} {active : List String} {p : CallPath}
    {call : Call (Option SourceLocation)} (h : p.callee? env active call = none)
    (session : Session) (args : List (Option Expr)) (stack : CallStack) (guard : Term .bool) :
    ∃ event, session.inlineCall env (p.names ++ active) call.callee args stack guard =
      (.ok none, session.log event) := by
  cases hs : env.find? call.callee with
  | none => exact ⟨_, Session.inlineCall_of_unknown hs⟩
  | some summary =>
    have hactive : call.callee ∈ p.names ++ active := by
      by_contra hn
      have hsome := CallPath.callee?_eq_some_iff.mpr ⟨hn, hs⟩
      rw [h] at hsome
      cases hsome
    exact ⟨_, Session.inlineCall_of_active hs hactive⟩

/-- The scope of a function is open while its constraints are gone through. -/
theorem scopeAt_lt_of_size_eq {p : CallPath} {position : Nat} {naming : Naming}
    (h : naming.scopes.size = p.nextScope site.env site.active site.base position) :
    p.scopeAt site < naming.scopes.size := by
  rw [h]
  exact CallPath.scope_lt_nextScope ..

section

variable {p : CallPath} {position : Nat} {call : Call (Option SourceLocation)}
  {rest : List SummaryConstraint}

/-- Without constraints there is nothing to go through. -/
theorem inlinesWalk_nil (site : CallSite) (p : CallPath) (position : Nat) :
    InlinesWalk site p position [] := by
  intro session _ _
  rw [CallPath.walk, Session.inlineBody]
  exact .completed rfl (.of_grows (.refl _) rfl rfl) trivial

/-- A requirement follows the walk, if the constraints behind it do. -/
theorem inlinesWalk_require {r : Requirement (Option SourceLocation)}
    (hget : p.summary.constraints[position]? = some (.require r))
    (hrest : InlinesWalk site p (position + 1) rest) :
    InlinesWalk site p position (.require r :: rest) := by
  intro session hp hsize
  have hrequire := follows_require hp (scopeAt_lt_of_size_eq hsize) position r
  have hothers := hrest _ (hp.mono hrequire.grows) (by
    rw [hrequire.size_eq, hsize, CallPath.nextScope_of_require site.base hget]
    rfl)
  rw [guard_of_grows hp hrequire.grows] at hothers
  rw [CallPath.walk, Session.inlineBody]
  exact hothers.after_follows [.require p position r] rfl hrequire

/-- A call that does not lead on follows the walk, if the constraints behind it do. -/
theorem inlinesWalk_skip (hget : p.summary.constraints[position]? = some (.call call))
    (hc : p.callee? site.env site.active call = none)
    (hrest : InlinesWalk site p (position + 1) rest) :
    InlinesWalk site p position (.call call :: rest) := by
  intro session hp hsize
  rw [CallPath.walk_call_of_none hc, Session.inlineBody]
  -- the arguments are renamed all the same, whatever the callee would be
  obtain ⟨hgrows, hscopes, -, -, -⟩ :=
    renamed_call hp (scopeAt_lt_of_size_eq hsize) position call ⟨[], none, []⟩
  generalize session.naming.renameTerm (p.scopeAt site) call.assuming = assuming at hgrows hscopes ⊢
  generalize assuming.2.renameExprs (p.scopeAt site) call.args = args at hgrows hscopes ⊢
  obtain ⟨event, hcall⟩ := inlineCall_of_callee?_eq_none hc (session.named args.2) args.1
    (CallStack.push call.location (p.stack site)) ((p.guard site session.naming).conjoin assuming.1)
  have hthrough : Follows site [] session ((session.named args.2).log event) :=
    .of_grows hgrows rfl hscopes
  have hothers := hrest _ (hp.mono hgrows) (by
    rw [hthrough.size_eq, hsize, CallPath.nextScope_of_skip site.base hget hc]
    rfl)
  have hguard : p.guard site ((session.named args.2).log event).naming =
    p.guard site session.naming := guard_of_grows hp hgrows
  rw [hguard] at hothers
  rw [hcall]
  simp only [Session.bindValue_none]
  exact hothers.after_follows [] rfl hthrough

/-- A call that leads on follows the walk, if the constraints of its callee and those behind it do.
-/
theorem inlinesWalk_expand {callee : FunctionSummary}
    (hget : p.summary.constraints[position]? = some (.call call))
    (hc : p.callee? site.env site.active call = some callee)
    (hinner : InlinesWalk site (.step p position call callee) 0 callee.constraints)
    (hrest : InlinesWalk site p (position + 1) rest) :
    InlinesWalk site p position (.call call :: rest) := by
  intro session hp hsize
  have hlt : p.scopeAt site < session.naming.scopes.size := scopeAt_lt_of_size_eq hsize
  obtain ⟨hn, hs⟩ := CallPath.callee?_eq_some_iff.mp hc
  rw [CallPath.walk_call_of_some hc, CallPath.tour, Session.inlineBody]
  obtain ⟨hgrows, hscopes, hcovers, hargs, hguard⟩ := renamed_call hp hlt position call callee
  generalize session.naming.renameTerm (p.scopeAt site) call.assuming = assuming
    at hgrows hscopes hcovers hargs hguard ⊢
  generalize assuming.2.renameExprs (p.scopeAt site) call.args = args
    at hgrows hscopes hcovers hargs hguard ⊢
  have hcall : Performs site _ (session.named args.2)
      (Returns site (.step p position call callee))
      ((session.named args.2).inlineCall site.env (p.names ++ site.active) call.callee _
        (CallStack.push call.location (p.stack site)) _) :=
    performs_inlineCall_of_body _ _ hs hn hcovers (hscopes.trans hsize) hinner
  rw [hargs, hguard]
  simp only [Session.named] at hcall ⊢
  generalize Session.inlineCall site.env (p.names ++ site.active) _ call.callee _ _ _ = result
    at hcall ⊢
  cases hcall with
  | refused hm hf =>
    -- what follows the callee on the walk is not gone through
    rw [List.append_assoc]
    exact .refused_append _ hm (hf.of_grows_left (a := session) (b := session.named args.2)
      hgrows rfl hscopes)
  | @completed value after hm hf hr =>
    obtain ⟨rfl, hvalue⟩ := hr
    have hlt' : p.scopeAt site < after.naming.scopes.size :=
      Nat.lt_of_lt_of_le hlt (hscopes ▸ hf.grows.scopes_le)
    have hleave := follows_leave hcovers hf.grows hlt' hvalue
    have htour := (hf.append hleave).of_grows_left (a := session) (b := session.named args.2)
      hgrows rfl hscopes
    have hnone := (Visit.firstMismatch?_append_of_none hm
      [.leave (.step p position call callee)]).trans rfl
    have hothers := hrest _ (hp.mono htour.grows) (by
      rw [htour.size_eq, hsize, CallPath.nextScope_of_expand site.base hget hc]
      rfl)
    rw [guard_of_grows hp htour.grows] at hothers
    exact hothers.after_follows _ hnone htour

end

/-- Going through the constraints that a function has left follows the walk from there on. -/
theorem inlinesWalk (p : CallPath) (position : Nat) (constraints : List SummaryConstraint) :
    p.summary.constraints.drop position = constraints →
      InlinesWalk site p position constraints := by
  induction p, position, constraints using CallPath.walk_induction site.env site.active with
  | nil p position => exact fun _ => inlinesWalk_nil site p position
  | require p position r rest ih =>
    intro hd
    obtain ⟨hget, hrest⟩ := CallPath.getElem?_of_drop_eq_cons hd
    exact inlinesWalk_require hget (ih hrest)
  | skip p position call rest hc ih =>
    intro hd
    obtain ⟨hget, hrest⟩ := CallPath.getElem?_of_drop_eq_cons hd
    exact inlinesWalk_skip hget hc (ih hrest)
  | expand p position call callee rest hc ihinner ihrest =>
    intro hd
    obtain ⟨hget, hrest⟩ := CallPath.getElem?_of_drop_eq_cons hd
    exact inlinesWalk_expand hget hc (ihinner rfl) (ihrest hrest)

/-- Expanding a call whose callee can be expanded follows the walk through its call tree. -/
theorem performs_inlineCall (site : CallSite) {entry : String} {summary : FunctionSummary}
    {session : Session}
    (hs : site.env.find? entry = some summary) (ha : entry ∉ site.active)
    (hsize : session.naming.scopes.size = site.base) :
    Performs site (.enter (.root entry summary) :: (CallPath.root entry summary).walk site.env
        site.active 0 summary.constraints) session (Returns site (.root entry summary))
      (session.inlineCall site.env site.active entry site.args site.stack site.guard) := by
  have hcall := performs_inlineCall_of_body (.root entry summary) session hs ha covers_nil hsize
    (inlinesWalk _ 0 _ rfl)
  rwa [CallPath.args_root] at hcall

end

namespace Session

/-- The call that `Session.apply` expands. -/
def siteOf (session : Session) (env : Environment) (args : List (Option Expr)) (stack : CallStack)
    (guard : Term .bool) : CallSite :=
  ⟨env, session.active, session.naming.scopes.size, args, stack, guard⟩

/-- Applying a function goes through the tree of the function up to the first arity mismatch. -/
theorem performs_apply {env : Environment} (session : Session) {name : String}
    {summary : FunctionSummary} (hs : env.find? name = some summary) (ha : name ∉ session.active)
    (args : List (Option Expr)) (stack : CallStack) (guard : Term .bool) :
    Performs (session.siteOf env args stack guard)
      (.enter (.root name summary) :: (CallPath.root name summary).walk env session.active 0
        summary.constraints) session
      (Returns (session.siteOf env args stack guard) (.root name summary))
      (session.apply env name args stack guard) := by
  rw [apply_eq_inlineCall]
  exact performs_inlineCall (session.siteOf env args stack guard) hs ha rfl

end Session

/-- The call that the instantiation of a function begins with. Its arguments are the parameters of
the function, with their variables named in the scope `root`. -/
def rootSite (env : Environment) (root : ScopeId) (summary : FunctionSummary) (names : Naming) :
    CallSite :=
  ⟨env, [], root + 1, summary.parameters.map (Option.map (Expr.rename (names.numberOf root))), .top,
    .alwaysTrue⟩

section

variable {env : Environment} {entry : String} {summary : FunctionSummary} {naming : Naming}

/-- The session in which a function is applied when its instantiation begins. -/
def rootSession (naming : Naming) (entry : String) (summary : FunctionSummary) : Session :=
  (Session.new (naming.openScope.2.renameExprs naming.scopes.size summary.parameters).2).log
    (.enterRoot entry)

/-- The parameters of the function that is instantiated have names in the root scope, and are given
as arguments in these names. -/
theorem rootSession_named (env : Environment) (naming : Naming) (entry : String)
    (summary : FunctionSummary) :
    let named := (rootSession naming entry summary).naming
    Naming.Grows naming named ∧ named.scopes.size = naming.scopes.size + 1 ∧
      (∀ v ∈ Expr.listOccurrences summary.parameters, named.Knows naming.scopes.size v) ∧
        ∀ later, Naming.Grows named later →
          (naming.openScope.2.renameExprs naming.scopes.size summary.parameters).1 =
            (rootSite env naming.scopes.size summary later).args := by
  have hlt : naming.scopes.size < naming.openScope.2.scopes.size := by
    rw [Naming.size_scopes_openScope]
    exact Nat.lt_succ_self _
  have hcover : (rootSession naming entry summary).naming =
      naming.openScope.2.cover naming.scopes.size (Expr.listOccurrences summary.parameters) :=
    Naming.renameExprs_snd ..
  simp only [hcover]
  refine ⟨(Naming.grows_openScope naming).trans (Naming.grows_cover hlt _), ?_, ?_, ?_⟩
  · rw [Naming.size_scopes_cover, Naming.size_scopes_openScope]
  · exact fun v hv => Naming.knows_cover hlt hv
  · exact fun later hg => Naming.renameExprs_fst_of_grows hlt _ hg

/-- Instantiating a function without summary logs that there is none. -/
theorem instantiate_of_none (h : env.find? entry = none) :
    instantiate env entry naming = (.ok (), (Session.new naming).log (.unknownRoot entry)) := by
  simp only [instantiate, h]

/-- Instantiating a function applies it to its own parameters, and closes the branch of the trace.
-/
theorem instantiate_of_some (hs : env.find? entry = some summary) :
    let applied := (rootSession naming entry summary).apply env entry
      (naming.openScope.2.renameExprs naming.scopes.size summary.parameters).1 .top .alwaysTrue
    instantiate env entry naming = (applied.1.map fun _ => (), applied.2.log .leave) := by
  simp only [instantiate, hs]
  rfl

/-- Instantiating a function follows the walk through its whole call tree. -/
theorem performs_instantiate (naming : Naming) (hs : env.find? entry = some summary) :
    Performs (rootSite env naming.scopes.size summary (instantiate env entry naming).2.naming)
      ((CallPath.root entry summary).tour env []) (rootSession naming entry summary)
      (fun _ _ => True) (instantiate env entry naming) := by
  obtain ⟨-, hsize, -, hargs⟩ := rootSession_named env naming entry summary
  have hactive : entry ∉ (rootSession naming entry summary).active := List.not_mem_nil
  rw [instantiate_of_some hs]
  generalize (naming.openScope.2.renameExprs naming.scopes.size summary.parameters).1 = args
    at hargs ⊢
  have happly := Session.performs_apply _ hs hactive args .top .alwaysTrue
  have hgrows := (Session.evolves_apply env (rootSession naming entry summary) entry args .top
    .alwaysTrue).grows
  generalize (rootSession naming entry summary).apply env entry args .top .alwaysTrue = applied
    at happly hgrows ⊢
  have hsite : (rootSession naming entry summary).siteOf env args .top .alwaysTrue =
      rootSite env naming.scopes.size summary applied.2.naming := by
    rw [hargs applied.2.naming hgrows, Session.siteOf, hsize]
    rfl
  rw [hsite] at happly
  cases happly with
  | @completed _ after hm hf _ =>
    have hleave : Follows (rootSite env naming.scopes.size summary after.naming)
        [.leave (.root entry summary)] after after := ⟨.refl after, rfl⟩
    exact .completed ((Visit.firstMismatch?_append_of_none hm _).trans rfl)
      ((hf.append hleave).log .leave) trivial
  | refused hm hf => exact .refused_append _ hm (hf.log .leave)

/-- An instantiation that is not cut off has gone through its whole call tree. -/
theorem follows_instantiate (hs : env.find? entry = some summary)
    (hok : (instantiate env entry naming).1 = .ok ()) :
    Follows (rootSite env naming.scopes.size summary (instantiate env entry naming).2.naming)
      ((CallPath.root entry summary).tour env []) (rootSession naming entry summary)
      (instantiate env entry naming).2 := by
  have hperforms := performs_instantiate naming hs
  generalize instantiate env entry naming = result at hok hperforms ⊢
  cases hperforms with
  | completed hm hf _ => exact hf
  | refused hm hf => cases hok

end

/-- The instantiation of a function grows the naming, also when it is cut off. -/
theorem grows_instantiate (env : Environment) (entry : String) (naming : Naming) :
    Naming.Grows naming (instantiate env entry naming).2.naming := by
  cases hs : env.find? entry with
  | none =>
    rw [instantiate, hs]
    exact .refl naming
  | some summary =>
    obtain ⟨hgrows, -, -, -⟩ := rootSession_named env naming entry summary
    rw [instantiate_of_some hs]
    exact hgrows.trans (Session.evolves_apply ..).grows

/-! ## An environment with nested calls -/

/-- Returns its parameter, which it requires to be small, and calls itself. -/
def nestedInner : FunctionSummary :=
  ⟨[some ⟨.int, .var .int 0⟩], some ⟨.int, .var .int 0⟩,
    [.require ⟨.compare .lt (.var .int 0) (.literal 3), .alwaysTrue, .asserted, none⟩,
      .call ⟨"inner", [some ⟨.int, .var .int 0⟩], none, .alwaysTrue, none⟩]⟩

/-- Calls `inner` under an assumption, captures its result, and has a requirement on it. -/
def nestedOuter : FunctionSummary :=
  ⟨[some ⟨.int, .var .int 0⟩], none,
    [.call ⟨"inner", [some ⟨.int, .var .int 0⟩], some ⟨.int, 1⟩, .var .bool 2, none⟩,
      .require ⟨.compare .lt (.var .int 1) (.literal 9), .alwaysTrue, .asserted, none⟩]⟩

/-- The functions `outer` and `inner`. -/
def nestedCalls : Environment :=
  (Table.empty.insert "outer" nestedOuter).insert "inner" nestedInner

end SummaryInlining
