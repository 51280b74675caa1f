import Mathlib.Data.List.Lex
import SummaryInlining.Proofs.Execution
import SummaryInlining.Proofs.WorklistInvariant

/-!
# Which instantiations fail

An instantiation fails at a call with the wrong number of arguments, and for no other reason. A
`WrongCall` is such a call that the expansion can come to: along a path of distinct functions with
summaries, on which its callee does not stand. Whether a call is wrong so depends on the path that
leads to it.

The walk through a call tree enters its nodes in the order of their positions
(`pairwise_positions_tour`), so the wrong call that an instantiation stops at is the first one in
this order (`firstMismatch?_tour_eq_some_iff`). `InstantiationEnds` runs the instantiation with all
its checks, the result is the same (`instantiationEnds_iff`).
-/

set_option autoImplicit false

namespace SummaryInlining

namespace CallPath

/-! ## The order of the call tree -/

/-- The positions of the calls on a path among the constraints of their callers, the outermost one
first. In their lexicographic order a path comes before those that it leads to, and these come in
the order of the constraints. -/
def positions : CallPath → List Nat
  | root _ _ => []
  | step caller position _ _ => caller.positions ++ [position]

/-- The positions of a path begin with those of the paths that it leads through. -/
theorem positions_isPrefix {p q : CallPath} (h : p ∈ q.prefixes) :
    p.positions.IsPrefix q.positions := by
  induction q with
  | root name summary =>
    obtain rfl := List.mem_singleton.mp h
    exact List.prefix_refl _
  | step caller position call callee ih =>
    rcases List.mem_cons.mp h with rfl | h
    · exact List.prefix_refl _
    · exact (ih h).trans (List.prefix_append _ _)

section

variable {env : Environment} {active : List String} {entry : String}

/-- A path begins with its first function. -/
theorem Valid.entry_mem_names {p : CallPath} (hp : p.Valid env active entry) :
    entry ∈ p.names := by
  induction p with
  | root name summary => exact List.mem_singleton.mpr hp.1.symm
  | step caller position call callee ih => exact List.mem_cons_of_mem _ (ih hp.1)

/-- The calls of a path are determined by their positions. -/
theorem Valid.eq_of_positions_eq {p q : CallPath} (hp : p.Valid env active entry)
    (hq : q.Valid env active entry) (h : p.positions = q.positions) : p = q := by
  induction p generalizing q with
  | root name summary =>
    cases q with
    | root name' summary' =>
      obtain ⟨rfl, hs, -⟩ := hp
      obtain ⟨rfl, hs', -⟩ := hq
      rw [hs] at hs'
      cases hs'
      rfl
    | step caller' position' call' callee' => simp [positions] at h
  | step caller position call callee ih =>
    cases q with
    | root name' summary' => simp [positions] at h
    | step caller' position' call' callee' =>
      obtain ⟨hcaller, hget, hcallee⟩ := hp
      obtain ⟨hcaller', hget', hcallee'⟩ := hq
      obtain ⟨hpositions, rfl⟩ := List.append_singleton_inj.mp h
      obtain rfl := ih hcaller hcaller' hpositions
      rw [hget] at hget'
      cases hget'
      rw [hcallee] at hcallee'
      cases hcallee'
      rfl

open Visit (entered)

/-- What the constraints at the end of a path lead to from this position on is behind the path by
a call that stands there. -/
theorem positions_of_mem_walk {p q : CallPath} {position : Nat}
    {constraints : List SummaryConstraint}
    (hq : q ∈ entered (p.walk env active position constraints)) :
    ∃ k rest, position ≤ k ∧ q.positions = p.positions ++ k :: rest := by
  rcases from_of_mem_walk (mem_entered_iff.mp hq) with ⟨k, r, -, heq⟩ | ⟨k, call, callee, hk, hmem⟩
  · cases heq
  · obtain ⟨rest, hrest⟩ := positions_isPrefix hmem
    refine ⟨k, rest, hk, hrest.symm.trans ?_⟩
    rw [positions, List.append_assoc]
    rfl

/-- What is in the tree below a callee stands behind the call. -/
theorem positions_of_mem_tour {p q : CallPath} (hq : q ∈ entered (p.tour env active)) :
    p.positions.IsPrefix q.positions :=
  positions_isPrefix (prefix_of_mem_tour (mem_entered_iff.mp hq))

/-- A tree is entered in lexicographic order, if the functions below its path are. -/
theorem pairwise_positions_tour_of_walk {p : CallPath}
    (h : (entered (p.walk env active 0 p.summary.constraints)).Pairwise
      fun q q' => q.positions < q'.positions) :
    (entered (p.tour env active)).Pairwise fun q q' => q.positions < q'.positions := by
  rw [entered_tour, List.pairwise_cons]
  refine ⟨fun q hq => ?_, h⟩
  obtain ⟨k, rest, -, hpositions⟩ := positions_of_mem_walk hq
  have hlt := List.Lex.append_left (· < ·) (.nil (a := k) (l := rest)) p.positions
  rw [List.append_nil] at hlt
  rw [hpositions]
  exact hlt

/-- The functions below some constraints are entered in lexicographic order. -/
theorem pairwise_positions_walk (p : CallPath) (position : Nat)
    (constraints : List SummaryConstraint) :
    (entered (p.walk env active position constraints)).Pairwise
      fun q q' => q.positions < q'.positions := by
  induction p, position, constraints using walk_induction env active with
  | nil p position => simp [walk, entered]
  | require p position r rest ih =>
    rw [walk]
    exact ih
  | skip p position call rest hc ih =>
    rw [walk_call_of_none hc]
    exact ih
  | expand p position call callee rest hc ihinner ihrest =>
    rw [walk_call_of_some hc, entered_append, List.pairwise_append]
    refine ⟨pairwise_positions_tour_of_walk ihinner, ihrest, fun q hq q' hq' => ?_⟩
    -- the two leave the path at different positions
    obtain ⟨inside, hinside⟩ := positions_of_mem_tour hq
    obtain ⟨k, rest', hk, hbehind⟩ := positions_of_mem_walk hq'
    rw [← hinside, hbehind, positions, List.append_assoc]
    exact List.Lex.append_left (· < ·) (.rel hk) p.positions

/-- The walk through a call tree enters its nodes in the order of their positions. -/
theorem pairwise_positions_tour (env : Environment) (active : List String) (p : CallPath) :
    (entered (p.tour env active)).Pairwise fun q q' => q.positions < q'.positions :=
  pairwise_positions_tour_of_walk (pairwise_positions_walk p 0 _)

end

end CallPath

/-! ## Wrong calls -/

/-- A call that the expansion of `entry` can come to and that has the wrong number of arguments. It
stands at the end of a call path, and its callee has a summary and is not on the path. -/
structure WrongCall (env : Environment) (entry : String) where
  path : CallPath
  position : Nat
  call : Call (Option SourceLocation)
  callee : FunctionSummary
  valid : path.Valid env [] entry
  at_position : path.summary.constraints[position]? = some (.call call)
  known : env.find? call.callee = some callee
  not_mem : call.callee ∉ path.names
  length_ne : callee.parameters.length ≠ call.args.length

namespace WrongCall

variable {env : Environment} {entry : String} (w : WrongCall env entry)

/-- Where the calls on the path and the wrong call stand. -/
def place : List Nat := w.path.positions ++ [w.position]

/-- No wrong call has an earlier place. -/
def IsFirst : Prop := ∀ other : WrongCall env entry, w.place ≤ other.place

def mismatch : ArityMismatch :=
  ⟨w.call.callee, w.callee.parameters.length, w.call.args.length⟩

/-- The path to the callee of the wrong call. -/
def inner : CallPath := .step w.path w.position w.call w.callee

/-- The path to the callee of a wrong call is there. -/
theorem inner_valid : w.inner.Valid env [] entry := by
  refine ⟨w.valid, w.at_position, CallPath.callee?_eq_some_iff.mpr ⟨?_, w.known⟩⟩
  rw [List.append_nil]
  exact w.not_mem

/-- Entering the callee of a wrong call is an arity mismatch. -/
theorem mismatch?_inner (site : CallSite) :
    (Visit.enter w.inner).mismatch? site = some w.mismatch :=
  if_neg w.length_ne

/-- A call of the function that the expansion begins with is recursive, so it is never wrong. -/
theorem callee_ne_entry : w.mismatch.callee ≠ entry := by
  rintro (heq : w.call.callee = entry)
  refine w.not_mem ?_
  rw [heq]
  exact w.valid.entry_mem_names

/-- Wrong calls at the same place are the same call. -/
theorem mismatch_eq_of_place_eq {w w' : WrongCall env entry} (h : w.place = w'.place) :
    w.mismatch = w'.mismatch := by
  have hinner : w.inner = w'.inner := w.inner_valid.eq_of_positions_eq w'.inner_valid h
  obtain ⟨-, -, hcall, hcallee⟩ := CallPath.step.inj hinner
  rw [mismatch, mismatch, hcall, hcallee]

end WrongCall

section

variable {env : Environment} {entry : String} {summary : FunctionSummary} {naming : Naming}

/-- Whatever has a mismatch on the walk is a wrong call. The function that the walk begins with gets
its own parameters. -/
theorem exists_wrongCall {visit : Visit} {root : ScopeId} {names : Naming} {e : ArityMismatch}
    (hs : env.find? entry = some summary) (hv : visit.Valid env [] entry)
    (he : visit.mismatch? (rootSite env root summary names) = some e) :
    ∃ w : WrongCall env entry, visit = .enter w.inner ∧ e = w.mismatch := by
  cases visit with
  | require p position r => cases he
  | leave p => cases he
  | enter p =>
    cases p with
    | root name found =>
      obtain ⟨rfl, hfound, -⟩ := hv
      rw [hs] at hfound
      cases hfound
      simp [Visit.mismatch?, CallPath.summary, CallPath.givenArgs, rootSite] at he
    | step caller position call callee =>
      obtain ⟨hcaller, hget, hc⟩ := hv
      obtain ⟨hn, hknown⟩ := CallPath.callee?_eq_some_iff.mp hc
      rw [List.append_nil] at hn
      by_cases hl : callee.parameters.length = call.args.length
      · simp [Visit.mismatch?, CallPath.summary, CallPath.givenArgs, hl] at he
      · refine ⟨⟨caller, position, call, callee, hcaller, hget, hknown, hn, hl⟩, rfl, ?_⟩
        exact (Option.some.inj ((WrongCall.mismatch?_inner _ _).symm.trans he)).symm

/-- The first mismatch on the walk is that of a wrong call, and no wrong call has an earlier
place. -/
theorem exists_first_wrongCall {root : ScopeId} {names : Naming} {e : ArityMismatch}
    (hs : env.find? entry = some summary)
    (he : Visit.firstMismatch? (rootSite env root summary names)
      ((CallPath.root entry summary).tour env []) = some e) :
    ∃ w : WrongCall env entry, w.IsFirst ∧ e = w.mismatch := by
  have hmem : ∀ visit, visit ∈ (CallPath.root entry summary).tour env [] ↔
      visit.Valid env [] entry := fun _ => CallPath.mem_tour_iff hs List.not_mem_nil
  obtain ⟨before, visit, behind, hsplit, hvisit, hbefore⟩ := List.findSome?_eq_some_iff.mp he
  rw [hsplit] at hmem
  obtain ⟨w, rfl, rfl⟩ := exists_wrongCall hs
    ((hmem visit).mp (List.mem_append_right _ List.mem_cons_self)) hvisit
  have horder := CallPath.pairwise_positions_tour env [] (.root entry summary)
  rw [Visit.entered, List.pairwise_filterMap, hsplit, List.pairwise_append,
    List.pairwise_cons] at horder
  obtain ⟨-, ⟨hbehind, -⟩, -⟩ := horder
  refine ⟨w, fun other => ?_, rfl⟩
  -- nothing before `w` is wrong, and every node that is entered behind it has a later place
  rcases List.mem_append.mp ((hmem (.enter other.inner)).mpr other.inner_valid) with hother | hother
  · have hnone := hbefore _ hother
    rw [other.mismatch?_inner] at hnone
    cases hnone
  · rcases List.mem_cons.mp hother with heq | hother
    · have hplace : other.place = w.place := congrArg CallPath.positions (Visit.enter.inj heq)
      exact hplace.ge
    · exact le_of_lt (hbehind _ hother _ rfl _ rfl)

/-- Where there is a wrong call the walk comes by an arity mismatch. -/
theorem WrongCall.firstMismatch?_ne_none (w : WrongCall env entry) (site : CallSite)
    (hs : env.find? entry = some summary) :
    Visit.firstMismatch? site ((CallPath.root entry summary).tour env []) ≠ none := by
  intro hnone
  have hmem : .enter w.inner ∈ (CallPath.root entry summary).tour env [] :=
    (CallPath.mem_tour_iff hs List.not_mem_nil).mpr w.inner_valid
  have hinner := List.findSome?_eq_none_iff.mp hnone _ hmem
  rw [w.mismatch?_inner] at hinner
  cases hinner

/-- The first arity mismatch on the walk is that of the first wrong call. -/
theorem firstMismatch?_tour_eq_some_iff (root : ScopeId) (names : Naming) {e : ArityMismatch}
    (hs : env.find? entry = some summary) :
    Visit.firstMismatch? (rootSite env root summary names)
        ((CallPath.root entry summary).tour env []) = some e ↔
      ∃ w : WrongCall env entry, w.IsFirst ∧ e = w.mismatch := by
  refine ⟨exists_first_wrongCall hs, ?_⟩
  rintro ⟨w, hleast, rfl⟩
  obtain ⟨e, he⟩ := Option.ne_none_iff_exists'.mp
    (w.firstMismatch?_ne_none (rootSite env root summary names) hs)
  obtain ⟨first, hfirst, rfl⟩ := exists_first_wrongCall hs he
  have hplace : first.place = w.place := le_antisymm (hfirst w) (hleast first)
  rw [he, WrongCall.mismatch_eq_of_place_eq hplace]

/-- Where there are wrong calls, one of them is the first one. -/
theorem WrongCall.exists_first (w : WrongCall env entry) :
    ∃ first : WrongCall env entry, first.IsFirst := by
  obtain ⟨summary, hs, -⟩ := w.valid.exists_root
  obtain ⟨e, he⟩ := Option.ne_none_iff_exists'.mp
    (w.firstMismatch?_ne_none (rootSite env 0 summary .new) hs)
  obtain ⟨first, hfirst, -⟩ := exists_first_wrongCall hs he
  exact ⟨first, hfirst⟩

/-- The instantiation of a function fails with the mismatch of the first wrong call, if there is
one. -/
theorem instantiate_eq_error_iff {e : ArityMismatch} :
    (instantiate env entry naming).1 = .error e ↔
      ∃ w : WrongCall env entry, w.IsFirst ∧ e = w.mismatch := by
  cases hs : env.find? entry with
  | none =>
    constructor
    · intro he
      simp [instantiate, hs] at he
    · rintro ⟨w, -⟩
      obtain ⟨summary, hsome, -⟩ := w.valid.exists_root
      rw [hs] at hsome
      cases hsome
  | some summary =>
    have hperforms := performs_instantiate naming hs
    rw [← firstMismatch?_tour_eq_some_iff naming.scopes.size
      (instantiate env entry naming).2.naming hs]
    generalize instantiate env entry naming = result at hperforms
    cases hperforms with
    | completed hm _ _ => simp [hm]
    | refused hm _ => simp [hm]

end

/-! ## The instantiation with all its checks -/

/-- How the instantiation of a function ends when the renaming of its parameters and the expansion
check whatever can go wrong. -/
inductive InstantiationEnds (env : Environment) (entry : String) (naming : Naming) :
    Checked Unit → Prop where
  | unknown (hs : env.find? entry = none) :
    InstantiationEnds env entry naming (.ok (), (Session.new naming).log (.unknownRoot entry))
  | broken {summary : FunctionSummary} {e : InternalError} {after : Session}
    (hs : env.find? entry = some summary)
    (hargs : outcomeIn (Inlining.renameExprs naming.openScope.1 summary.parameters)
      (Session.new naming.openScope.2) = (.error e, after)) :
    InstantiationEnds env entry naming (.error e, after)
  | expanded {summary : FunctionSummary} {args : List (Option Expr)} {named : Session}
    {result : Checked (Option Expr)}
    (hs : env.find? entry = some summary)
    (hargs : outcomeIn (Inlining.renameExprs naming.openScope.1 summary.parameters)
      (Session.new naming.openScope.2) = (.ok args, named))
    (hends : (Loop.start env (named.log (.enterRoot entry)) entry args .top .alwaysTrue).EndsWith
      env result) :
    InstantiationEnds env entry naming (result.1.map fun _ => (), result.2.log .leave)

/-- The result of an instantiation among those of the loop is that of the application, with the
event of leaving. -/
theorem Worklist.checked_map (applied : Expanded) :
    checked (applied.1.map fun _ => (), applied.2.log .leave) =
      ((checked applied).1.map fun _ => (), (checked applied).2.log .leave) := by
  obtain ⟨_ | _, after⟩ := applied <;> rfl

/-- Whatever is checked, an instantiation ends, and as `instantiate` says. -/
theorem instantiationEnds_iff {env : Environment} {entry : String} {naming : Naming}
    {result : Checked Unit} :
    InstantiationEnds env entry naming result ↔
      result = Worklist.checked (instantiate env entry naming) := by
  cases hs : env.find? entry with
  | none =>
    have hunknown : instantiate env entry naming =
        (.ok (), (Session.new naming).log (.unknownRoot entry)) := by
      simp only [instantiate, hs]
    rw [hunknown]
    constructor
    · intro h
      cases h with
      | unknown => rfl
      | broken h => cases hs.symm.trans h
      | expanded h => cases hs.symm.trans h
    · rintro rfl
      exact .unknown hs
  | some summary =>
    let renamed := naming.openScope.2.renameExprs naming.scopes.size summary.parameters
    -- in the new scope every variable keeps its sort, so that no parameter is refused
    have hrename : outcomeIn (Inlining.renameExprs naming.openScope.1 summary.parameters)
        (Session.new naming.openScope.2) = (.ok renamed.1, Session.new renamed.2) :=
      Inlining.outcomeIn_renameExprs (Session.new naming.openScope.2) naming.keepsSorts_openScope
        summary.parameters
    have hends := Loop.endsWith_apply env (rootSession naming entry summary) entry renamed.1 .top
      .alwaysTrue
    rw [instantiate_of_some hs, Worklist.checked_map]
    constructor
    · intro h
      cases h with
      | unknown h => cases hs.symm.trans h
      | broken h hargs =>
        cases hs.symm.trans h
        cases hrename.symm.trans hargs
      | expanded h hargs hends' =>
        cases hs.symm.trans h
        cases hrename.symm.trans hargs
        rw [hends'.unique hends]
    · rintro rfl
      exact .expanded hs hrename hends

/-- An instantiation, run with all its checks, ends in one way, which is that of `instantiate`. It
fails exactly when there is a wrong call, and then with the mismatch of the first one in the order
of the places. So it never fails because of its renaming, of a value that nothing waits for, or of a
call of the function that it begins with. -/
theorem instantiation_fails_at_first_wrong_call (env : Environment) (entry : String)
    (naming : Naming) :
    (∀ result, InstantiationEnds env entry naming result ↔
      result = Worklist.checked (instantiate env entry naming)) ∧
    (∀ e, (∃ after, InstantiationEnds env entry naming (.error e, after)) ↔
      ∃ w : WrongCall env entry, w.IsFirst ∧ e = .arity w.mismatch) ∧
    ((∃ e after, InstantiationEnds env entry naming (.error e, after)) ↔
      Nonempty (WrongCall env entry)) ∧
    ∀ w : WrongCall env entry, w.mismatch.callee ≠ entry ∧
      (InternalError.arity w.mismatch).message =
        "ICE: `" ++ w.call.callee ++ "` takes " ++ toString w.callee.parameters.length ++
          " arguments but was applied to " ++ toString w.call.args.length := by
  have hfails : ∀ e, (∃ after, InstantiationEnds env entry naming (.error e, after)) ↔
      ∃ w : WrongCall env entry, w.IsFirst ∧ e = .arity w.mismatch := by
    intro e
    simp only [instantiationEnds_iff]
    constructor
    · rintro ⟨after, heq⟩
      obtain ⟨mismatch, hresult, rfl⟩ := Worklist.exists_mismatch_of_eq_checked heq
      obtain ⟨w, hleast, rfl⟩ := instantiate_eq_error_iff.mp hresult
      exact ⟨w, hleast, rfl⟩
    · rintro ⟨w, hleast, rfl⟩
      have hresult : (instantiate env entry naming).1 = .error w.mismatch :=
        instantiate_eq_error_iff.mpr ⟨w, hleast, rfl⟩
      refine ⟨(instantiate env entry naming).2, ?_⟩
      rw [Worklist.checked, hresult]
      rfl
  refine ⟨fun _ => instantiationEnds_iff, hfails, ?_, fun w => ⟨w.callee_ne_entry, rfl⟩⟩
  constructor
  · rintro ⟨e, hends⟩
    obtain ⟨w, -⟩ := (hfails e).mp hends
    exact ⟨w⟩
  · rintro ⟨w⟩
    obtain ⟨first, hfirst⟩ := w.exists_first
    exact ⟨_, (hfails _).mpr ⟨first, hfirst, rfl⟩⟩

/-- The functions `f` and `g`, of which `f` calls `g` with an argument that `g` does not take, and
`g` calls `f`. -/
def crossedCalls : Environment :=
  (Table.empty.insert "f" ⟨[], none, [.call ⟨"g", [none], none, .alwaysTrue, none⟩]⟩).insert "g"
    ⟨[], none, [.call ⟨"f", [], none, .alwaysTrue, none⟩]⟩

/-- The call of `g` is wrong on the path from `f`, and recursive on the path from `g`. -/
example : (instantiate crossedCalls "f" .new).1 = .error ⟨"g", 0, 1⟩ ∧
    (instantiate crossedCalls "g" .new).1 = .ok () := by
  decide +kernel

end SummaryInlining
