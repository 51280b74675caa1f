import SummaryInlining.Proofs.CallTree
import SummaryInlining.Proofs.NamingGrowth

/-!
# The sources of constraints

An expansion emits constraints for three reasons: a function that is expanded requires something,
a parameter is bound to its argument, and the result of a call is bound to the value that comes
back. A `Source` is one such reason, with the call path of the function that it belongs to.
`Visit.sources` lists the sources that the walk through a call tree comes by.

`Source.constraint` is the constraint that is emitted for a source. It is put in terms of the
names that the variables of the source have in the end. Since a name never changes, it is the same
for every naming in which the variables that it reads have their names (`constraint_of_grows`).
-/

set_option autoImplicit false

namespace SummaryInlining

/-- The call that an expansion begins with. -/
structure CallSite where
  env : Environment
  /-- The functions that are being expanded around the call. -/
  active : List String
  /-- The renaming scope of the callee. -/
  base : ScopeId
  /-- The arguments, in the variables of the result. -/
  args : List (Option Expr)
  stack : CallStack
  /-- When the call takes place. -/
  guard : Term .bool

namespace CallPath

def name : CallPath → String
  | root name _ => name
  | step _ _ call _ => call.callee

/-- The functions that are being expanded around the one at the end of a path. -/
def around (active : List String) : CallPath → List String
  | root _ _ => active
  | step caller _ _ _ => caller.names ++ active

/-- The names on a path and around it are that of its last function and those around this one. -/
theorem names_append (active : List String) (p : CallPath) :
    p.names ++ active = p.name :: p.around active := by
  cases p <;> rfl

section

variable (site : CallSite) (names : Naming)

def scopeAt (p : CallPath) : ScopeId := p.scope site.env site.active site.base

/-- The number that a variable of the function at the end of a path is renamed to. -/
def number (p : CallPath) (v : Var) : Int := names.numberOf (p.scopeAt site) v

def stack : CallPath → CallStack
  | root _ _ => site.stack
  | step caller _ call _ => caller.stack.push call.location

/-- When the function at the end of a path is called. -/
def guard : CallPath → Term .bool
  | root _ _ => site.guard
  | step caller _ call _ => caller.guard.conjoin (call.assuming.rename (caller.number site names))

/-- The arguments of the function at the end of a path, in the variables of its caller. -/
def givenArgs : CallPath → List (Option Expr)
  | root _ _ => site.args
  | step _ _ call _ => call.args

/-- Puts a term of the caller of the function at the end of a path into the variables of the
result. What the expansion begins with is in these variables already. -/
def fromCaller {s : ValueSort} (e : Term s) : CallPath → Term s
  | root _ _ => e
  | step caller _ _ _ => e.rename (caller.number site names)

def passed (p : CallPath) (e : Expr) : Expr := ⟨e.sort, p.fromCaller site names e.term⟩

/-- The arguments of the function at the end of a path, in the variables of the result. -/
def args (p : CallPath) : List (Option Expr) :=
  (p.givenArgs site).map (Option.map (p.passed site names))

def value (p : CallPath) : Option Expr :=
  p.summary.result.map (Expr.rename (p.number site names))

end

/-- The function that an expansion begins with gets the arguments that are given. -/
theorem args_root (site : CallSite) (names : Naming) (name : String) (summary : FunctionSummary) :
    (root name summary).args site names = site.args := by
  have hpassed : (root name summary).passed site names = id := rfl
  rw [args, givenArgs, hpassed, Option.map_id, List.map_id]

/-- The variables of the caller of the function at the end of a path, as variables that are read
in the scope of the caller. -/
def callerReads (vs : List Var) : CallPath → List (CallPath × Var)
  | root _ _ => []
  | step caller _ _ _ => vs.map (caller, ·)

/-- The variables that the calls along a path read, each with the path of its function. -/
def reads : CallPath → List (CallPath × Var)
  | root _ _ => []
  | step caller _ call _ =>
    caller.reads ++ (call.assuming.occurrences ++ Expr.listOccurrences call.args).map (caller, ·)

end CallPath

/-- A reason for which an expansion emits a constraint. -/
inductive Source where
  /-- The function at the end of the path has this requirement at this position. -/
  | requirement (path : CallPath) (position : Nat) (r : Requirement (Option SourceLocation))
  /-- The parameter of the function at the end of the path at this position is bound to its
  argument, which is in the variables of the caller. -/
  | parameter (path : CallPath) (position : Nat) (sort : ValueSort) (formal actual : Term sort)
  /-- The result of a call, which stands at this position, is bound to the value of its callee. -/
  | result (caller : CallPath) (position : Nat) (call : Call (Option SourceLocation))
    (callee : FunctionSummary) (captured : Var) (value : Term captured.sort)

namespace Source

/-- What is emitted for a source. -/
def constraint (site : CallSite) (names : Naming) : Source → InstantiatedConstraint
  | requirement p _ r =>
    ⟨r.condition.rename (p.number site names),
      (p.guard site names).conjoin (r.assuming.rename (p.number site names)), r.origin,
      (p.stack site).push r.location⟩
  | parameter p _ _ formal actual =>
    ⟨(formal.rename (p.number site names)).equate (p.fromCaller site names actual),
      p.guard site names, .implied, p.stack site⟩
  | result caller position call callee captured value =>
    let p := CallPath.step caller position call callee
    ⟨(Term.var captured.sort (caller.number site names captured)).equate
        (value.rename (p.number site names)),
      p.guard site names, .implied, p.stack site⟩

/-- The variables that the constraint of a source depends on, each with the path of its function. -/
def reads : Source → List (CallPath × Var)
  | requirement p _ r =>
    p.reads ++ (r.condition.occurrences ++ r.assuming.occurrences).map (p, ·)
  | parameter p _ _ formal actual =>
    p.reads ++ formal.occurrences.map (p, ·) ++ p.callerReads actual.occurrences
  | result caller position call callee captured value =>
    let p := CallPath.step caller position call callee
    p.reads ++ value.occurrences.map (p, ·) ++ [(caller, captured)]

/-- The visit at which the walk comes by a source. -/
def visit : Source → Visit
  | requirement p position r => .require p position r
  | parameter p _ _ _ _ => .enter p
  | result caller position call callee _ _ => .leave (.step caller position call callee)

/-- The parameter and its argument, or the result and its value, stand where the source says. -/
def Stands (site : CallSite) : Source → Prop
  | requirement _ _ _ => True
  | parameter p position sort formal actual =>
    p.summary.parameters[position]? = some (some ⟨sort, formal⟩) ∧
      (p.givenArgs site)[position]? = some (some ⟨sort, actual⟩)
  | result _ _ call callee captured value =>
    call.result = some captured ∧ callee.result = some ⟨captured.sort, value⟩

/-- What a source says is so: its path is there, and the requirement, the parameter and its
argument, or the result and its value stand where it says. -/
def Valid (site : CallSite) (entry : String) (source : Source) : Prop :=
  source.visit.Valid site.env site.active entry ∧ source.Stands site

end Source

namespace CallPath

/-- The source of binding a parameter, if it and its argument are present and of one sort. -/
def parameterSource? (p : CallPath) : (Option Expr × Option Expr) × Nat → Option Source
  | ((some formal, some actual), position) =>
    (actual.as? formal.sort).map (.parameter p position formal.sort formal.term)
  | ((none, _), _) => none
  | ((_, none), _) => none

/-- The source of binding the result of a call, if it and the value are present and of one
sort. -/
def resultSource? : CallPath → Option Source
  | root _ _ => none
  | step caller position call callee =>
    match call.result, callee.result with
    | some captured, some value =>
      (value.as? captured.sort).map (.result caller position call callee captured)
    | _, _ => none

end CallPath

/-- The sources that the walk comes by at a visit. -/
def Visit.sources (site : CallSite) : Visit → List Source
  | enter p => (p.summary.parameters.zip (p.givenArgs site)).zipIdx.filterMap p.parameterSource?
  | require p position r => [.requirement p position r]
  | leave p => p.resultSource?.toList

/-! ## Reading names -/

/-- All variables that are read have names. -/
def Covers (site : CallSite) (names : Naming) (reads : List (CallPath × Var)) : Prop :=
  ∀ read ∈ reads, names.Knows (read.1.scopeAt site) read.2

section

variable {site : CallSite} {names later : Naming}

/-- What reads nothing needs no names. -/
theorem covers_nil : Covers site names [] := fun _ hr => absurd hr List.not_mem_nil

/-- What is read in two parts has names if both parts have. -/
theorem covers_append {reads others : List (CallPath × Var)} :
    Covers site names (reads ++ others) ↔ Covers site names reads ∧ Covers site names others :=
  List.forall_mem_append

/-- What the function at the end of a path reads has names if its variables have, in its scope. -/
theorem covers_map {p : CallPath} {vs : List Var} :
    Covers site names (vs.map (p, ·)) ↔ ∀ v ∈ vs, names.Knows (p.scopeAt site) v :=
  List.forall_mem_map

/-- What has names keeps them when more are handed out. -/
theorem Covers.mono {reads : List (CallPath × Var)} (h : Covers site names reads)
    (hg : Naming.Grows names later) : Covers site later reads :=
  fun read hr => (h read hr).mono hg

/-- A term whose variables have names is renamed in the same way by every later naming. -/
theorem rename_number_of_grows {p : CallPath} {s : ValueSort} {e : Term s}
    (h : Covers site names (e.occurrences.map (p, ·))) (hg : Naming.Grows names later) :
    e.rename (p.number site later) = e.rename (p.number site names) :=
  Term.rename_congr fun v hv => (covers_map.mp h v hv).numberOf_eq hg

/-- The guard of a call stays the same when more names are handed out. -/
theorem guard_of_grows {p : CallPath} (h : Covers site names p.reads)
    (hg : Naming.Grows names later) : p.guard site later = p.guard site names := by
  induction p with
  | root name summary => rfl
  | step caller position call callee ih =>
    rw [CallPath.reads, List.map_append] at h
    obtain ⟨hcaller, hcall⟩ := covers_append.mp h
    obtain ⟨hassuming, -⟩ := covers_append.mp hcall
    rw [CallPath.guard, CallPath.guard, ih hcaller, rename_number_of_grows hassuming hg]

/-- The variables of an argument have names once those that the calls on the path read do. -/
theorem covers_callerReads {p : CallPath} {e : Expr} (h : Covers site names p.reads)
    (he : some e ∈ p.givenArgs site) : Covers site names (p.callerReads e.occurrences) := by
  cases p with
  | root name summary => exact covers_nil
  | step caller position call callee =>
    rw [CallPath.reads, List.map_append] at h
    obtain ⟨-, hcall⟩ := covers_append.mp h
    obtain ⟨-, hargs⟩ := covers_append.mp hcall
    exact covers_map.mpr fun v hv =>
      covers_map.mp hargs v (List.mem_flatMap.mpr ⟨some e, he, hv⟩)

/-- A term of a caller is put in the same variables when more names are handed out. -/
theorem fromCaller_of_grows {p : CallPath} {s : ValueSort} {e : Term s}
    (h : Covers site names (p.callerReads e.occurrences)) (hg : Naming.Grows names later) :
    p.fromCaller site later e = p.fromCaller site names e := by
  cases p with
  | root name summary => rfl
  | step caller position call callee => exact rename_number_of_grows h hg

/-- The constraint of a source whose variables have names stays the same. -/
theorem constraint_of_grows {source : Source} (h : Covers site names source.reads)
    (hg : Naming.Grows names later) :
    source.constraint site later = source.constraint site names := by
  cases source with
  | requirement p position r =>
    rw [Source.reads, List.map_append] at h
    obtain ⟨hp, hr⟩ := covers_append.mp h
    obtain ⟨hcondition, hassuming⟩ := covers_append.mp hr
    rw [Source.constraint, Source.constraint, guard_of_grows hp hg,
      rename_number_of_grows hcondition hg, rename_number_of_grows hassuming hg]
  | parameter p position sort formal actual =>
    obtain ⟨hleft, hactual⟩ := covers_append.mp h
    obtain ⟨hp, hformal⟩ := covers_append.mp hleft
    rw [Source.constraint, Source.constraint, guard_of_grows hp hg,
      rename_number_of_grows hformal hg, fromCaller_of_grows hactual hg]
  | result caller position call callee captured value =>
    obtain ⟨hleft, hcaptured⟩ := covers_append.mp h
    obtain ⟨hp, hvalue⟩ := covers_append.mp hleft
    have hnumber : caller.number site later captured = caller.number site names captured :=
      (hcaptured _ (List.mem_singleton_self _)).numberOf_eq hg
    simp only [Source.constraint]
    rw [guard_of_grows hp hg, rename_number_of_grows hvalue hg, hnumber]

end

/-! ## The sources that the walk comes by -/

namespace CallPath

/-- A parameter of another sort than its argument is no source. -/
theorem parameterSource?_of_ne (p : CallPath) (position : Nat) {formal actual : Expr}
    (h : formal.sort ≠ actual.sort) :
    p.parameterSource? ((some formal, some actual), position) = none := by
  rw [parameterSource?, Expr.as?_of_ne h.symm, Option.map_none]

/-- A result of another sort than the value is no source. -/
theorem resultSource?_of_ne (caller : CallPath) (position : Nat)
    {call : Call (Option SourceLocation)} {callee : FunctionSummary} {captured : Var}
    {value : Expr} (hcaptured : call.result = some captured) (hvalue : callee.result = some value)
    (h : captured.sort ≠ value.sort) :
    (step caller position call callee).resultSource? = none := by
  simp only [resultSource?, hcaptured, hvalue]
  rw [Expr.as?_of_ne h.symm, Option.map_none]

/-- A parameter is a source exactly if it and its argument are present and of one sort. -/
theorem parameterSource?_eq_some_iff {p : CallPath} {pair : Option Expr × Option Expr}
    {position : Nat} {source : Source} :
    p.parameterSource? (pair, position) = some source ↔ ∃ sort formal actual,
      pair = (some ⟨sort, formal⟩, some ⟨sort, actual⟩) ∧
        source = .parameter p position sort formal actual := by
  obtain ⟨formal, actual⟩ := pair
  cases formal with
  | none => simp [parameterSource?]
  | some formal =>
    cases actual with
    | none => simp [parameterSource?]
    | some actual =>
      rw [parameterSource?, Option.map_eq_some_iff]
      constructor
      · rintro ⟨term, ha, rfl⟩
        rw [Expr.as?_eq_some_iff.mp ha]
        exact ⟨formal.sort, formal.term, term, rfl, rfl⟩
      · rintro ⟨sort, formal, actual, heq, rfl⟩
        cases heq
        exact ⟨actual, Expr.as?_eq_some_iff.mpr rfl, rfl⟩

/-- A result is a source exactly if it and the value are present and of one sort. -/
theorem resultSource?_eq_some_iff {p : CallPath} {source : Source} :
    p.resultSource? = some source ↔ ∃ caller position call callee captured value,
      p = step caller position call callee ∧ call.result = some captured ∧
        callee.result = some ⟨captured.sort, value⟩ ∧
          source = .result caller position call callee captured value := by
  cases p with
  | root name summary => simp [resultSource?]
  | step caller position call callee =>
    rw [resultSource?]
    constructor
    · intro h
      split at h
      · next captured value hcaptured hvalue =>
        obtain ⟨term, ha, rfl⟩ := Option.map_eq_some_iff.mp h
        rw [Expr.as?_eq_some_iff.mp ha] at hvalue
        exact ⟨caller, position, call, callee, captured, term, rfl, hcaptured, hvalue, rfl⟩
      · cases h
    · rintro ⟨caller, position, call, callee, captured, value, heq, hcaptured, hvalue, rfl⟩
      cases heq
      simp only [hcaptured, hvalue]
      rw [Expr.as?_eq_some_iff.mpr rfl, Option.map_some]

end CallPath

/-- The walk comes by a source at its visit, where what the source says stands. -/
theorem mem_sources_iff {site : CallSite} {visit : Visit} {source : Source} :
    source ∈ visit.sources site ↔ visit = source.visit ∧ source.Stands site := by
  cases visit with
  | enter p =>
    rw [Visit.sources, List.mem_filterMap]
    constructor
    · rintro ⟨⟨pair, position⟩, hpair, hsource⟩
      obtain ⟨sort, formal, actual, rfl, rfl⟩ := CallPath.parameterSource?_eq_some_iff.mp hsource
      rw [List.mem_zipIdx_iff_getElem?, List.getElem?_zip_eq_some] at hpair
      exact ⟨rfl, hpair⟩
    · rintro ⟨hvisit, hstands⟩
      cases source with
      | requirement => cases hvisit
      | result => cases hvisit
      | parameter q position sort formal actual =>
        cases hvisit
        refine ⟨((some ⟨sort, formal⟩, some ⟨sort, actual⟩), position), ?_, ?_⟩
        · rw [List.mem_zipIdx_iff_getElem?, List.getElem?_zip_eq_some]
          exact hstands
        · exact CallPath.parameterSource?_eq_some_iff.mpr ⟨sort, formal, actual, rfl, rfl⟩
  | require p position r =>
    rw [Visit.sources, List.mem_singleton]
    constructor
    · rintro rfl
      exact ⟨rfl, trivial⟩
    · rintro ⟨hvisit, -⟩
      cases source with
      | requirement =>
        cases hvisit
        rfl
      | parameter => cases hvisit
      | result => cases hvisit
  | leave p =>
    rw [Visit.sources, Option.mem_toList, CallPath.resultSource?_eq_some_iff]
    constructor
    · rintro ⟨caller, position, call, callee, captured, value, rfl, hcaptured, hvalue, rfl⟩
      exact ⟨rfl, hcaptured, hvalue⟩
    · rintro ⟨hvisit, hstands⟩
      cases source with
      | requirement => cases hvisit
      | parameter => cases hvisit
      | result caller position call callee captured value =>
        cases hvisit
        exact ⟨caller, position, call, callee, captured, value, rfl, hstands.1, hstands.2, rfl⟩

/-- No source is come by twice at one visit. -/
theorem nodup_sources (site : CallSite) (visit : Visit) : (visit.sources site).Nodup := by
  cases visit with
  | enter p =>
    refine List.Nodup.filterMap ?_ (List.Nodup.of_map Prod.snd ?_)
    · rintro ⟨pair, position⟩ ⟨pair', position'⟩ source hsource hsource'
      obtain ⟨sort, formal, actual, rfl, rfl⟩ := CallPath.parameterSource?_eq_some_iff.mp hsource
      obtain ⟨_, _, _, rfl, heq⟩ := CallPath.parameterSource?_eq_some_iff.mp hsource'
      cases heq
      rfl
    · rw [List.zipIdx_map_snd]
      exact List.nodup_range'
  | require p position r => exact List.nodup_singleton _
  | leave p => exact Option.toList_nodup _

/-- The walk through a call tree comes by exactly the sources that are there. -/
theorem mem_flatMap_sources_iff (site : CallSite) {entry : String} {summary : FunctionSummary}
    (hs : site.env.find? entry = some summary) (ha : entry ∉ site.active) {source : Source} :
    source ∈ ((CallPath.root entry summary).tour site.env site.active).flatMap
        (Visit.sources site) ↔ source.Valid site entry := by
  rw [List.mem_flatMap]
  constructor
  · rintro ⟨visit, hv, hsource⟩
    obtain ⟨rfl, hstands⟩ := mem_sources_iff.mp hsource
    exact ⟨(CallPath.mem_tour_iff hs ha).mp hv, hstands⟩
  · rintro ⟨hv, hstands⟩
    exact ⟨source.visit, (CallPath.mem_tour_iff hs ha).mpr hv, mem_sources_iff.mpr ⟨rfl, hstands⟩⟩

/-- The walk through a call tree comes by no source twice. -/
theorem nodup_flatMap_sources (site : CallSite) (p : CallPath) :
    ((p.tour site.env site.active).flatMap (Visit.sources site)).Nodup := by
  rw [List.nodup_flatMap]
  refine ⟨fun visit _ => nodup_sources site visit, ?_⟩
  refine (CallPath.nodup_tour p).imp fun {visit other} hne source hsource hother => hne ?_
  rw [(mem_sources_iff.mp hsource).1, (mem_sources_iff.mp hother).1]

end SummaryInlining
