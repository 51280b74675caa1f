import SummaryInlining.Proofs.Execution

/-!
# Where the constraints of an instantiation come from

The instantiation of a function emits one constraint for every requirement, every bound parameter
and every bound result in its call tree, and none besides (`instantiate_emits_each_source_once`).
The constraint of a source is put together from the calls on the path to its function: their
locations are its stack (`stack_eq_reverse`), and their assumptions, each in the names of its own
caller, are conjoined to its guard, the outermost one first (`guard_eq_foldl`).
-/

set_option autoImplicit false

namespace SummaryInlining

namespace CallPath

/-- The calls on a path, the outermost one first, each with the path of its caller. -/
def calls : CallPath → List (CallPath × Call (Option SourceLocation))
  | root _ _ => []
  | step caller _ call _ => caller.calls ++ [(caller, call)]

/-- The stack of a path consists of the locations of its calls, the innermost one first, on top of
the stack that the expansion begins with. -/
theorem stack_eq_reverse (site : CallSite) (p : CallPath) :
    p.stack site = (p.calls.map fun c => c.2.location).reverse ++ site.stack := by
  induction p with
  | root name summary => rfl
  | step caller position call callee ih =>
    rw [stack, ih, calls, List.map_append, List.reverse_append]
    rfl

/-- The guard of a path is the conjunction of the assumptions of its calls, from the outermost one
to the innermost one, each in the names of its caller. -/
theorem guard_eq_foldl (site : CallSite) (names : Naming) (p : CallPath) :
    p.guard site names = p.calls.foldl
      (fun guard c => guard.conjoin (c.2.assuming.rename (c.1.number site names))) site.guard := by
  induction p with
  | root name summary => rfl
  | step caller position call callee ih => rw [guard, ih, calls, List.foldl_append]; rfl

/-- No function stands twice on a path. -/
theorem Valid.nodup_names {env : Environment} {active : List String} {entry : String}
    {p : CallPath} (hp : p.Valid env active entry) : p.names.Nodup := by
  induction p with
  | root name summary => exact List.nodup_singleton name
  | step caller position call callee ih =>
    obtain ⟨hcaller, -, hc⟩ := hp
    have hn := (callee?_eq_some_iff.mp hc).1
    exact List.nodup_cons.mpr ⟨fun hm => hn (List.mem_append_left _ hm), ih hcaller⟩

end CallPath

section

variable {env : Environment} {entry : String} {summary : FunctionSummary} {naming : Naming}

/-- For a known function whose instantiation is not cut off, the constraints of the instantiation
are those of the sources that the walk through the call tree comes by, in this order. The walk comes
by no source twice, and by exactly the sources that are there: the requirements of the functions at
the end of the call paths, their parameters where the argument is of the same sort, and the results
of the calls where the value is. The expansion begins with the parameters of the function itself as
arguments, in the names of a scope that no call path has. No function stands twice on a call path,
different call paths have different scopes, and every variable that a source reads has been named in
the scope of its own path. -/
theorem instantiate_emits_each_source_once (hs : env.find? entry = some summary)
    (hok : (instantiate env entry naming).1 = .ok ()) :
    let after := (instantiate env entry naming).2
    let site := rootSite env naming.scopes.size summary after.naming
    let sources := ((CallPath.root entry summary).tour env []).flatMap (Visit.sources site)
    after.constraints.toList = sources.map (Source.constraint site after.naming) ∧
      sources.Nodup ∧ (∀ source, source ∈ sources ↔ source.Valid site entry) ∧
      (∀ source ∈ sources, Covers site after.naming source.reads) ∧
      (∀ p : CallPath, naming.scopes.size < p.scopeAt site) ∧
      (∀ p : CallPath, p.Valid env [] entry → p.names.Nodup) ∧
      (∀ p q : CallPath, p.Valid env [] entry → q.Valid env [] entry →
        p.scopeAt site = q.scopeAt site → p = q) ∧
      (∀ p : CallPath, p.stack site = (p.calls.map fun c => c.2.location).reverse) ∧
      ∀ p : CallPath, p.guard site after.naming = p.calls.foldl
        (fun guard c => guard.conjoin (c.2.assuming.rename (c.1.number site after.naming)))
        .alwaysTrue := by
  intro after site sources
  have hfollows := follows_instantiate hs hok
  refine ⟨hfollows.constraints_eq, nodup_flatMap_sources site _, ?_, hfollows.covers, ?_,
    fun p hp => hp.nodup_names, ?_, ?_, ?_⟩
  · exact fun source => mem_flatMap_sources_iff site hs List.not_mem_nil
  · exact fun p => CallPath.le_scope _ _ _ p
  · exact fun p q hp hq h => CallPath.scope_injective hp hq h
  · intro p
    rw [CallPath.stack_eq_reverse]
    exact List.append_nil _
  · exact fun p => CallPath.guard_eq_foldl site after.naming p

end

/-- The instantiation of `outer` emits five constraints, of five different sources. -/
theorem nestedCalls_emit_each_source_once :
    nestedCalls.find? "outer" = some nestedOuter ∧
      (instantiate nestedCalls "outer" .new).1 = .ok () ∧
      ∃ (site : CallSite) (sources : List Source), sources.Nodup ∧ sources.length = 5 ∧
        (instantiate nestedCalls "outer" .new).2.constraints.toList =
          sources.map (Source.constraint site (instantiate nestedCalls "outer" .new).2.naming) := by
  have hs : nestedCalls.find? "outer" = some nestedOuter := rfl
  have hok : (instantiate nestedCalls "outer" .new).1 = .ok () := by decide +kernel
  have hlength : (instantiate nestedCalls "outer" .new).2.constraints.toList.length = 5 := by
    decide +kernel
  obtain ⟨hconstraints, hnodup, -⟩ := instantiate_emits_each_source_once hs hok
  rw [hconstraints, List.length_map] at hlength
  exact ⟨hs, hok, _, _, hnodup, hlength, hconstraints⟩

end SummaryInlining
