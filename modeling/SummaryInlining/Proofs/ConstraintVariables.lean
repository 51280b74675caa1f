import SummaryInlining.Proofs.Sources

/-!
# The variables of emitted constraints

A constraint belongs to the expansion of one function, its owner. Its variables are names that the
owner has given in its own scope, or they stand in what has been handed to the owner: an argument,
a value that has come back, or the path condition (`mem_own_or_handed`). What is handed on goes back
to names that were given along the path, and to what the expansion began with in the end
(`mem_reads_or_given`).

What a source reads in the scope of a path stands in the summary of the function at its end
(`readIn_of_mem_reads`): in a parameter, in the result, in a call, or in the requirement that the
source is.
-/

set_option autoImplicit false

namespace SummaryInlining

/-- The name of a variable that is read in the scope of the function at the end of a path. -/
def nameOf (site : CallSite) (names : Naming) (read : CallPath × Var) : Var :=
  ⟨read.2.sort, read.1.number site names read.2⟩

namespace Source

/-- The path of the function whose expansion emits the constraint of a source. -/
def owner : Source → CallPath
  | requirement p _ _ => p
  | parameter p _ _ _ _ => p
  | result caller _ _ _ _ _ => caller

/-- The variables of the owner that it puts into the constraint. -/
def own : Source → List Var
  | requirement _ _ r => r.condition.occurrences ++ r.assuming.occurrences
  | parameter _ _ _ formal _ => formal.occurrences
  | result _ _ call _ captured _ => captured :: call.assuming.occurrences

/-- The variables of the expressions that have been handed to the owner: the argument that
a parameter is bound to, the value that a result is bound to, and the path condition. -/
def handed (site : CallSite) (names : Naming) : Source → List Var
  | requirement p _ _ => (p.guard site names).occurrences
  | parameter p _ _ _ actual =>
    (p.fromCaller site names actual).occurrences ++ (p.guard site names).occurrences
  | result caller position call callee _ value =>
    (value.rename ((CallPath.step caller position call callee).number site names)).occurrences ++
      (caller.guard site names).occurrences

/-- The variables of the constraint of a source. -/
def occurrences (site : CallSite) (names : Naming) (source : Source) : List Var :=
  (Constraint.require (source.constraint site names)).occurrences

section

variable {site : CallSite} {names : Naming} {source : Source} {v : Var}

/-- A variable of a constraint is a name that its owner has given, or has been handed to it. -/
theorem mem_own_or_handed (hv : v ∈ source.occurrences site names) :
    v ∈ source.own.map (fun u => nameOf site names (source.owner, u)) ∨
      v ∈ source.handed site names := by
  cases source with
  | requirement p position r =>
    simp only [occurrences, constraint, Constraint.occurrences, Term.occurrences_conjoin,
      Term.occurrences_rename, List.mem_append] at hv
    simp only [own, owner, handed, List.map_append, List.mem_append]
    rcases hv with hv | hv | hv
    · exact .inl (.inl hv)
    · exact .inr hv
    · exact .inl (.inr hv)
  | parameter p position sort formal actual =>
    simp only [occurrences, constraint, Constraint.occurrences, Term.occurrences_equate,
      Term.occurrences_rename, List.mem_append] at hv
    simp only [own, owner, handed, List.mem_append]
    rcases hv with (hv | hv) | hv
    · exact .inl hv
    · exact .inr (.inl hv)
    · exact .inr (.inr hv)
  | result caller position call callee captured value =>
    simp only [occurrences, constraint, Constraint.occurrences, Term.occurrences_equate,
      CallPath.guard, Term.occurrences_conjoin, Term.occurrences, List.mem_append,
      List.mem_singleton] at hv
    simp only [own, owner, handed, List.map_cons, List.mem_cons, List.mem_append]
    rw [Term.occurrences_rename _ call.assuming] at hv
    rcases hv with (hv | hv) | hv | hv
    · exact .inl (.inl hv)
    · exact .inr (.inl hv)
    · exact .inr (.inr hv)
    · exact .inl (.inr hv)

/-- The owner of a valid source is in the call tree. -/
theorem Valid.owner {entry : String} (h : source.Valid site entry) :
    source.owner.Valid site.env site.active entry := by
  cases source with
  | requirement p position r => exact h.1.1
  | parameter p position sort formal actual => exact h.1
  | result caller position call callee captured value => exact h.1.1

/-- What its owner puts into a constraint is read by the source. -/
theorem mem_reads_of_mem_own {u : Var} (hu : u ∈ source.own) :
    (source.owner, u) ∈ source.reads := by
  cases source with
  | requirement p position r =>
    exact List.mem_append_right _ (List.mem_map_of_mem hu)
  | parameter p position sort formal actual =>
    exact List.mem_append_left _ (List.mem_append_right _ (List.mem_map_of_mem hu))
  | result caller position call callee captured value =>
    rcases List.mem_cons.mp hu with rfl | hu
    · exact List.mem_append_right _ List.mem_cons_self
    · refine List.mem_append_left _ (List.mem_append_left _ (List.mem_append_right _ ?_))
      exact List.mem_map_of_mem (List.mem_append_left _ hu)

/-- A variable of a guard is a name that was given on the path, or one of the guard that the
expansion began with. -/
theorem mem_reads_or_guard {p : CallPath} (hv : v ∈ (p.guard site names).occurrences) :
    v ∈ p.reads.map (nameOf site names) ∨ v ∈ site.guard.occurrences := by
  induction p with
  | root name summary => exact .inr hv
  | step caller position call callee ih =>
    rw [CallPath.guard, Term.occurrences_conjoin, Term.occurrences_rename, List.mem_append] at hv
    rw [CallPath.reads, List.map_append, List.mem_append]
    rcases hv with hv | hv
    · exact (ih hv).imp_left .inl
    · obtain ⟨u, hu, rfl⟩ := List.mem_map.mp hv
      have hread : (caller, u) ∈ (call.assuming.occurrences ++
          Expr.listOccurrences call.args).map (caller, ·) :=
        List.mem_map_of_mem (List.mem_append_left _ hu)
      exact .inl (.inr (List.mem_map_of_mem hread))

/-- The variables of an argument are names that were given by the caller, or they stand in what the
expansion began with. -/
theorem mem_reads_or_args {p : CallPath} {s : ValueSort} {actual : Term s}
    (hactual : some ⟨s, actual⟩ ∈ p.givenArgs site)
    (hv : v ∈ (p.fromCaller site names actual).occurrences) :
    v ∈ (p.callerReads actual.occurrences).map (nameOf site names) ∨
      v ∈ Expr.listOccurrences site.args := by
  cases p with
  | root name summary => exact .inr (List.mem_flatMap.mpr ⟨_, hactual, hv⟩)
  | step caller position call callee =>
    rw [CallPath.fromCaller, Term.occurrences_rename] at hv
    obtain ⟨u, hu, rfl⟩ := List.mem_map.mp hv
    exact .inl (List.mem_map_of_mem (List.mem_map_of_mem hu))

/-- A variable of a constraint is a name that was given for a variable that its source reads, or it
stands in what the expansion began with. -/
theorem mem_reads_or_given (hstands : source.Stands site)
    (hv : v ∈ source.occurrences site names) :
    v ∈ source.reads.map (nameOf site names) ∨ v ∈ Expr.listOccurrences site.args ∨
      v ∈ site.guard.occurrences := by
  rcases mem_own_or_handed hv with hown | hhanded
  · obtain ⟨u, hu, rfl⟩ := List.mem_map.mp hown
    exact .inl (List.mem_map_of_mem (mem_reads_of_mem_own hu))
  · cases source with
    | requirement p position r =>
      rw [reads, List.map_append, List.mem_append]
      exact (mem_reads_or_guard hhanded).imp .inl .inr
    | parameter p position sort formal actual =>
      rw [reads, List.map_append, List.map_append, List.mem_append, List.mem_append]
      rcases List.mem_append.mp hhanded with hv | hv
      · exact (mem_reads_or_args (List.mem_of_getElem? hstands.2) hv).imp .inr .inl
      · exact (mem_reads_or_guard hv).imp (fun h => .inl (.inl h)) .inr
    | result caller position call callee captured value =>
      rw [reads, CallPath.reads, List.map_append, List.map_append, List.map_append,
        List.mem_append, List.mem_append, List.mem_append]
      rcases List.mem_append.mp hhanded with hv | hv
      · rw [Term.occurrences_rename] at hv
        obtain ⟨u, hu, rfl⟩ := List.mem_map.mp hv
        exact .inl (.inl (.inr (List.mem_map_of_mem (List.mem_map_of_mem hu))))
      · exact (mem_reads_or_guard hv).imp (fun h => .inl (.inl (.inl h))) .inr

end

end Source

/-! ## What is read stands in a summary -/

/-- The variable stands in a call of the function at the end of the path. -/
def CallPath.StandsInCall (p : CallPath) (v : Var) : Prop :=
  ∃ (position : Nat) (call : Call (Option SourceLocation)),
    p.summary.constraints[position]? = some (.call call) ∧ v ∈ (Constraint.call call).occurrences

/-- Where a variable stands that a source reads in the scope of a path. -/
inductive ReadIn (source : Source) (p : CallPath) (v : Var) : Prop where
  | requirement {position : Nat} {r : Requirement (Option SourceLocation)}
    (hsource : source = .requirement p position r)
    (hv : v ∈ (Constraint.require r).occurrences)
  | parameter (hv : v ∈ Expr.listOccurrences p.summary.parameters)
  | result (hv : v ∈ Expr.optionOccurrences p.summary.result)
  | call (hv : p.StandsInCall v)

section

variable {site : CallSite} {entry : String}

/-- What the calls along a path read stands in a call of a function on the path. -/
theorem CallPath.standsInCall_of_mem_reads {p q : CallPath} {v : Var}
    (hp : p.Valid site.env site.active entry) (hr : (q, v) ∈ p.reads) :
    q.Valid site.env site.active entry ∧ q.StandsInCall v := by
  induction p with
  | root name summary => exact absurd hr List.not_mem_nil
  | step caller position call callee ih =>
    obtain ⟨hcaller, hget, -⟩ := hp
    rw [reads, List.mem_append] at hr
    rcases hr with hr | hr
    · exact ih hcaller hr
    · obtain ⟨u, hu, heq⟩ := List.mem_map.mp hr
      cases heq
      refine ⟨hcaller, position, call, hget, ?_⟩
      rw [Constraint.occurrences, List.mem_append, List.mem_append]
      exact (List.mem_append.mp hu).elim .inr fun hu => .inl (.inl hu)

/-- The variables of an argument stand in the call. -/
theorem CallPath.standsInCall_of_mem_callerReads {p q : CallPath} {v : Var} {actual : Expr}
    (hp : p.Valid site.env site.active entry) (hactual : some actual ∈ p.givenArgs site)
    (hr : (q, v) ∈ p.callerReads actual.occurrences) :
    q.Valid site.env site.active entry ∧ q.StandsInCall v := by
  cases p with
  | root name summary => exact absurd hr List.not_mem_nil
  | step caller position call callee =>
    obtain ⟨hcaller, hget, -⟩ := hp
    obtain ⟨u, hu, heq⟩ := List.mem_map.mp hr
    cases heq
    refine ⟨hcaller, position, call, hget, ?_⟩
    rw [Constraint.occurrences, List.mem_append, List.mem_append]
    exact .inl (.inl (List.mem_flatMap.mpr ⟨some actual, hactual, hu⟩))

/-- What a source reads in the scope of a path stands in the summary at the end of this path. -/
theorem Source.readIn_of_mem_reads {source : Source} {q : CallPath} {v : Var}
    (hsource : source.Valid site entry) (hr : (q, v) ∈ source.reads) :
    q.Valid site.env site.active entry ∧ ReadIn source q v := by
  obtain ⟨hvisit, hstands⟩ := hsource
  cases source with
  | requirement p position r =>
    rcases List.mem_append.mp hr with hr | hr
    · exact (CallPath.standsInCall_of_mem_reads hvisit.1 hr).imp_right .call
    · obtain ⟨u, hu, heq⟩ := List.mem_map.mp hr
      cases heq
      exact ⟨hvisit.1, .requirement rfl hu⟩
  | parameter p position sort formal actual =>
    obtain ⟨hformal, hactual⟩ := hstands
    rw [reads, List.mem_append, List.mem_append] at hr
    rcases hr with (hr | hr) | hr
    · exact (CallPath.standsInCall_of_mem_reads hvisit hr).imp_right .call
    · obtain ⟨u, hu, heq⟩ := List.mem_map.mp hr
      cases heq
      exact ⟨hvisit, .parameter (List.mem_flatMap.mpr ⟨_, List.mem_of_getElem? hformal, hu⟩)⟩
    · exact (CallPath.standsInCall_of_mem_callerReads hvisit (List.mem_of_getElem? hactual)
        hr).imp_right .call
  | result caller position call callee captured value =>
    obtain ⟨hcaptured, hvalue⟩ := hstands
    have hcaller : caller.Valid site.env site.active entry := hvisit.1
    rw [reads, List.mem_append, List.mem_append] at hr
    rcases hr with (hr | hr) | hr
    · exact (CallPath.standsInCall_of_mem_reads hvisit hr).imp_right .call
    · obtain ⟨u, hu, heq⟩ := List.mem_map.mp hr
      cases heq
      refine ⟨hvisit, .result ?_⟩
      rw [CallPath.summary, hvalue]
      exact hu
    · cases List.mem_singleton.mp hr
      refine ⟨hcaller, .call ⟨position, call, hvisit.2.1, ?_⟩⟩
      rw [Constraint.occurrences, hcaptured, List.mem_append, List.mem_append]
      exact .inl (.inr (List.mem_singleton_self v))

end

end SummaryInlining
