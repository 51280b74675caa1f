import SummaryInlining.Proofs.Freshness

/-!
# The variables of a flattened system

The constraints of an instantiation that is not cut off are those of the sources of its call tree,
and their variables have fresh names (`Flattens`). So a name says all about its variable: it occurs
in the constraint of a source only when the source reads this variable in the scope of this path
(`Flattens.mem_reads_of_mem_occurrences`).
-/

set_option autoImplicit false

namespace SummaryInlining

/-! ## Names of a flattened system -/

/-- These are the sources of the whole call tree of `entry`, and all names that their constraints
read are fresh. Nothing else occurs in their constraints but variables of the arguments, which have
been named in scopes that come before the call tree. -/
structure Flattens (site : CallSite) (entry : String) (names : Naming) (sources : List Source) :
    Prop where
  nodup : sources.Nodup
  mem_iff : ∀ {source}, source ∈ sources ↔ source.Valid site entry
  covers : ∀ {source}, source ∈ sources → Covers site names source.reads
  fresh : ∃ start, names.Fresh start
  args_named : ∀ {v}, v ∈ Expr.listOccurrences site.args →
    ∃ scope u, scope < site.base ∧ names.Knows scope u ∧ v.id = names.numberOf scope u
  guard_eq : site.guard.occurrences = []

/-- An instantiation that is not cut off flattens the call tree of its function. -/
theorem flattens_instantiate {env : Environment} {entry : String} {summary : FunctionSummary}
    (hs : env.find? entry = some summary) (hok : (instantiate env entry .new).1 = .ok ()) :
    let names := (instantiate env entry .new).2.naming
    let site := rootSite env 0 summary names
    let sources := ((CallPath.root entry summary).tour env []).flatMap (Visit.sources site)
    (instantiate env entry .new).2.constraints.toList = sources.map (Source.constraint site names) ∧
      Flattens site entry names sources := by
  intro names site sources
  have hfollows := follows_instantiate hs hok
  obtain ⟨-, -, hroot, -⟩ := rootSession_named env .new entry summary
  refine ⟨hfollows.constraints_eq, nodup_flatMap_sources site _,
    mem_flatMap_sources_iff site hs List.not_mem_nil, hfollows.covers _, ?_, ?_, rfl⟩
  · exact ⟨_, (grows_instantiate env entry .new).fresh
      fun _ v => Naming.find?_of_size_le (Nat.zero_le _) v⟩
  · intro v hv
    simp only [site, rootSite, Expr.listOccurrences_rename] at hv
    obtain ⟨u, hu, rfl⟩ := List.mem_map.mp hv
    exact ⟨0, u, Nat.zero_lt_one, (hroot u hu).mono hfollows.grows, rfl⟩

namespace Flattens

variable {site : CallSite} {entry : String} {names : Naming} {sources : List Source}
  (h : Flattens site entry names sources) {p : CallPath} {u : Var}

include h

/-- A name that has been given on the way to a source, or is handed to it, belongs to one variable
of one path. -/
theorem eq_of_nameOf_eq {q : CallPath} {v : Var} (hp : p.Valid site.env site.active entry)
    (hq : q.Valid site.env site.active entry) (hu : names.Knows (p.scopeAt site) u)
    (hv : names.Knows (q.scopeAt site) v)
    (heq : nameOf site names (p, u) = nameOf site names (q, v)) : p = q ∧ u = v := by
  obtain ⟨start, hfresh⟩ := h.fresh
  have hnumber := congrArg Var.id heq
  obtain ⟨hscope, rfl⟩ := hfresh.eq_of_numberOf_eq hu hv hnumber
  exact ⟨CallPath.scope_injective hp hq hscope, rfl⟩

/-- No name of a variable in the call tree occurs in the arguments, which were named before. -/
theorem nameOf_not_mem_args (hu : names.Knows (p.scopeAt site) u) :
    nameOf site names (p, u) ∉ Expr.listOccurrences site.args := by
  intro hm
  obtain ⟨start, hfresh⟩ := h.fresh
  obtain ⟨scope, v, hlt, hv, heq⟩ := h.args_named hm
  obtain ⟨rfl, -⟩ := hfresh.eq_of_numberOf_eq hu hv heq
  exact absurd hlt (Nat.not_lt.mpr (CallPath.le_scope _ _ _ p))

/-- A variable is read where its name is, as no other variable in the call tree has this name. -/
theorem mem_of_nameOf_mem_map {reads : List (CallPath × Var)}
    (hp : p.Valid site.env site.active entry) (hu : names.Knows (p.scopeAt site) u)
    (hreads : ∀ read ∈ reads, read.1.Valid site.env site.active entry)
    (hcovers : Covers site names reads)
    (hm : nameOf site names (p, u) ∈ reads.map (nameOf site names)) : (p, u) ∈ reads := by
  obtain ⟨⟨q, v⟩, hread, heq⟩ := List.mem_map.mp hm
  obtain ⟨rfl, rfl⟩ := h.eq_of_nameOf_eq hp (hreads _ hread) hu (hcovers _ hread) heq.symm
  exact hread

/-- A name occurs in the constraint of a source only when the source reads its variable. -/
theorem mem_reads_of_mem_occurrences {source : Source} (hsource : source ∈ sources)
    (hp : p.Valid site.env site.active entry) (hu : names.Knows (p.scopeAt site) u)
    (hm : nameOf site names (p, u) ∈ source.occurrences site names) : (p, u) ∈ source.reads := by
  have hvalid := h.mem_iff.mp hsource
  rcases Source.mem_reads_or_given hvalid.2 hm with hm | hm | hm
  · exact h.mem_of_nameOf_mem_map hp hu
      (fun _ hread => (Source.readIn_of_mem_reads hvalid hread).1) (h.covers hsource) hm
  · exact absurd hm (h.nameOf_not_mem_args hu)
  · rw [h.guard_eq] at hm
    exact absurd hm List.not_mem_nil

end Flattens

end SummaryInlining
