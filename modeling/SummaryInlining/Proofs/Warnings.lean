import SummaryInlining.Analyzer
import SummaryInlining.Proofs.AssertDetection
import SummaryInlining.Proofs.SystemVariables

/-!
# What a check warns about

A check warns about an assertion of nothing but a variable with a single occurrence in the flattened
system. The theorems of this module say what that means for the summaries. In the system a name
stands for one variable of one expansion, and a variable occurs as often as the sources that read it
say. So an assertion is warned about when its variable occurs nowhere else in the summary
(`totalUses_of_occursNowhereElse`), and when it is warned about, its variable occurs in no other
requirement of the summary (`inNoOtherRequirement_of_totalUses`). The expansions of one function
agree in both, and their warnings have one location.
-/

set_option autoImplicit false

namespace SummaryInlining

/-- An assertion of nothing but a boolean variable, at this position of a summary. -/
structure BareAssert (f : FunctionSummary) where
  position : Nat
  requirement : Requirement (Option SourceLocation)
  id : Int
  at_position : f.constraints[position]? = some (.require requirement)
  origin_eq : requirement.origin = .asserted
  condition_eq : requirement.condition = .var .bool id

namespace BareAssert

/-- The variable that is asserted. -/
def asserted {f : FunctionSummary} (a : BareAssert f) : Var := ⟨.bool, a.id⟩

/-- The variable occurs in no other requirement of the summary, and not in the assumption of this
one. -/
structure InNoOtherRequirement {f : FunctionSummary} (a : BareAssert f) : Prop where
  not_mem_assuming : a.asserted ∉ a.requirement.assuming.occurrences
  not_mem_other : ∀ {position : Nat} {r : Requirement (Option SourceLocation)},
    position ≠ a.position → f.constraints[position]? = some (.require r) →
      a.asserted ∉ (Constraint.require r).occurrences

/-- The variable occurs nowhere else in the summary. -/
structure OccursNowhereElse {f : FunctionSummary} (a : BareAssert f) : Prop where
  not_mem_parameters : a.asserted ∉ Expr.listOccurrences f.parameters
  not_mem_result : a.asserted ∉ Expr.optionOccurrences f.result
  not_mem_assuming : a.asserted ∉ a.requirement.assuming.occurrences
  not_mem_other : ∀ {position : Nat} {c : SummaryConstraint},
    position ≠ a.position → f.constraints[position]? = some c → a.asserted ∉ c.occurrences

variable {p : CallPath} (a : BareAssert p.summary) {site : CallSite} {names : Naming}
  {entry : String}

/-- The source of the assertion in the expansion at the end of a path. -/
def source : Source := .requirement p a.position a.requirement

/-- An assertion of a function that is expanded is a source. -/
theorem source_valid (hp : p.Valid site.env site.active entry) : a.source.Valid site entry :=
  ⟨⟨hp, a.at_position⟩, trivial⟩

/-- In the constraint of an assertion occur the asserted variable, what occurs in the guard, and
what occurs in its assumption. -/
theorem occurrences_source :
    a.source.occurrences site names = nameOf site names (p, a.asserted) ::
      ((p.guard site names).occurrences ++
        (a.requirement.assuming.occurrences.map (p, ·)).map (nameOf site names)) := by
  simp only [Source.occurrences, source, Source.constraint, Constraint.occurrences,
    a.condition_eq, Term.occurrences_conjoin, Term.occurrences_rename, Term.occurrences,
    List.map_map]
  rfl

/-- The constraint of an assertion depends on the asserted variable. -/
theorem mem_reads_source : (p, a.asserted) ∈ a.source.reads := by
  refine List.mem_append_right _ (List.mem_map_of_mem (List.mem_append_left _ ?_))
  rw [a.condition_eq]
  exact List.mem_singleton_self _

variable {a}

/-- A variable that occurs nowhere else stands in no call. -/
theorem OccursNowhereElse.not_standsInCall (ha : a.OccursNowhereElse) :
    ¬ p.StandsInCall a.asserted := by
  rintro ⟨position, call, hget, hv⟩
  refine ha.not_mem_other ?_ hget hv
  rintro rfl
  rw [a.at_position] at hget
  cases hget

/-- Only the assertion itself reads a variable that occurs nowhere else. -/
theorem OccursNowhereElse.eq_source {source : Source} (ha : a.OccursNowhereElse)
    (hsource : source.Valid site entry) (hr : ReadIn source p a.asserted) : source = a.source := by
  cases hr with
  | parameter hv => exact absurd hv ha.not_mem_parameters
  | result hv => exact absurd hv ha.not_mem_result
  | call hv => exact absurd hv ha.not_standsInCall
  | @requirement position r heq hv =>
    subst heq
    have hget := hsource.1.2
    by_cases hposition : position = a.position
    · subst hposition
      rw [a.at_position] at hget
      cases hget
      rfl
    · exact absurd hv (ha.not_mem_other hposition hget)

end BareAssert

/-! ## Counting occurrences -/

/-- An element occurs once in the lists of distinct things when it occurs once in one of them and in
no other one. -/
theorem count_flatMap_eq_one_iff {α β : Type} [DecidableEq β] {xs : List α} (hxs : xs.Nodup)
    {f : α → List β} {x : α} (hx : x ∈ xs) {b : β} (hb : b ∈ f x) :
    (xs.flatMap f).count b = 1 ↔ (f x).count b = 1 ∧ ∀ y ∈ xs, y ≠ x → b ∉ f y := by
  obtain ⟨before, behind, rfl⟩ := List.append_of_mem hx
  have hne : ∀ y ∈ before ++ behind, y ≠ x := by
    rintro y hy rfl
    rw [List.nodup_middle, List.nodup_cons] at hxs
    exact hxs.1 hy
  have hpos : 0 < (f x).count b := List.count_pos_iff.mpr hb
  have hzero : ((before ++ behind).flatMap f).count b = 0 ↔ ∀ y ∈ before ++ behind, b ∉ f y := by
    simp only [List.count_eq_zero, List.mem_flatMap, not_exists, not_and]
  -- the occurrences are those of `x` and those of the other elements, and `x` has one at least
  have hsplit : ((before ++ x :: behind).flatMap f).count b =
      (f x).count b + ((before ++ behind).flatMap f).count b := by
    simp only [List.flatMap_append, List.flatMap_cons, List.count_append]
    omega
  have hothers : (∀ y ∈ before ++ x :: behind, y ≠ x → b ∉ f y) ↔
      ∀ y ∈ before ++ behind, b ∉ f y := by
    constructor
    · intro h y hy
      refine h y ?_ (hne y hy)
      exact (List.mem_append.mp hy).elim (List.mem_append_left _)
        fun hy => List.mem_append_right _ (List.mem_cons_of_mem _ hy)
    · intro h y hy hyx
      rcases List.mem_append.mp hy with hy | hy
      · exact h y (List.mem_append_left _ hy)
      · exact h y (List.mem_append_right _ (List.mem_of_ne_of_mem hyx hy))
  rw [hsplit, hothers, ← hzero]
  omega

/-- The constraints of some sources as a system. -/
def Source.system (site : CallSite) (names : Naming) (sources : List Source) :
    List (Constraint CallStack) :=
  (sources.map (constraint site names)).map .require

/-- How often a variable occurs in the constraints of sources is counted source by source. -/
theorem Source.totalUses_system (site : CallSite) (names : Naming) (sources : List Source)
    (v : Var) :
    Constraint.totalUses (system site names sources) v =
      (sources.flatMap (occurrences site names)).count v := by
  rw [Constraint.totalUses, system, List.flatMap_map, List.flatMap_map]
  rfl

/-- The variables of a requirement occur in its constraint, under their names. -/
theorem Source.mem_occurrences_requirement {site : CallSite} {names : Naming} {p : CallPath}
    {position : Nat} {r : Requirement (Option SourceLocation)} {v : Var}
    (hv : v ∈ (Constraint.require r).occurrences) :
    nameOf site names (p, v) ∈ (requirement p position r).occurrences site names := by
  simp only [occurrences, constraint, Constraint.occurrences, Term.occurrences_conjoin,
    Term.occurrences_rename, List.mem_append]
  rcases List.mem_append.mp hv with hv | hv
  · exact .inl (List.mem_map_of_mem (f := fun u => nameOf site names (p, u)) hv)
  · exact .inr (.inr (List.mem_map_of_mem (f := fun u => nameOf site names (p, u)) hv))

namespace Flattens

variable {site : CallSite} {entry : String} {names : Naming} {sources : List Source}
  (h : Flattens site entry names sources) {p : CallPath} {a : BareAssert p.summary}

include h

/-- The name of an asserted variable has a single occurrence if it has one in its own constraint,
and none in those of the other sources. -/
theorem totalUses_eq_one_iff (hp : p.Valid site.env site.active entry) :
    Constraint.totalUses (Source.system site names sources)
        (nameOf site names (p, a.asserted)) = 1 ↔
      (a.source.occurrences site names).count (nameOf site names (p, a.asserted)) = 1 ∧
        ∀ other ∈ sources, other ≠ a.source →
          nameOf site names (p, a.asserted) ∉ other.occurrences site names := by
  rw [Source.totalUses_system]
  refine count_flatMap_eq_one_iff h.nodup (h.mem_iff.mpr (a.source_valid hp)) ?_
  rw [a.occurrences_source]
  exact List.mem_cons_self

/-- The asserted variable has a name after the expansion. -/
theorem knows_asserted (hp : p.Valid site.env site.active entry) (a : BareAssert p.summary) :
    names.Knows (p.scopeAt site) a.asserted :=
  h.covers (h.mem_iff.mpr (a.source_valid hp)) _ a.mem_reads_source

/-- The constraint of an assertion has the variable once when it occurs nowhere else in the
summary. -/
theorem count_source_of_occursNowhereElse (hp : p.Valid site.env site.active entry)
    (ha : a.OccursNowhereElse) :
    (a.source.occurrences site names).count (nameOf site names (p, a.asserted)) = 1 := by
  have hknows := h.knows_asserted hp a
  have hcovers : Covers site names (p.reads ++ (a.requirement.condition.occurrences ++
      a.requirement.assuming.occurrences).map (p, ·)) :=
    h.covers (h.mem_iff.mpr (a.source_valid hp))
  rw [List.map_append, covers_append, covers_append] at hcovers
  obtain ⟨hpath, -, hcovered⟩ := hcovers
  -- the path condition is made of calls, and none of them has the variable
  have hguard : nameOf site names (p, a.asserted) ∉ (p.guard site names).occurrences := by
    intro hm
    rcases Source.mem_reads_or_guard hm with hm | hm
    · have hread := h.mem_of_nameOf_mem_map hp hknows
        (fun _ hr => (CallPath.standsInCall_of_mem_reads hp hr).1) hpath hm
      exact ha.not_standsInCall (CallPath.standsInCall_of_mem_reads hp hread).2
    · rw [h.guard_eq] at hm
      exact absurd hm List.not_mem_nil
  have hassuming : nameOf site names (p, a.asserted) ∉
      (a.requirement.assuming.occurrences.map (p, ·)).map (nameOf site names) := by
    intro hm
    have hread := h.mem_of_nameOf_mem_map hp hknows (List.forall_mem_map.mpr fun _ _ => hp)
      hcovered hm
    obtain ⟨u, hu, heq⟩ := List.mem_map.mp hread
    cases heq
    exact ha.not_mem_assuming hu
  rw [a.occurrences_source, List.count_cons_self, List.count_append,
    List.count_eq_zero.mpr hguard, List.count_eq_zero.mpr hassuming]

/-- A variable that occurs nowhere else in its summary has one occurrence in the system for each
expansion, under different names. -/
theorem totalUses_of_occursNowhereElse (hp : p.Valid site.env site.active entry)
    (ha : a.OccursNowhereElse) :
    Constraint.totalUses (Source.system site names sources) (nameOf site names (p, a.asserted)) =
      1 := by
  refine (h.totalUses_eq_one_iff hp).mpr
    ⟨h.count_source_of_occursNowhereElse hp ha, fun other hother hne hm => hne ?_⟩
  have hvalid := h.mem_iff.mp hother
  have hread := h.mem_reads_of_mem_occurrences hother hp (h.knows_asserted hp a) hm
  exact ha.eq_source hvalid (Source.readIn_of_mem_reads hvalid hread).2

/-- A variable with one occurrence in the system for an expansion occurs in no other requirement of
its function: each of them would have another constraint in the same expansion. -/
theorem inNoOtherRequirement_of_totalUses (hp : p.Valid site.env site.active entry)
    (htotal : Constraint.totalUses (Source.system site names sources)
      (nameOf site names (p, a.asserted)) = 1) : a.InNoOtherRequirement := by
  obtain ⟨hcount, hothers⟩ := (h.totalUses_eq_one_iff hp).mp htotal
  constructor
  · intro hm
    rw [a.occurrences_source, List.count_cons_self, List.count_append] at hcount
    have hpos : 0 < ((a.requirement.assuming.occurrences.map (p, ·)).map
        (nameOf site names)).count (nameOf site names (p, a.asserted)) :=
      List.count_pos_iff.mpr (List.mem_map_of_mem (List.mem_map_of_mem hm))
    omega
  · intro position r hposition hget hm
    have hother : Source.requirement p position r ∈ sources := h.mem_iff.mpr ⟨⟨hp, hget⟩, trivial⟩
    refine hothers _ hother ?_ (Source.mem_occurrences_requirement hm)
    intro heq
    cases heq
    exact hposition rfl

end Flattens

/-! ## The warnings of a system -/

/-- A constraint of the system asserts nothing but a variable exactly when it comes from such an
assertion in a summary. -/
theorem Source.assertedVar?_eq_some_iff {site : CallSite} {names : Naming} {entry : String}
    {source : Source} (hsource : source.Valid site entry) {v : Var} :
    (Constraint.require (source.constraint site names)).assertedVar? = some v ↔
      ∃ (p : CallPath) (a : BareAssert p.summary), source = a.source ∧
        v = nameOf site names (p, a.asserted) := by
  rw [Constraint.assertedVar?_eq_some_iff]
  constructor
  · rintro ⟨id, hcondition, horigin, rfl⟩
    cases source with
    | requirement p position r =>
      obtain ⟨u, hu, rfl⟩ := Term.rename_eq_var hcondition
      exact ⟨p, ⟨position, r, u, hsource.1.2, horigin, hu⟩, rfl, rfl⟩
    | parameter p position sort formal actual => cases horigin
    | result caller position call callee captured value => cases horigin
  · rintro ⟨p, a, rfl, rfl⟩
    refine ⟨_, ?_, a.origin_eq, rfl⟩
    simp only [BareAssert.source, constraint, a.condition_eq]
    rfl

/-- A system has a warning at a location exactly when an expansion asserts nothing but a variable
there, and its name has one occurrence in the system. -/
theorem Flattens.mem_locations_iff {site : CallSite} {entry : String} {names : Naming}
    {sources : List Source} (h : Flattens site entry names sources) {location : SourceLocation} :
    location ∈ (unresolvedAsserts (Source.system site names sources)).map (·.location) ↔
      ∃ (p : CallPath) (a : BareAssert p.summary), p.Valid site.env site.active entry ∧
        a.requirement.location = some location ∧
        Constraint.totalUses (Source.system site names sources)
          (nameOf site names (p, a.asserted)) = 1 := by
  rw [map_location_unresolvedAsserts, List.mem_eraseDups, List.mem_filterMap]
  constructor
  · rintro ⟨c, hc, hlocation⟩
    rw [Source.system, List.map_map] at hc
    obtain ⟨source, hsource, rfl⟩ := List.mem_map.mp hc
    have hvalid := h.mem_iff.mp hsource
    unfold Constraint.unresolvedLocation? at hlocation
    split at hlocation
    · cases hlocation
    · next v hv =>
      obtain ⟨p, a, rfl, rfl⟩ := (Source.assertedVar?_eq_some_iff hvalid).mp hv
      split at hlocation
      · next htotal => exact ⟨p, a, hvalid.1.1, hlocation, htotal⟩
      · cases hlocation
  · rintro ⟨p, a, hp, hlocation, htotal⟩
    have hvalid := a.source_valid hp
    have hv : (Constraint.require (a.source.constraint site names)).assertedVar? = some _ :=
      (Source.assertedVar?_eq_some_iff hvalid).mpr ⟨p, a, rfl, rfl⟩
    refine ⟨.require (a.source.constraint site names), ?_, ?_⟩
    · exact List.mem_map_of_mem (List.mem_map_of_mem (h.mem_iff.mpr hvalid))
    · simp only [Constraint.unresolvedLocation?, hv, htotal, if_true]
      exact hlocation

/-! ## The check of an entry function -/

section

variable {env : Environment} {entry : String} {result : CheckResult}

/-- A check that succeeds instantiates the function and warns about what the constraints leave
unresolved. -/
theorem check_eq_ok (h : check env entry = .ok result) :
    (instantiate env entry .new).1 = .ok () ∧ result.warnings =
      unresolvedAsserts ((instantiate env entry .new).2.constraints.toList.map .require) := by
  cases hok : (instantiate env entry .new).1 with
  | error e =>
    simp only [check, hok] at h
    cases h
  | ok value =>
    simp only [check, hok] at h
    cases h
    exact ⟨rfl, rfl⟩

end

/-- Whenever the check of a function is not cut off: for every function that is expanded and every
assertion in its summary of nothing but a variable that occurs nowhere else there, there is one
warning at the location of the assertion. Every warning is at the location of an assertion of
nothing but a variable in the summary of a function that is expanded, and the variable occurs in no
other requirement of this summary. No two warnings have the same location. -/
theorem check_warns_about_isolated_asserts {env : Environment} {entry : String}
    {result : CheckResult} (h : check env entry = .ok result) :
    (∀ (p : CallPath) (a : BareAssert p.summary) (location : SourceLocation),
      p.Valid env [] entry → a.requirement.location = some location → a.OccursNowhereElse →
        result.warnings.countP (·.location = location) = 1) ∧
    (∀ w ∈ result.warnings, ∃ (p : CallPath) (a : BareAssert p.summary),
      p.Valid env [] entry ∧ a.requirement.location = some w.location ∧
        a.InNoOtherRequirement) ∧
    (result.warnings.map (·.location)).Nodup := by
  obtain ⟨hok, hwarnings⟩ := check_eq_ok h
  have hnodup : (result.warnings.map (·.location)).Nodup := by
    rw [hwarnings]
    exact nodup_map_location_unresolvedAsserts _
  cases hs : env.find? entry with
  | none =>
    have hnothing : result.warnings = [] := by
      rw [hwarnings, instantiate, hs]
      rfl
    refine ⟨fun p a location hp => ?_, fun w hw => ?_, hnodup⟩
    · obtain ⟨summary, hsome, -⟩ := hp.exists_root
      rw [hs] at hsome
      cases hsome
    · rw [hnothing] at hw
      exact absurd hw List.not_mem_nil
  | some summary =>
    obtain ⟨hconstraints, hflattens⟩ := flattens_instantiate hs hok
    rw [hconstraints] at hwarnings
    refine ⟨fun p a location hp hlocation ha => ?_, fun w hw => ?_, hnodup⟩
    · have hmem : location ∈ result.warnings.map (·.location) := by
        rw [hwarnings]
        exact hflattens.mem_locations_iff.mpr
          ⟨p, a, hp, hlocation, hflattens.totalUses_of_occursNowhereElse hp ha⟩
      have hcount := List.count_eq_one_of_mem hnodup hmem
      rw [List.count, List.countP_map] at hcount
      exact hcount
    · have hmem : w.location ∈ result.warnings.map (·.location) := List.mem_map_of_mem hw
      rw [hwarnings] at hmem
      obtain ⟨p, a, hp, hlocation, htotal⟩ := hflattens.mem_locations_iff.mp hmem
      exact ⟨p, a, hp, hlocation, hflattens.inNoOtherRequirement_of_totalUses hp htotal⟩

/-- Asserts a condition that was abstracted as a variable, in line 3. -/
def abstractedAssert : FunctionSummary :=
  ⟨[], none, [.require ⟨.var .bool 0, .alwaysTrue, .asserted, some ⟨"module", 3, 5⟩⟩]⟩

/-- Calls `checked` twice. -/
def twoCalls : FunctionSummary :=
  ⟨[], none, [.call ⟨"checked", [], none, .alwaysTrue, none⟩,
    .call ⟨"checked", [], none, .alwaysTrue, none⟩]⟩

/-- The functions `main` and `checked`. -/
def assertedTwice : Environment :=
  (Table.empty.insert "main" twoCalls).insert "checked" abstractedAssert

/-- The assertion in `checked` is inlined twice and warned about once. -/
theorem assertedTwice_warns_once :
    ∃ result, check assertedTwice "main" = .ok result ∧
      result.warnings.countP (·.location = ⟨"module", 3, 5⟩) = 1 := by
  have hok : (instantiate assertedTwice "main" .new).1 = .ok () := by decide +kernel
  obtain ⟨result, hresult⟩ : ∃ result, check assertedTwice "main" = .ok result := by
    rw [check, hok]
    exact ⟨_, rfl⟩
  let p : CallPath := .step (.root "main" twoCalls) 0 ⟨"checked", [], none, .alwaysTrue, none⟩
    abstractedAssert
  let a : BareAssert p.summary := ⟨0, _, 0, rfl, rfl, rfl⟩
  have hp : p.Valid assertedTwice [] "main" := by
    refine ⟨⟨rfl, rfl, List.not_mem_nil⟩, rfl, ?_⟩
    exact CallPath.callee?_eq_some_iff.mpr ⟨by decide, rfl⟩
  have ha : a.OccursNowhereElse := by
    refine ⟨List.not_mem_nil, List.not_mem_nil, List.not_mem_nil, fun {position c} hne hget => ?_⟩
    obtain ⟨hlt, -⟩ := List.getElem?_eq_some_iff.mp hget
    exact absurd (Nat.lt_one_iff.mp hlt) hne
  exact ⟨result, hresult, (check_warns_about_isolated_asserts hresult).1 p a _ hp rfl ha⟩

end SummaryInlining
