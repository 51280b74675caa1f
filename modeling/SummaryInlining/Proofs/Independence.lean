import SummaryInlining.Analyzer
import SummaryInlining.Proofs.Execution
import SummaryInlining.Proofs.Resemblance

/-!
# What an expansion does not depend on

An expansion depends neither on the functions that it does not come to nor on the names of the
source variables. Both are instances of two expansions that run side by side (`Relabels`) with the
same count:

* the environments agree on the names that are reachable from the entry function, and no variable
  is relabelled (`instantiation_is_local`);
* the environments know the same functions, and the variables of each one are relabelled without
  confusing any two of them (`instantiation_ignores_variable_names`).
-/

set_option autoImplicit false

namespace SummaryInlining

/-- Sessions that resemble each other and have the same count cannot be told apart by what they
emit, by what they hand out and by what they log. -/
theorem Session.Resembles.eq_of_zero {a b : Session} (h : Session.Resembles 0 a b) :
    b.constraints = a.constraints ∧ b.naming.count = a.naming.count ∧ b.events = a.events := by
  refine ⟨Array.toList_inj.mp ?_, h.count_eq, Array.toList_inj.mp ?_⟩
  · rw [h.constraints_eq, Var.shift_zero]
    exact List.map_id'' Requirement.rename_id _
  · rw [h.events_eq, Var.shift_zero]
    exact List.map_id'' Event.rename_id _

/-! ## Functions that are not reached -/

/-- The names that can be reached from an entry function: its own name, and the names that the
summaries of reachable functions call. -/
inductive Reaches (env : Environment) (entry : String) : String → Prop
  | entry : Reaches env entry entry
  | callee {name : String} {summary : FunctionSummary} {call : Call (Option SourceLocation)} :
      Reaches env entry name → env.find? name = some summary →
        .call call ∈ summary.constraints → Reaches env entry call.callee

/-- The result of an instantiation, its trace and the number of variables that it hands out depend
only on the functions that can be reached from the entry function, and so does what a check
answers. Neither the order of the environment nor any other function in it matters. -/
theorem instantiation_is_local {env env' : Environment} {entry : String}
    (h : ∀ name, Reaches env entry name → env'.find? name = env.find? name)
    {naming naming' : Naming} (hcount : naming'.count = naming.count) :
    (instantiate env' entry naming').1 = (instantiate env entry naming).1 ∧
      (instantiate env' entry naming').2.constraints =
        (instantiate env entry naming).2.constraints ∧
      (instantiate env' entry naming').2.naming.count =
        (instantiate env entry naming).2.naming.count ∧
      (instantiate env' entry naming').2.events = (instantiate env entry naming).2.events ∧
      check env' entry = check env entry := by
  have hrelabels : Relabels (fun _ => Var.id) {name | Reaches env entry name} env env' :=
    .of_find?_eq h fun hname hs hcall => .callee hname hs hcall
  obtain ⟨houtcome, hresembles⟩ := resembles_instantiate (n := 0) hrelabels .entry hcount
  obtain ⟨hconstraints, hcount', hevents⟩ := hresembles.eq_of_zero
  refine ⟨houtcome, hconstraints, hcount', hevents, ?_⟩
  -- a check starts from a supply of its own
  have hnew : Naming.new.count = Naming.new.count + 0 := rfl
  have hcheck := resembles_instantiate hrelabels .entry hnew
  simp only [check, hcheck.1, hcheck.2.eq_of_zero.1]

/-- The functions of `nestedCalls` in another order, with a function between them that calls
`outer`. -/
def nestedCallsAmongOthers : Environment :=
  ((Table.empty.insert "inner" nestedInner).insert "other"
    ⟨[], none, [.call ⟨"outer", [], none, .alwaysTrue, none⟩]⟩).insert "outer" nestedOuter

/-- From `outer` only `outer` and `inner` are reached. -/
theorem eq_of_reaches_nestedCalls {name : String} (h : Reaches nestedCalls "outer" name) :
    name = "outer" ∨ name = "inner" := by
  induction h with
  | entry => exact .inl rfl
  | @callee name summary call _ hs hcall ih =>
    have hsummary : summary = nestedOuter ∨ summary = nestedInner := by
      obtain rfl | rfl := ih
      · exact .inl (Option.some.inj hs).symm
      · exact .inr (Option.some.inj hs).symm
    obtain rfl | rfl := hsummary
    · rcases List.mem_cons.mp hcall with heq | hcall
      · cases heq
        exact .inr rfl
      · cases List.mem_singleton.mp hcall
    · rcases List.mem_cons.mp hcall with heq | hcall
      · cases heq
      · cases List.mem_singleton.mp hcall
        exact .inr rfl

/-- The function `outer` is instantiated with the same constraints in another order of the functions
and with one more function among them. -/
theorem nestedCalls_among_others :
    (∀ name, Reaches nestedCalls "outer" name →
      nestedCallsAmongOthers.find? name = nestedCalls.find? name) ∧
    (instantiate nestedCallsAmongOthers "outer" .new).2.constraints =
      (instantiate nestedCalls "outer" .new).2.constraints := by
  have h : ∀ name, Reaches nestedCalls "outer" name →
      nestedCallsAmongOthers.find? name = nestedCalls.find? name := by
    intro name hname
    obtain rfl | rfl := eq_of_reaches_nestedCalls hname
    · rfl
    · rfl
  exact ⟨h, (instantiation_is_local h rfl).2.1⟩

/-! ## The names of variables -/

namespace Environment

/-- The environment with the variables of each function renamed, by a map of its own for each. -/
def renameVariables (ρ : String → Var → Int) (env : Environment) : Environment where
  entries := env.entries.map fun entry => (entry.1, entry.2.rename (ρ entry.1))
  nodup := by
    rw [List.map_map]
    exact env.nodup

/-- In the renamed environment every function has its renamed summary. -/
theorem find?_renameVariables (ρ : String → Var → Int) (env : Environment) (name : String) :
    (env.renameVariables ρ).find? name =
      (env.find? name).map (FunctionSummary.rename (ρ name)) :=
  valueAt?_map (fun name => FunctionSummary.rename (ρ name)) name env.entries

/-- An environment whose variables are renamed without confusing any is a relabelling. -/
theorem relabels_renameVariables {ρ : String → Var → Int} {env : Environment}
    (h : ∀ name summary, env.find? name = some summary →
      Set.InjOn (Var.rename (ρ name)) {v | v ∈ summary.occurrences}) :
    Relabels ρ Set.univ env (env.renameVariables ρ) where
  find?_eq {name} _ := find?_renameVariables ρ env name
  injOn {name summary} _ hs := h name summary hs
  callee_mem _ _ _ := trivial

end Environment

/-- How the variables of a summary are named does not matter: an instantiation gives the same
result, with the same numbers for the new variables, when the variables of each summary are renamed
so that no two of them become the same. -/
theorem instantiation_ignores_variable_names {ρ : String → Var → Int} {env : Environment}
    (h : ∀ name summary, env.find? name = some summary →
      Set.InjOn (Var.rename (ρ name)) {v | v ∈ summary.occurrences})
    (entry : String) (naming : Naming) :
    (instantiate (env.renameVariables ρ) entry naming).1 = (instantiate env entry naming).1 ∧
      (instantiate (env.renameVariables ρ) entry naming).2.constraints =
        (instantiate env entry naming).2.constraints ∧
      (instantiate (env.renameVariables ρ) entry naming).2.naming.count =
        (instantiate env entry naming).2.naming.count ∧
      (instantiate (env.renameVariables ρ) entry naming).2.events =
        (instantiate env entry naming).2.events := by
  have hrelabels := Environment.relabels_renameVariables h
  obtain ⟨houtcome, hresembles⟩ :=
    resembles_instantiate (n := 0) hrelabels (Set.mem_univ entry) (Eq.refl naming.count)
  exact ⟨houtcome, hresembles.eq_of_zero⟩

/-- In `nestedCalls`, each function can count its variables downwards, from a start of its own. -/
theorem nestedCalls_renamed :
    (∀ name summary, nestedCalls.find? name = some summary →
      Set.InjOn (Var.rename fun v => name.length - v.id) {v | v ∈ summary.occurrences}) ∧
    ((nestedCalls.renameVariables fun name v => name.length - v.id).find? "inner").map
      FunctionSummary.parameters = some [some ⟨.int, .var .int 5⟩] ∧
    (instantiate (nestedCalls.renameVariables fun name v => name.length - v.id) "outer"
      .new).2.constraints = (instantiate nestedCalls "outer" .new).2.constraints := by
  have h : ∀ name summary, nestedCalls.find? name = some summary →
      Set.InjOn (Var.rename fun v => name.length - v.id) {v | v ∈ summary.occurrences} := by
    rintro name summary - ⟨s, i⟩ - ⟨t, j⟩ - heq
    obtain ⟨hsort, hid⟩ := Var.mk.inj heq
    simp only at hid
    rw [show i = j by omega, show s = t from hsort]
  refine ⟨h, rfl, ?_⟩
  exact (instantiation_ignores_variable_names h "outer" .new).2.1

end SummaryInlining
