import SummaryInlining.Proofs.ConstraintVariables
import SummaryInlining.Proofs.Execution

/-!
# Instantiators that share one naming

A `Workspace` holds any number of instantiators that draw their variables from one naming. It acts
in four ways: it constructs an instantiator, opens a renaming scope, looks a variable up in a scope,
or lets an instantiator apply a function. Whatever it does, its naming grows (`grows_run`).

`Workspace.emissionsBy` lists what a run of actions emits, each constraint with its source and the
number of the action. The constraints are those of the sources (`emittedBy_eq`), and the expansions
of one run name their variables in different scopes (`scope_ne_of_mem_emissionsBy`).
-/

set_option autoImplicit false

namespace SummaryInlining

open Visit (executed)

/-- Instantiators that share one naming, each with its environment and its session. The naming of
such a session is that of the last time it was used. -/
structure Workspace where
  naming : Naming
  /-- The instantiators in the order of their construction. -/
  instantiators : List (Environment × Session)

/-- What can be done in a workspace. -/
inductive Action where
  /-- Constructs an instantiator, which instantiates the function `entry`. When that is cut off,
  there is no instantiator. -/
  | construct (env : Environment) (entry : String)
  | openScope
  | lookUp (scope : ScopeId) (v : Var)
  /-- Lets an instantiator apply a function. -/
  | apply (index : Nat) (name : String) (args : List (Option Expr)) (stack : CallStack)
    (guard : Term .bool)

/-- A constraint that is emitted by an action: its source, the call that the expansion begins with,
and the number of the action. -/
structure Emission where
  turn : Nat
  site : CallSite
  source : Source

/-- The scope of the expansion that emits a constraint. -/
def Emission.scope (e : Emission) : ScopeId := e.source.owner.scopeAt e.site

namespace Workspace

def new (supply : Supply) : Workspace := ⟨⟨supply, #[]⟩, []⟩

def act (w : Workspace) : Action → Workspace
  | .construct env entry =>
    let result := instantiate env entry w.naming
    match result.1 with
    | .ok () => ⟨result.2.naming, w.instantiators ++ [(env, result.2)]⟩
    | .error _ => ⟨result.2.naming, w.instantiators⟩
  | .openScope => ⟨w.naming.openScope.2, w.instantiators⟩
  | .lookUp scope v =>
    if scope < w.naming.scopes.size then ⟨(w.naming.renameVar scope v).2, w.instantiators⟩ else w
  | .apply index name args stack guard =>
    match w.instantiators[index]? with
    | none => w
    | some (env, session) =>
      let result := (session.named w.naming).apply env name args stack guard
      ⟨result.2.naming, w.instantiators.set index (env, result.2)⟩

def run (w : Workspace) (actions : List Action) : Workspace := actions.foldl act w

/-- The constraints that an action emits. -/
def emitted (w : Workspace) : Action → List InstantiatedConstraint
  | .construct env entry => (instantiate env entry w.naming).2.constraints.toList
  | .openScope => []
  | .lookUp _ _ => []
  | .apply index name args stack guard =>
    match w.instantiators[index]? with
    | none => []
    | some (env, session) =>
      ((session.named w.naming).apply env name args stack guard).2.constraints.toList.drop
        session.constraints.size

/-- The call that an action expands, if it expands one, and the walk that the expansion is to go
through. -/
def expansion? (w : Workspace) : Action → Option (CallSite × List Visit)
  | .construct env entry => (env.find? entry).map fun summary =>
    (rootSite env w.naming.scopes.size summary (instantiate env entry w.naming).2.naming,
      (CallPath.root entry summary).tour env [])
  | .openScope => none
  | .lookUp _ _ => none
  | .apply index name args stack guard =>
    match w.instantiators[index]? with
    | none => none
    | some (env, session) =>
      if name ∈ session.active then none
      else (env.find? name).map fun summary =>
        ((session.named w.naming).siteOf env args stack guard,
          .enter (.root name summary) ::
            (CallPath.root name summary).walk env session.active 0 summary.constraints)

/-- What an action emits, with the sources. -/
def emissions (w : Workspace) (turn : Nat) (action : Action) : List Emission :=
  match w.expansion? action with
  | none => []
  | some (site, visits) =>
    ((executed site visits).flatMap (Visit.sources site)).map (Emission.mk turn site)

/-- The constraints that the actions of a run emit. -/
def emittedBy (w : Workspace) : List Action → List InstantiatedConstraint
  | [] => []
  | action :: rest => w.emitted action ++ (w.act action).emittedBy rest

/-- What the actions of a run emit, with the sources. The actions are counted from `turn` on. -/
def emissionsBy (w : Workspace) (turn : Nat) : List Action → List Emission
  | [] => []
  | action :: rest => w.emissions turn action ++ (w.act action).emissionsBy (turn + 1) rest

/-! ## The naming of a workspace grows -/

/-- An action lets the names of a workspace grow. -/
theorem grows_act (w : Workspace) (action : Action) :
    Naming.Grows w.naming (w.act action).naming := by
  cases action with
  | construct env entry =>
    have hgrows := grows_instantiate env entry w.naming
    simp only [act]
    split <;> exact hgrows
  | openScope => exact Naming.grows_openScope w.naming
  | lookUp scope v =>
    simp only [act]
    split
    · next h => exact Naming.grows_meet h
    · exact .refl _
  | apply index name args stack guard =>
    simp only [act]
    split
    · exact .refl _
    · next env session _ =>
      exact (Session.evolves_apply env (session.named w.naming) name args stack guard).grows

/-- A run lets the names of a workspace grow. -/
theorem grows_run (w : Workspace) (actions : List Action) :
    Naming.Grows w.naming (w.run actions).naming := by
  induction actions generalizing w with
  | nil => exact .refl _
  | cons action rest ih => exact (w.grows_act action).trans (ih (w.act action))

/-! ## What a run emits -/

/-- An action that expands this call emits the constraints of the sources that it comes by. -/
structure Expands (w : Workspace) (action : Action) (site : CallSite) (visits : List Visit)
    (entry : String) (summary : FunctionSummary) : Prop where
  known : site.env.find? entry = some summary
  inactive : entry ∉ site.active
  /-- The walk is part of the walk through the call tree. -/
  subset : visits ⊆ (CallPath.root entry summary).tour site.env site.active
  /-- The scopes of the expansion have not been opened before. -/
  size_le : w.naming.scopes.size ≤ site.base
  /-- The variables that the sources read have names. -/
  covers : ∀ source ∈ (executed site visits).flatMap (Visit.sources site),
    Covers site (w.act action).naming source.reads
  emitted_eq : w.emitted action = ((executed site visits).flatMap (Visit.sources site)).map
    (Source.constraint site (w.act action).naming)

/-- Constructing an instantiator leaves the names of the instantiation, also when this is cut off.
-/
theorem naming_act_construct (w : Workspace) (env : Environment) (entry : String) :
    (w.act (.construct env entry)).naming = (instantiate env entry w.naming).2.naming := by
  simp only [act]
  split <;> rfl

/-- An action that expands a call emits what the walk through it comes by. -/
theorem expands_of_expansion?_eq_some {w : Workspace} {action : Action} {site : CallSite}
    {visits : List Visit} (h : w.expansion? action = some (site, visits)) :
    ∃ entry summary, Expands w action site visits entry summary := by
  cases action with
  | openScope => cases h
  | lookUp scope v => cases h
  | construct env entry =>
    obtain ⟨summary, hs, heq⟩ := Option.map_eq_some_iff.mp h
    cases heq
    have hfollows := (performs_instantiate w.naming hs).follows
    refine ⟨entry, summary, hs, List.not_mem_nil, List.Subset.refl _, Nat.le_succ _, ?_, ?_⟩
    · rw [naming_act_construct]
      exact hfollows.covers
    · rw [naming_act_construct]
      exact hfollows.constraints_eq
  | apply index name args stack guard =>
    simp only [expansion?] at h
    split at h
    · cases h
    · next env session hsession =>
      split at h
      · cases h
      · next ha =>
        obtain ⟨summary, hs, heq⟩ := Option.map_eq_some_iff.mp h
        cases heq
        have hfollows := ((session.named w.naming).performs_apply hs ha args stack guard).follows
        have hact : (w.act (.apply index name args stack guard)).naming =
            ((session.named w.naming).apply env name args stack guard).2.naming := by
          simp only [act, hsession]
        refine ⟨name, summary, hs, ha, ?_, Nat.le_refl _, ?_, ?_⟩
        · exact List.subset_append_left _ _
        · rw [hact]
          exact hfollows.covers
        · rw [hact]
          simp only [emitted, hsession]
          rw [hfollows.constraints_eq]
          exact List.drop_left' rfl

/-- An action that expands nothing emits nothing. -/
theorem emitted_of_expansion?_eq_none {w : Workspace} {action : Action}
    (h : w.expansion? action = none) : w.emitted action = [] := by
  cases action with
  | openScope => rfl
  | lookUp scope v => rfl
  | construct env entry =>
    rw [expansion?, Option.map_eq_none_iff] at h
    rw [emitted, instantiate, h]
    rfl
  | apply index name args stack guard =>
    simp only [expansion?] at h
    simp only [emitted]
    split at h
    · rfl
    · next env session hsession =>
      have hskip : ∃ event, (session.named w.naming).apply env name args stack guard =
          (.ok none, (session.named w.naming).log event) := by
        rw [Session.apply_eq_inlineCall]
        cases hs : env.find? name with
        | none => exact ⟨_, Session.inlineCall_of_unknown hs⟩
        | some summary =>
          split at h
          · next ha => exact ⟨_, Session.inlineCall_of_active hs ha⟩
          · rw [hs] at h
            cases h
      obtain ⟨event, hskip⟩ := hskip
      rw [hskip]
      exact List.drop_length

/-- The expansion of one action: all that it emits has the same call and the same number, and stands
in the call tree below the function that is called. -/
theorem emissions_spec (w : Workspace) (turn : Nat) (action : Action) :
    ∃ site entry, w.naming.scopes.size ≤ site.base ∧ ∀ e ∈ w.emissions turn action,
      e.turn = turn ∧ e.site = site ∧ e.source.Valid site entry ∧
        Covers site (w.act action).naming e.source.reads := by
  unfold emissions
  cases hx : w.expansion? action with
  | none =>
    exact ⟨⟨.empty, [], w.naming.scopes.size, [], [], .alwaysTrue⟩, "", Nat.le_refl _,
      fun e he => absurd he List.not_mem_nil⟩
  | some expansion =>
    obtain ⟨site, visits⟩ := expansion
    obtain ⟨entry, summary, hexpands⟩ := expands_of_expansion?_eq_some hx
    refine ⟨site, entry, hexpands.size_le, fun e he => ?_⟩
    obtain ⟨source, hsource, rfl⟩ := List.mem_map.mp he
    obtain ⟨visit, hvisit, hmem⟩ := List.mem_flatMap.mp hsource
    have htour := hexpands.subset ((List.takeWhile_sublist _).subset hvisit)
    exact ⟨rfl, rfl, (mem_flatMap_sources_iff _ hexpands.known hexpands.inactive).mp
      (List.mem_flatMap.mpr ⟨visit, htour, hmem⟩), hexpands.covers source hsource⟩

/-- An action emits the constraints of its sources. -/
theorem emitted_eq (w : Workspace) (turn : Nat) (action : Action) :
    w.emitted action = (w.emissions turn action).map fun e =>
      e.source.constraint e.site (w.act action).naming := by
  unfold emissions
  cases hx : w.expansion? action with
  | none => exact emitted_of_expansion?_eq_none hx
  | some expansion =>
    obtain ⟨entry, summary, hexpands⟩ := expands_of_expansion?_eq_some hx
    rw [hexpands.emitted_eq, List.map_map]
    rfl

/-- What a run emits comes from its own actions. Their expansions open new scopes and name what they
read. -/
theorem of_mem_emissionsBy {w : Workspace} {turn : Nat} {actions : List Action} {e : Emission}
    (he : e ∈ w.emissionsBy turn actions) :
    turn ≤ e.turn ∧ w.naming.scopes.size ≤ e.scope ∧
      Covers e.site (w.run actions).naming e.source.reads := by
  induction actions generalizing w turn with
  | nil => cases he
  | cons action rest ih =>
    rcases List.mem_append.mp he with he | he
    · obtain ⟨site, entry, hsize, hspec⟩ := w.emissions_spec turn action
      obtain ⟨hturn, hsite, -, hcovers⟩ := hspec e he
      subst hsite
      refine ⟨Nat.le_of_eq hturn.symm, Nat.le_trans hsize (CallPath.le_scope _ _ _ _), ?_⟩
      exact hcovers.mono ((w.act action).grows_run rest)
    · obtain ⟨hturn, hsize, hcovers⟩ := ih he
      exact ⟨Nat.le_of_succ_le hturn, Nat.le_trans (w.grows_act action).scopes_le hsize, hcovers⟩

/-- The constraints that a run emits are those of the sources, in the names that are given in the
end. -/
theorem emittedBy_eq (w : Workspace) (turn : Nat) (actions : List Action) :
    w.emittedBy actions = (w.emissionsBy turn actions).map fun e =>
      e.source.constraint e.site (w.run actions).naming := by
  induction actions generalizing w turn with
  | nil => rfl
  | cons action rest ih =>
    rw [emittedBy, emissionsBy, List.map_append, ih (w.act action) (turn + 1), w.emitted_eq turn]
    refine congrArg (· ++ _) (List.map_congr_left fun e he => ?_)
    obtain ⟨site, entry, -, hspec⟩ := w.emissions_spec turn action
    obtain ⟨-, rfl, -, hcovers⟩ := hspec e he
    exact (constraint_of_grows hcovers ((w.act action).grows_run rest)).symm

/-- A scope that has a name for a variable is open. -/
theorem lt_of_knows {naming : Naming} {scope : ScopeId} {v : Var} (h : naming.Knows scope v) :
    scope < naming.scopes.size := by
  by_contra hn
  obtain ⟨w, hw⟩ := h
  rw [Naming.find?_of_size_le (Nat.le_of_not_lt hn)] at hw
  cases hw

/-- The expansion of an action that names a variable has another scope than all expansions of later
actions. -/
theorem scope_ne_of_later {w : Workspace} {turn : Nat} {action : Action} {rest : List Action}
    {e f : Emission} {u : Var} (he : e ∈ w.emissions turn action)
    (hf : f ∈ (w.act action).emissionsBy (turn + 1) rest) (hu : u ∈ e.source.own) :
    e.scope ≠ f.scope := by
  obtain ⟨site, entry, -, hspec⟩ := w.emissions_spec turn action
  obtain ⟨-, rfl, -, hcovers⟩ := hspec e he
  have hlt := lt_of_knows (hcovers _ (Source.mem_reads_of_mem_own hu))
  have hle := (of_mem_emissionsBy hf).2.1
  exact Nat.ne_of_lt (Nat.lt_of_lt_of_le hlt hle)

/-- Different expansions of a run name their variables in different scopes. -/
theorem scope_ne_of_mem_emissionsBy {w : Workspace} {turn : Nat} {actions : List Action}
    {e f : Emission} {u u' : Var} (he : e ∈ w.emissionsBy turn actions)
    (hf : f ∈ w.emissionsBy turn actions) (hu : u ∈ e.source.own) (hu' : u' ∈ f.source.own)
    (hne : (e.turn, e.source.owner) ≠ (f.turn, f.source.owner)) : e.scope ≠ f.scope := by
  induction actions generalizing w turn with
  | nil => cases he
  | cons action rest ih =>
    rcases List.mem_append.mp he with he | he <;> rcases List.mem_append.mp hf with hf | hf
    · -- both are in the call tree of one action, whose nodes have different scopes
      obtain ⟨site, entry, -, hspec⟩ := w.emissions_spec turn action
      obtain ⟨heturn, hesite, hevalid, -⟩ := hspec e he
      obtain ⟨hfturn, hfsite, hfvalid, -⟩ := hspec f hf
      intro hscope
      rw [Emission.scope, Emission.scope, hesite, hfsite] at hscope
      have howner := CallPath.scope_injective hevalid.owner hfvalid.owner hscope
      exact hne (by rw [heturn, hfturn, howner])
    · exact scope_ne_of_later he hf hu
    · exact (scope_ne_of_later hf he hu').symm
    · exact ih he hf

end Workspace

end SummaryInlining
