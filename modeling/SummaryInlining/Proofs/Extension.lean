import Mathlib.Data.List.Flatten
import SummaryInlining.Proofs.Meaning
import SummaryInlining.Proofs.NameTranslation
import SummaryInlining.Proofs.WrongCalls

/-!
# Adding summaries

An environment that has all summaries of another one and some more can only make a system larger.
A call path stays one, because whether a call leads on is a matter of the functions on its own path.
So the call tree of a function is embedded into its call tree in the larger environment, in the
order of the walk (`walk_sublist`). Wrong calls stay wrong, and every source has its constraint in
both systems, under names that correspond one to one (`extension_only_strengthens`).
-/

set_option autoImplicit false

namespace SummaryInlining

/-- The second environment has every summary of the first one. -/
def Extends (env env' : Environment) : Prop :=
  ∀ name summary, env.find? name = some summary → env'.find? name = some summary

/-! ## The call trees -/

section

variable {env env' : Environment} (h : Extends env env') {active : List String} {entry : String}

include h

namespace CallPath

/-- A call that leads on in the smaller environment leads on to the same summary in the larger one.
-/
theorem callee?_of_extends {p : CallPath} {call : Call (Option SourceLocation)}
    {callee : FunctionSummary} (hc : p.callee? env active call = some callee) :
    p.callee? env' active call = some callee := by
  rw [callee?_eq_some_iff] at hc ⊢
  exact hc.imp_right (h _ _)

/-- A path in the smaller call tree is a path in the larger one. -/
theorem Valid.of_extends {p : CallPath} (hp : p.Valid env active entry) :
    p.Valid env' active entry := by
  induction p with
  | root name summary => exact ⟨hp.1, h _ _ hp.2.1, hp.2.2⟩
  | step caller position call callee ih =>
    obtain ⟨hcaller, hget, hc⟩ := hp
    exact ⟨ih hcaller, hget, callee?_of_extends h hc⟩

/-- The walk comes by the same visits in the same order, with further ones between them where
a call leads on that did not. -/
theorem walk_sublist (p : CallPath) (position : Nat) (constraints : List SummaryConstraint) :
    (p.walk env active position constraints).Sublist
      (p.walk env' active position constraints) := by
  induction p, position, constraints using walk_induction env active with
  | nil p position =>
    rw [walk]
    exact List.nil_sublist _
  | require p position r rest ih =>
    rw [walk, walk]
    exact ih.cons_cons _
  | skip p position call rest hc ih =>
    rw [walk_call_of_none hc]
    cases hc' : p.callee? env' active call with
    | none =>
      rw [walk_call_of_none hc']
      exact ih
    | some callee =>
      rw [walk_call_of_some hc']
      exact List.sublist_append_of_sublist_right ih
  | expand p position call callee rest hc ihinner ihrest =>
    rw [walk_call_of_some hc, walk_call_of_some (callee?_of_extends h hc)]
    exact ((ihinner.cons_cons _).append_right _).append ihrest

/-- The walk through the smaller call tree is part of the walk through the larger one, in order. -/
theorem tour_sublist (p : CallPath) : (p.tour env active).Sublist (p.tour env' active) :=
  ((walk_sublist h p 0 p.summary.constraints).cons_cons _).append_right _

end CallPath

def WrongCall.extend (w : WrongCall env entry) : WrongCall env' entry where
  path := w.path
  position := w.position
  call := w.call
  callee := w.callee
  valid := w.valid.of_extends h
  at_position := w.at_position
  known := h _ _ w.known
  not_mem := w.not_mem
  length_ne := w.length_ne

/-- An instantiation that succeeds in the larger environment succeeds in the smaller one, since a
wrong call of the smaller call tree is one of the larger tree as well. -/
theorem instantiate_ok_of_extends {naming naming' : Naming}
    (hok : (instantiate env' entry naming').1 = .ok ()) :
    (instantiate env entry naming).1 = .ok () := by
  cases hresult : (instantiate env entry naming).1 with
  | ok _ => rfl
  | error e =>
    obtain ⟨w, -, -⟩ := instantiate_eq_error_iff.mp hresult
    obtain ⟨first, hfirst⟩ := (w.extend h).exists_first
    have herror : (instantiate env' entry naming').1 = .error first.mismatch :=
      instantiate_eq_error_iff.mpr ⟨first, hfirst, rfl⟩
    rw [hok] at herror
    cases herror

end

/-! ## The names -/

/-- The scope of a node in the smaller call tree and its scope in the larger one. The root scopes,
in which the parameters of the entry function are named for its arguments, come before both. -/
def SameNode (env env' : Environment) (entry : String) (root root' s t : ScopeId) : Prop :=
  (s = root ∧ t = root') ∨ ∃ p : CallPath, p.Valid env [] entry ∧
    s = p.scope env [] (root + 1) ∧ t = p.scope env' [] (root' + 1)

namespace SameNode

variable {env env' : Environment} {entry : String} {root root' s s' t t' : ScopeId}

/-- The scopes of nodes come from the root scopes on. -/
theorem le (h : SameNode env env' entry root root' s t) : root ≤ s ∧ root' ≤ t := by
  obtain ⟨rfl, rfl⟩ | ⟨p, -, rfl, rfl⟩ := h
  · exact ⟨Nat.le_refl _, Nat.le_refl _⟩
  · exact ⟨Nat.le_of_succ_le (p.le_scope _ _ _), Nat.le_of_succ_le (p.le_scope _ _ _)⟩

/-- No node has the root scope, in which the arguments are named. -/
theorem root_ne_scope (env : Environment) (root : ScopeId) (p : CallPath) :
    root ≠ p.scope env [] (root + 1) :=
  Nat.ne_of_lt (p.le_scope env [] (root + 1))

/-- A node has one scope in the larger call tree. -/
theorem right_unique (h : SameNode env env' entry root root' s t)
    (h' : SameNode env env' entry root root' s t') : t = t' := by
  obtain ⟨rfl, rfl⟩ | ⟨p, hp, rfl, rfl⟩ := h
  · obtain ⟨-, rfl⟩ | ⟨q, -, heq, -⟩ := h'
    · rfl
    · exact absurd heq (root_ne_scope env s q)
  · obtain ⟨heq, -⟩ | ⟨q, hq, heq, rfl⟩ := h'
    · exact absurd heq.symm (root_ne_scope env root p)
    · rw [CallPath.scope_injective hp hq heq]

/-- A node has one scope in the smaller call tree. -/
theorem left_unique (hextends : Extends env env') (h : SameNode env env' entry root root' s t)
    (h' : SameNode env env' entry root root' s' t) : s = s' := by
  obtain ⟨rfl, rfl⟩ | ⟨p, hp, rfl, rfl⟩ := h
  · obtain ⟨rfl, -⟩ | ⟨q, -, -, heq⟩ := h'
    · rfl
    · exact absurd heq (root_ne_scope env' t q)
  · obtain ⟨-, heq⟩ | ⟨q, hq, rfl, heq⟩ := h'
    · exact absurd heq.symm (root_ne_scope env' root' p)
    · rw [CallPath.scope_injective (hp.of_extends hextends) (hq.of_extends hextends) heq]

end SameNode

section

variable {env env' : Environment} {entry : String} {summary : FunctionSummary}
  {naming naming' : Naming}

/-- After an instantiation that succeeds, the parameters of the entry function have names in the
root scope. -/
theorem knows_root (hs : env.find? entry = some summary)
    (hok : (instantiate env entry naming).1 = .ok ()) {v : Var}
    (hv : v ∈ Expr.listOccurrences summary.parameters) :
    (instantiate env entry naming).2.naming.Knows naming.scopes.size v := by
  obtain ⟨-, -, hknows, -⟩ := rootSession_named env naming entry summary
  exact (hknows v hv).mono (follows_instantiate hs hok).grows

/-- A renaming that takes the names of the parameters to those of the second run takes the arguments
of the first run to those of the second one. -/
theorem args_rootSite {f : Var → Int} {root root' : ScopeId} {names names' : Naming}
    (h : ∀ v ∈ Expr.listOccurrences summary.parameters,
      f ⟨v.sort, names.numberOf root v⟩ = names'.numberOf root' v) :
    (rootSite env' root' summary names').args =
      Expr.renameAll f (rootSite env root summary names).args := by
  unfold rootSite Expr.renameAll
  rw [List.map_map]
  apply List.map_congr_left
  intro e he
  cases e with
  | none => rfl
  | some e =>
    show some (e.rename _) = some ((e.rename _).rename f)
    rw [Expr.rename_rename]
    apply congrArg fun term => some (Expr.mk e.sort term)
    apply Term.rename_congr
    intro v hv
    exact (h v (List.mem_flatMap.mpr ⟨some e, he, hv⟩)).symm

/-- A renaming of all variables translates the arguments and whatever the sources of the smaller
call tree read: what they read has names in both runs, in scopes of the same node. -/
theorem exists_translation (h : Extends env env') (hs : env.find? entry = some summary)
    (hok : (instantiate env entry naming).1 = .ok ())
    (hok' : (instantiate env' entry naming').1 = .ok ()) :
    let names := (instantiate env entry naming).2.naming
    let names' := (instantiate env' entry naming').2.naming
    let site := rootSite env naming.scopes.size summary names
    let site' := rootSite env' naming'.scopes.size summary names'
    ∃ f : Var → Int, Function.Injective (Var.rename f) ∧
      site'.args = Expr.renameAll f site.args ∧
      ∀ source ∈ ((CallPath.root entry summary).tour env []).flatMap (Visit.sources site),
        Translates f site names site' names' source.reads := by
  intro names names' site site'
  have hs' := h _ _ hs
  have hfollows := follows_instantiate hs hok
  have hfollows' := follows_instantiate hs' hok'
  -- the scopes of a node in the two runs correspond, and so do the names given in them
  obtain ⟨f, hf, htranslate⟩ := Naming.exists_renaming (grows_instantiate env entry naming)
    (grows_instantiate env' entry naming') SameNode.le SameNode.right_unique
    fun hst hst' => hst.left_unique h hst'
  have hargs : site'.args = Expr.renameAll f site.args := args_rootSite fun v hv =>
    htranslate (.inl ⟨rfl, rfl⟩) (knows_root hs hok hv) (knows_root hs' hok' hv)
  refine ⟨f, hf, hargs, ?_⟩
  intro source hsource read hread
  obtain ⟨visit, hvisit, hmem⟩ := List.mem_flatMap.mp hsource
  have hsource' : source.retarget f ∈
      ((CallPath.root entry summary).tour env' []).flatMap (Visit.sources site') := by
    apply List.mem_flatMap.mpr
    refine ⟨visit, (CallPath.tour_sublist h _).subset hvisit, ?_⟩
    rw [Visit.sources_retarget hargs]
    exact List.mem_map_of_mem hmem
  have hread' : read ∈ (source.retarget f).reads := by
    rw [Source.reads_retarget]
    exact hread
  have hvalid := (mem_flatMap_sources_iff site hs List.not_mem_nil).mp hsource
  have hnode : SameNode env env' entry naming.scopes.size naming'.scopes.size
      (read.1.scopeAt site) (read.1.scopeAt site') :=
    .inr ⟨read.1, (Source.readIn_of_mem_reads hvalid hread).1, rfl, rfl⟩
  exact congrArg (Var.mk read.2.sort) (htranslate hnode
    (hfollows.covers source hsource read hread) (hfollows'.covers _ hsource' read hread'))

/-- The constraints of a known function, with their names translated, are in this order among its
constraints in the larger environment. -/
theorem exists_embedding (h : Extends env env') (hs : env.find? entry = some summary)
    (hok : (instantiate env entry naming).1 = .ok ())
    (hok' : (instantiate env' entry naming').1 = .ok ()) :
    ∃ f : Var → Int, Function.Injective (Var.rename f) ∧
      ((instantiate env entry naming).2.constraints.toList.map (Requirement.rename f)).Sublist
        (instantiate env' entry naming').2.constraints.toList := by
  obtain ⟨f, hf, hargs, htranslates⟩ := exists_translation h hs hok hok'
  have hfollows := follows_instantiate hs hok
  have hfollows' := follows_instantiate (h _ _ hs) hok'
  generalize (instantiate env entry naming).2 = after at hfollows hargs htranslates ⊢
  generalize (instantiate env' entry naming').2 = after' at hfollows' hargs htranslates ⊢
  let site := rootSite env naming.scopes.size summary after.naming
  let site' := rootSite env' naming'.scopes.size summary after'.naming
  let visits := (CallPath.root entry summary).tour env []
  have hguard : site.guard.rename f = site'.guard := rfl
  have hstack : site'.stack = site.stack := rfl
  refine ⟨f, hf, ?_⟩
  -- the renamed constraints are those of the same visits, read in the larger run
  have hsmall : after.constraints.toList.map (Requirement.rename f) =
      (visits.flatMap (Visit.sources site')).map (Source.constraint site' after'.naming) := by
    calc after.constraints.toList.map (Requirement.rename f)
        = ((visits.flatMap (Visit.sources site)).map (Source.constraint site after.naming)).map
            (Requirement.rename f) := congrArg _ hfollows.constraints_eq
      _ = ((visits.flatMap (Visit.sources site)).map (Source.retarget f)).map
            (Source.constraint site' after'.naming) := by
          rw [List.map_map, List.map_map]
          apply List.map_congr_left
          intro source hsource
          exact (constraint_retarget hguard hstack (htranslates source hsource)).symm
      _ = _ := by
          rw [List.map_flatMap]
          apply congrArg
          exact List.flatMap_congr fun visit _ => (Visit.sources_retarget hargs visit).symm
  rw [hsmall, hfollows'.constraints_eq]
  exact ((CallPath.tour_sublist h _).flatMap _).map _

end

/-- Adding summaries for further functions only strengthens the system of a function. When its
instantiation is not cut off in the larger environment, it is not cut off in the smaller one, and
some renaming, under which no two variables become the same, puts the constraints of the smaller
system in their order among those of the larger one. So a valuation that meets the larger system
meets the smaller one, read through the renaming. -/
theorem extension_only_strengthens {env env' : Environment} (h : Extends env env') (entry : String)
    (naming naming' : Naming) (hok : (instantiate env' entry naming').1 = .ok ()) :
    (instantiate env entry naming).1 = .ok () ∧
      ∃ f : Var → Int, Function.Injective (Var.rename f) ∧
        ((instantiate env entry naming).2.constraints.toList.map (Requirement.rename f)).Sublist
          (instantiate env' entry naming').2.constraints.toList ∧
        ∀ (I : Interpretation) (ν : I.Valuation),
          Satisfies ν (instantiate env' entry naming').2.constraints.toList →
            Satisfies (fun s id => ν s (f ⟨s, id⟩))
              (instantiate env entry naming).2.constraints.toList := by
  have hsmaller : (instantiate env entry naming).1 = .ok () := instantiate_ok_of_extends h hok
  have hembedding : ∃ f : Var → Int, Function.Injective (Var.rename f) ∧
      ((instantiate env entry naming).2.constraints.toList.map (Requirement.rename f)).Sublist
        (instantiate env' entry naming').2.constraints.toList := by
    cases hs : env.find? entry with
    | none =>
      -- the smaller system is empty
      refine ⟨Var.id, fun _ _ heq => heq, ?_⟩
      rw [instantiate_of_none hs]
      exact List.nil_sublist _
    | some summary => exact exists_embedding h hs hsmaller hok
  obtain ⟨f, hf, hsublist⟩ := hembedding
  refine ⟨hsmaller, f, hf, hsublist, fun I ν hν c hc hassuming => ?_⟩
  have hmem := hsublist.subset (List.mem_map_of_mem hc)
  rw [← Term.eval_rename] at hassuming ⊢
  exact hν _ hmem hassuming

/-- The function `outer` of `nestedCalls`, with an unknown function `inner`. -/
def outerAlone : Environment := Table.empty.insert "outer" nestedOuter

/-- The function `inner` can be added to `outer` alone: more constraints are emitted, and those from
before are still among them. -/
theorem outerAlone_strengthened :
    Extends outerAlone nestedCalls ∧ (instantiate nestedCalls "outer" .new).1 = .ok () ∧
    (instantiate outerAlone "outer" .new).2.constraints.size <
      (instantiate nestedCalls "outer" .new).2.constraints.size ∧
    ∃ f : Var → Int, Function.Injective (Var.rename f) ∧
      ((instantiate outerAlone "outer" .new).2.constraints.toList.map
        (Requirement.rename f)).Sublist
          (instantiate nestedCalls "outer" .new).2.constraints.toList := by
  have h : Extends outerAlone nestedCalls := by
    intro name summary hs
    by_cases hname : name = "outer"
    · subst hname
      exact hs
    · rw [outerAlone, Table.find?_insert_of_ne _ _ hname] at hs
      cases hs
  have hok : (instantiate nestedCalls "outer" .new).1 = .ok () := by decide +kernel
  obtain ⟨-, f, hf, hsublist, -⟩ := extension_only_strengthens h "outer" .new .new hok
  exact ⟨h, hok, by decide +kernel, f, hf, hsublist⟩

end SummaryInlining
