import SummaryInlining.Proofs.ConstraintVariables
import SummaryInlining.Proofs.Execution
import SummaryInlining.Proofs.Interpretation

/-!
# Flattening preserves meaning

A family of valuations, one for every node of a call tree, solves the tree when every node meets its
requirements, its parameters have the values of their arguments, and its value is that of the
captured result, each under the assumptions of the calls that lead there (`Solves`). The
constraints of an instantiation say the same about one valuation of the new names.

Reading a valuation of the new names through the renaming of every node gives a family, and the
constraints hold exactly when that family solves the tree and the parameters of the root have the
values that the root scope gives them (`satisfies_iff_solves`). This needs no freshness. Freshness
is what makes the converse complete: because no two scopes share a name, the valuations of a family
can be put together into one (`exists_valuation_of_family`).
-/

set_option autoImplicit false

namespace SummaryInlining

variable {I : Interpretation}

/-- The valuation meets every constraint: its condition holds whenever its assumption does. -/
def Satisfies (ν : I.Valuation) (constraints : List InstantiatedConstraint) : Prop :=
  ∀ c ∈ constraints, c.assuming.eval I ν → c.condition.eval I ν

/-- The calls that lead to a node take place: each assumption holds in the valuation of its
caller. -/
def CallPath.Reached (F : CallPath → I.Valuation) : CallPath → Prop
  | root _ _ => True
  | step caller _ call _ => caller.Reached F ∧ call.assuming.eval I (F caller)

/-- A family of valuations, one for each node, solves the call tree of `entry`. -/
structure Solves (env : Environment) (entry : String) (F : CallPath → I.Valuation) : Prop where
  /-- A requirement of a node that is reached holds whenever its assumption does. -/
  requirement : ∀ (p : CallPath) (position : Nat) (r : Requirement (Option SourceLocation)),
    p.Valid env [] entry → p.summary.constraints[position]? = some (.require r) → p.Reached F →
      r.assuming.eval I (F p) → r.condition.eval I (F p)
  /-- A parameter of a node that is reached by a call has the value of its argument at the caller,
  where both are present and of one sort. -/
  parameter : ∀ (caller : CallPath) (position : Nat) (call : Call (Option SourceLocation))
    (callee : FunctionSummary) (i : Nat) (sort : ValueSort) (formal actual : Term sort),
    (CallPath.step caller position call callee).Valid env [] entry →
      callee.parameters[i]? = some (some ⟨sort, formal⟩) →
        call.args[i]? = some (some ⟨sort, actual⟩) →
          (CallPath.step caller position call callee).Reached F →
            formal.eval I (F (.step caller position call callee)) = actual.eval I (F caller)
  /-- The captured result of a call whose callee is reached has the value of the callee, where both
  are present and of one sort. -/
  result : ∀ (caller : CallPath) (position : Nat) (call : Call (Option SourceLocation))
    (callee : FunctionSummary) (captured : Var) (value : Term captured.sort),
    (CallPath.step caller position call callee).Valid env [] entry →
      call.result = some captured → callee.result = some ⟨captured.sort, value⟩ →
        (CallPath.step caller position call callee).Reached F →
          F caller captured.sort captured.id =
            value.eval I (F (.step caller position call callee))

/-- What a source says about a family of valuations. A parameter of the root has no caller in the
tree. -/
def Source.Holds (F : CallPath → I.Valuation) : Source → Prop
  | requirement p _ r => p.Reached F → r.assuming.eval I (F p) → r.condition.eval I (F p)
  | parameter (.root _ _) _ _ _ _ => True
  | parameter (.step caller position call callee) _ _ formal actual =>
    (CallPath.step caller position call callee).Reached F →
      formal.eval I (F (.step caller position call callee)) = actual.eval I (F caller)
  | result caller position call callee captured value =>
    (CallPath.step caller position call callee).Reached F →
      F caller captured.sort captured.id = value.eval I (F (.step caller position call callee))

/-- A family solves the call tree when every source in it holds. -/
theorem solves_iff_holds (site : CallSite) (hactive : site.active = []) {entry : String}
    {F : CallPath → I.Valuation} :
    Solves site.env entry F ↔ ∀ source : Source, source.Valid site entry → source.Holds F := by
  obtain ⟨env, active, base, args, stack, guard⟩ := site
  subst hactive
  constructor
  · intro h source hsource
    cases source with
    | requirement p position r => exact h.requirement p position r hsource.1.1 hsource.1.2
    | parameter p i sort formal actual =>
      cases p with
      | root name summary => trivial
      | step caller position call callee =>
        exact h.parameter caller position call callee i sort formal actual hsource.1 hsource.2.1
          hsource.2.2
    | result caller position call callee captured value =>
      exact h.result caller position call callee captured value hsource.1 hsource.2.1 hsource.2.2
  · intro h
    refine ⟨?requirement, ?parameter, ?result⟩
    case requirement =>
      intro p position r hp hr
      exact h (.requirement p position r) ⟨⟨hp, hr⟩, trivial⟩
    case parameter =>
      intro caller position call callee i sort formal actual hp hformal hactual
      exact h (.parameter (.step caller position call callee) i sort formal actual)
        ⟨hp, hformal, hactual⟩
    case result =>
      intro caller position call callee captured value hp hcaptured hvalue
      exact h (.result caller position call callee captured value) ⟨hp, hcaptured, hvalue⟩

/-! ## Reading a valuation through the renamings -/

/-- The valuation of a node: each of its variables has the value of its name. -/
def valuationAt (site : CallSite) (names : Naming) (ν : I.Valuation) (p : CallPath) : I.Valuation :=
  fun s id => ν s (p.number site names ⟨s, id⟩)

section

variable {site : CallSite} {names : Naming} {ν : I.Valuation}

/-- A guard holds when the guard that the expansion began with does and the node is reached. -/
theorem eval_guard (p : CallPath) : (p.guard site names).eval I ν ↔
    site.guard.eval I ν ∧ p.Reached (valuationAt site names ν) := by
  induction p with
  | root name summary => exact (and_iff_left trivial).symm
  | step caller position call callee ih =>
    rw [CallPath.guard, Term.eval_conjoin, ih, Term.eval_rename, and_assoc]
    rfl

/-- What the constraint of a source says: the source holds, and if it is a parameter of the root,
the parameter has the value of the argument that is given. -/
theorem eval_constraint (hguard : site.guard.eval I ν) (source : Source) :
    ((source.constraint site names).assuming.eval I ν →
        (source.constraint site names).condition.eval I ν) ↔
      source.Holds (valuationAt site names ν) ∧
        ∀ name summary i sort (formal actual : Term sort),
          source = .parameter (.root name summary) i sort formal actual →
            formal.eval I (valuationAt site names ν (.root name summary)) = actual.eval I ν := by
  cases source with
  | requirement p position r =>
    rw [Source.constraint, Term.eval_conjoin, eval_guard, Term.eval_rename, Term.eval_rename,
      and_iff_right hguard, and_imp]
    refine (and_iff_left ?_).symm
    intro name summary i sort formal actual heq
    cases heq
  | parameter p i sort formal actual =>
    rw [Source.constraint, Term.eval_equate, eval_guard, Term.eval_rename, and_iff_right hguard]
    cases p with
    | root name summary =>
      constructor
      · intro h
        refine ⟨trivial, ?_⟩
        intro name' summary' i' sort' formal' actual' heq
        cases heq
        exact h trivial
      · exact fun h _ => h.2 name summary i sort formal actual rfl
    | step caller position call callee =>
      rw [CallPath.fromCaller, Term.eval_rename]
      refine (and_iff_left ?_).symm
      intro name summary i' sort' formal' actual' heq
      cases heq
  | result caller position call callee captured value =>
    simp only [Source.constraint]
    rw [Term.eval_equate, eval_guard, Term.eval_rename, and_iff_right hguard]
    refine (and_iff_left ?_).symm
    intro name summary i sort formal actual heq
    cases heq

end

section

variable {env : Environment} {entry : String} {summary : FunctionSummary} {naming : Naming}

/-- The valuation of the root scope. -/
def valuationOfRoot (naming names : Naming) (ν : I.Valuation) : I.Valuation :=
  fun s id => ν s (names.numberOf naming.scopes.size ⟨s, id⟩)

/-- The constraints of an instantiation hold when those of the sources in the call tree do. -/
theorem satisfies_iff_sources (hs : env.find? entry = some summary)
    (hok : (instantiate env entry naming).1 = .ok ()) (ν : I.Valuation) :
    let after := (instantiate env entry naming).2
    let site := rootSite env naming.scopes.size summary after.naming
    Satisfies ν after.constraints.toList ↔ ∀ source : Source, source.Valid site entry →
      (source.constraint site after.naming).assuming.eval I ν →
        (source.constraint site after.naming).condition.eval I ν := by
  intro after site
  have hfollows := follows_instantiate hs hok
  have hconstraints : after.constraints.toList =
      (((CallPath.root entry summary).tour env []).flatMap (Visit.sources site)).map
        (Source.constraint site after.naming) := hfollows.constraints_eq
  rw [Satisfies, hconstraints, List.forall_mem_map]
  exact forall_congr' fun source =>
    imp_congr_left (mem_flatMap_sources_iff site hs List.not_mem_nil)

/-- The arguments that an instantiation begins with are the parameters in the names of the root
scope. -/
theorem getElem?_args_rootSite (root : ScopeId) (names : Naming) (i : Nat) :
    (rootSite env root summary names).args[i]? =
      summary.parameters[i]?.map (Option.map (Expr.rename (names.numberOf root))) :=
  List.getElem?_map

/-- A parameter of the root is bound to itself in the names of the root scope. -/
theorem valid_root_parameter (hs : env.find? entry = some summary) (root : ScopeId)
    (names : Naming) {i : Nat} {e : Expr} (hi : summary.parameters[i]? = some (some e)) :
    (Source.parameter (.root entry summary) i e.sort e.term
      (e.term.rename (names.numberOf root))).Valid (rootSite env root summary names) entry :=
  ⟨⟨rfl, hs, List.not_mem_nil⟩, hi, (getElem?_args_rootSite root names i).trans (congrArg _ hi)⟩

/-- The parameters of the root have the values of the arguments that are given when they have the
values that the root scope gives them. -/
theorem root_parameters_iff (naming : Naming) (hs : env.find? entry = some summary)
    (names : Naming) (ν : I.Valuation) :
    let site := rootSite env naming.scopes.size summary names
    (∀ source : Source, source.Valid site entry →
      ∀ name summary i sort (formal actual : Term sort),
        source = .parameter (.root name summary) i sort formal actual →
          formal.eval I (valuationAt site names ν (.root name summary)) = actual.eval I ν) ↔
      ∀ e, some e ∈ summary.parameters →
        e.term.eval I (valuationAt site names ν (.root entry summary)) =
          e.term.eval I (valuationOfRoot naming names ν) := by
  intro site
  constructor
  · intro h e he
    obtain ⟨i, hi⟩ := List.mem_iff_getElem?.mp he
    have hvalue := h _ (valid_root_parameter hs naming.scopes.size names hi) _ _ _ _ _ _ rfl
    rw [Term.eval_rename] at hvalue
    exact hvalue
  · rintro h source hsource name found i sort formal actual rfl
    obtain ⟨⟨rfl, hfound, -⟩, hformal, hactual⟩ := hsource
    cases hfound.symm.trans hs
    have hrename := (getElem?_args_rootSite naming.scopes.size names i).symm.trans hactual
    rw [show summary.parameters[i]? = _ from hformal] at hrename
    cases hrename
    rw [Term.eval_rename]
    exact h ⟨sort, formal⟩ (List.mem_of_getElem? hformal)

/-- The constraints of an instantiation hold exactly when the family of valuations that is read
through the renamings solves the call tree and the parameters of the root have the values that the
root scope gives them. -/
theorem satisfies_iff_solves (hs : env.find? entry = some summary)
    (hok : (instantiate env entry naming).1 = .ok ()) (ν : I.Valuation) :
    let after := (instantiate env entry naming).2
    let F := valuationAt (rootSite env naming.scopes.size summary after.naming) after.naming ν
    Satisfies ν after.constraints.toList ↔ Solves env entry F ∧
      ∀ e, some e ∈ summary.parameters → e.term.eval I (F (.root entry summary)) =
        e.term.eval I (valuationOfRoot naming after.naming ν) := by
  intro after F
  have hsources := satisfies_iff_sources hs hok ν
  have hroot := root_parameters_iff naming hs after.naming ν
  have hholds : Solves env entry F ↔ _ :=
    solves_iff_holds (rootSite env naming.scopes.size summary after.naming) rfl
  have hguard : (rootSite env naming.scopes.size summary after.naming).guard.eval I ν :=
    (rfl : true = true)
  refine hsources.trans (Iff.trans ?_ (and_congr hholds.symm hroot))
  rw [← forall_and]
  refine forall_congr' fun source => ?_
  rw [← forall_and]
  exact forall_congr' fun _ => eval_constraint hguard source

end

/-! ## Putting a family together into one valuation -/

/-- Two families give the same values to variables that are read. -/
def Agree (F G : CallPath → I.Valuation) (reads : List (CallPath × Var)) : Prop :=
  ∀ read ∈ reads, F read.1 read.2.sort read.2.id = G read.1 read.2.sort read.2.id

section

variable {F G : CallPath → I.Valuation}

/-- Families agree on two parts of what is read if they agree on each of them. -/
theorem agree_append {reads others : List (CallPath × Var)} :
    Agree F G (reads ++ others) ↔ Agree F G reads ∧ Agree F G others :=
  List.forall_mem_append

/-- A term has the same value in families that agree on its variables. -/
theorem eval_of_agree {p : CallPath} {s : ValueSort} {e : Term s}
    (h : Agree F G (e.occurrences.map (p, ·))) : e.eval I (F p) = e.eval I (G p) :=
  Term.eval_congr fun v hv => h (p, v) (List.mem_map_of_mem hv)

/-- Families that agree on what the calls on a path read reach the same nodes on it. -/
theorem reached_of_agree {p : CallPath} (h : Agree F G p.reads) : p.Reached F ↔ p.Reached G := by
  induction p with
  | root name summary => exact Iff.rfl
  | step caller position call callee ih =>
    rw [CallPath.reads, List.map_append] at h
    obtain ⟨hcaller, hcall⟩ := agree_append.mp h
    obtain ⟨hassuming, -⟩ := agree_append.mp hcall
    exact and_congr (ih hcaller) (iff_of_eq (eval_of_agree hassuming))

/-- Families that agree on what a source reads agree on what it says. -/
theorem holds_of_agree {source : Source} (h : Agree F G source.reads) :
    source.Holds F ↔ source.Holds G := by
  cases source with
  | requirement p position r =>
    rw [Source.reads, List.map_append] at h
    obtain ⟨hp, hr⟩ := agree_append.mp h
    obtain ⟨hcondition, hassuming⟩ := agree_append.mp hr
    rw [Source.Holds, Source.Holds, reached_of_agree hp, eval_of_agree hcondition,
      eval_of_agree hassuming]
  | parameter p i sort formal actual =>
    cases p with
    | root name summary => exact Iff.rfl
    | step caller position call callee =>
      obtain ⟨hleft, hactual⟩ := agree_append.mp h
      obtain ⟨hp, hformal⟩ := agree_append.mp hleft
      rw [Source.Holds, Source.Holds, reached_of_agree hp, eval_of_agree hformal,
        eval_of_agree hactual]
  | result caller position call callee captured value =>
    obtain ⟨hleft, hcaptured⟩ := agree_append.mp h
    obtain ⟨hp, hvalue⟩ := agree_append.mp hleft
    have hresult := hcaptured (caller, captured) (List.mem_singleton_self _)
    rw [Source.Holds, Source.Holds, reached_of_agree hp, eval_of_agree hvalue, hresult]

end

/-- Valuations of different scopes can be put together into one valuation of the names that are
given in between, because no two of these names are the same. -/
theorem exists_valuation {before after : Naming} (hg : Naming.Grows before after)
    (G : ScopeId → I.Valuation) : ∃ ν : I.Valuation, ∀ (scope : ScopeId) (v : Var),
      before.find? scope v = none → after.Knows scope v →
        ν v.sort (after.numberOf scope v) = G scope v.sort v.id := by
  classical
  -- a number gets the value of the pair that it was given to, if it was given to one in between
  refine ⟨fun s id =>
    if h : ∃ pair : ScopeId × Var, Naming.NamedBetween before after pair.1 pair.2 ⟨s, id⟩ then
      G h.choose.1 s h.choose.2.id
    else G 0 s id, ?_⟩
  intro scope v hnone hknows
  have hnew := hg.namedBetween_of_knows hnone hknows
  have hexists : ∃ pair : ScopeId × Var, Naming.NamedBetween before after pair.1 pair.2
      ⟨v.sort, after.numberOf scope v⟩ := ⟨(scope, v), hnew⟩
  obtain ⟨hscope, hv⟩ := hg.injective hexists.choose_spec hnew rfl
  simp only [dif_pos hexists, hscope, hv]

/-- The valuations of a family, each in the scope of its node, and that of the root once more in the
root scope. -/
theorem exists_valuation_by_scope (env : Environment) (entry : String) (root : ScopeId)
    (F : CallPath → I.Valuation) (p : CallPath) :
    ∃ G : ScopeId → I.Valuation, G root = F p ∧
      ∀ q : CallPath, q.Valid env [] entry → G (q.scope env [] (root + 1)) = F q := by
  classical
  refine ⟨fun scope =>
    if h : ∃ q : CallPath, q.Valid env [] entry ∧ q.scope env [] (root + 1) = scope then F h.choose
    else F p, ?_, ?_⟩
  · -- every scope of the tree comes after the root scope
    refine dif_neg ?_
    rintro ⟨q, -, hscope⟩
    have hle := CallPath.le_scope env [] (root + 1) q
    rw [hscope] at hle
    exact Nat.not_succ_le_self root hle
  · intro q hq
    have hexists : ∃ q' : CallPath, q'.Valid env [] entry ∧
        q'.scope env [] (root + 1) = q.scope env [] (root + 1) := ⟨q, hq, rfl⟩
    have heq := CallPath.scope_injective hexists.choose_spec.1 hq hexists.choose_spec.2
    exact (dif_pos hexists).trans (congrArg F heq)

section

variable {env : Environment} {entry : String} {summary : FunctionSummary} {naming : Naming}

/-- A family of valuations can be put together into one valuation of the new names, which every node
and the root scope read back. -/
theorem exists_valuation_of_family (hs : env.find? entry = some summary)
    (hok : (instantiate env entry naming).1 = .ok ()) (F : CallPath → I.Valuation) :
    let after := (instantiate env entry naming).2
    let site := rootSite env naming.scopes.size summary after.naming
    ∃ ν : I.Valuation,
      (∀ source : Source, source.Valid site entry →
        Agree (valuationAt site after.naming ν) F source.reads) ∧
      ∀ v ∈ Expr.listOccurrences summary.parameters,
        valuationOfRoot naming after.naming ν v.sort v.id =
          F (.root entry summary) v.sort v.id := by
  intro after site
  have hfollows := follows_instantiate hs hok
  -- each node has a scope of its own, and each scope has numbers of its own
  obtain ⟨G, hroot, hnodes⟩ := exists_valuation_by_scope env entry naming.scopes.size F
    (.root entry summary)
  obtain ⟨ν, hν⟩ := exists_valuation (grows_instantiate env entry naming) G
  refine ⟨ν, ?_, ?_⟩
  · intro source hsource read hread
    have hmem := (mem_flatMap_sources_iff site hs List.not_mem_nil).mpr hsource
    have hvalid : read.1.Valid env [] entry := (Source.readIn_of_mem_reads hsource hread).1
    have hsize := Nat.le_of_succ_le
      (CallPath.le_scope env [] (naming.scopes.size + 1) read.1)
    have hvalue := hν _ read.2 (Naming.find?_of_size_le hsize _)
      (hfollows.covers source hmem read hread)
    exact hvalue.trans (congrFun (congrFun (hnodes read.1 hvalid) _) _)
  · intro v hv
    obtain ⟨-, -, hknows, -⟩ := rootSession_named env naming entry summary
    have hvalue := hν _ v (Naming.find?_of_size_le (Nat.le_refl _) _)
      ((hknows v hv).mono hfollows.grows)
    exact hvalue.trans (congrFun (congrFun hroot _) _)

/-- Flattening preserves meaning, whatever the operations on integers and lists do. For a known
function whose instantiation is not cut off, a valuation of the new names meets the constraints
exactly when the family that the nodes of the call tree read in it solves the tree, with the
parameters of the root as in the root scope. And every family that solves the tree is read in such
a valuation: on all variables that the tree depends on, and with the parameters of the root once
more in the root scope. -/
theorem flattening_preserves_meaning (I : Interpretation) (hs : env.find? entry = some summary)
    (hok : (instantiate env entry naming).1 = .ok ()) :
    let after := (instantiate env entry naming).2
    let site := rootSite env naming.scopes.size summary after.naming
    (∀ ν : I.Valuation, Satisfies ν after.constraints.toList ↔
      Solves env entry (valuationAt site after.naming ν) ∧
        ∀ e, some e ∈ summary.parameters →
          e.term.eval I (valuationAt site after.naming ν (.root entry summary)) =
            e.term.eval I (valuationOfRoot naming after.naming ν)) ∧
      ∀ F : CallPath → I.Valuation, Solves env entry F → ∃ ν : I.Valuation,
        Satisfies ν after.constraints.toList ∧
          (∀ source : Source, source.Valid site entry →
            Agree (valuationAt site after.naming ν) F source.reads) ∧
          ∀ v ∈ Expr.listOccurrences summary.parameters,
            valuationOfRoot naming after.naming ν v.sort v.id =
              F (.root entry summary) v.sort v.id := by
  intro after site
  refine ⟨satisfies_iff_solves hs hok, fun F hF => ?_⟩
  obtain ⟨ν, hagree, hroot⟩ := exists_valuation_of_family hs hok F
  refine ⟨ν, (satisfies_iff_solves hs hok ν).mpr ⟨?_, ?_⟩, hagree, hroot⟩
  · have hholds := (solves_iff_holds site rfl).mp hF
    refine (solves_iff_holds site rfl).mpr fun source hsource => ?_
    exact (holds_of_agree (hagree source hsource)).mpr (hholds source hsource)
  · intro e he
    -- a parameter of the root is equated to itself in the scope of the query
    obtain ⟨i, hi⟩ := List.mem_iff_getElem?.mp he
    have hread := hagree _ (valid_root_parameter hs naming.scopes.size after.naming hi)
    refine Term.eval_congr fun v hv => ?_
    have hnode := hread (.root entry summary, v)
      (List.mem_append_left _ (List.mem_append_right _ (List.mem_map_of_mem hv)))
    exact hnode.trans (hroot v (List.mem_flatMap.mpr ⟨some e, he, hv⟩)).symm

end

/-- The integers and the lists of integers. What the operations on lists answer where there is no
element is immaterial. -/
def integers : Interpretation where
  Integer := Int
  Sequence := List (Option Int)
  literal n := n
  length l := l.length
  element i l := (l[i.toNat]?.getD none).getD 0
  arith op l r :=
    match op with
    | .add => l + r
    | .sub => l - r
    | .mul => l * r
    | .div => l / r
  list es := es
  broadcast l _ := l
  order op l r :=
    match op with
    | .eq => l = r
    | .lt => l < r
    | .le => l ≤ r
    | .gt => l > r
    | .ge => l ≥ r

/-- All integers are zero, all lists are empty, and all truth values are true. -/
def zeros : integers.Valuation
  | .int, _ => (0 : Int)
  | .list, _ => ([] : List (Option Int))
  | .bool, _ => True

/-- Zeros meet the constraints of `outer`, and so every node of its call tree may have zeros. -/
theorem zeros_solve_nestedCalls :
    nestedCalls.find? "outer" = some nestedOuter ∧
      (instantiate nestedCalls "outer" .new).1 = .ok () ∧
      let after := (instantiate nestedCalls "outer" .new).2
      Satisfies zeros after.constraints.toList ∧ Solves nestedCalls "outer"
        (valuationAt (rootSite nestedCalls 0 nestedOuter after.naming) after.naming zeros) := by
  have hs : nestedCalls.find? "outer" = some nestedOuter := rfl
  have hok : (instantiate nestedCalls "outer" .new).1 = .ok () := by decide +kernel
  have hconstraints : (instantiate nestedCalls "outer" .new).2.constraints.toList =
      [⟨.compare .eq (.var .int 1) (.var .int 0), .alwaysTrue, .implied, []⟩,
        ⟨.compare .eq (.var .int 3) (.var .int 1), .var .bool 2, .implied, [none]⟩,
        ⟨.compare .lt (.var .int 3) (.literal 3), .var .bool 2, .asserted, [none, none]⟩,
        ⟨.compare .eq (.var .int 4) (.var .int 3), .var .bool 2, .implied, [none]⟩,
        ⟨.compare .lt (.var .int 4) (.literal 9), .alwaysTrue, .asserted, [none]⟩] := by
    with_unfolding_all rfl
  have hzeros : Satisfies zeros (instantiate nestedCalls "outer" .new).2.constraints.toList := by
    rw [hconstraints]
    simp [Satisfies, Term.eval, Interpretation.compare, integers, zeros]
  have hmeaning := (flattening_preserves_meaning integers hs hok).1 zeros
  exact ⟨hs, hok, hzeros, (hmeaning.mp hzeros).1⟩

end SummaryInlining
