import SummaryInlining.Proofs.History
import SummaryInlining.Proofs.SummaryRenaming

/-!
# Two expansions side by side

An expansion looks at three things: at the summaries that it comes to, at the pattern in which
variables recur in each of them, and at the number of variables that have been handed out. This
module runs two expansions side by side that agree on these. Their environments know the same
functions, with the variables of each one relabelled (`Relabels`), and the supply of the second one
stands higher by `n`. Then the second expansion does what the first one does, with every number
higher by `n` (`Session.Resembles`).

The proof goes along the expansion. While a function is expanded, its scope in the second run maps
the relabelled variables as its scope in the first run maps the variables themselves
(`Naming.Resembles`). A call leaves this as it is, because an expansion names variables only in
scopes that it opens itself (`find?_inlineCall`).
-/

set_option autoImplicit false

namespace SummaryInlining

/-! ## Names -/

namespace Naming

/-- The scope `t` of the second naming maps relabelled variables as the scope `s` of the first one
maps the variables, to numbers that are higher by `n`. -/
structure Resembles (R : Relabelling) (n : Nat) (s t : ScopeId) (a b : Naming) : Prop where
  count_eq : b.count = a.count + n
  opened : s < a.scopes.size
  opened' : t < b.scopes.size
  find?_eq : ∀ v ∈ R.vars,
    b.find? t (v.rename R.number) = (a.find? s v).map (Var.rename (Var.shift n))

namespace Resembles

variable {R : Relabelling} {n : Nat} {s t : ScopeId} {a b : Naming}

/-- Two scopes that are opened side by side map nothing yet, so they resemble one another under any
relabelling. -/
theorem of_openScope (R : Relabelling) (hcount : b.count = a.count + n) :
    Resembles R n a.scopes.size b.scopes.size a.openScope.2 b.openScope.2 where
  count_eq := hcount
  opened := by simp
  opened' := by simp
  find?_eq v _ := by
    rw [find?_openScope, find?_openScope, find?_of_size_le (Nat.le_refl _),
      find?_of_size_le (Nat.le_refl _)]
    rfl

/-- Meeting a variable and its relabelled one side by side hands out numbers that are `n` apart, if
the variable is new, and nothing otherwise. -/
theorem meet (h : Resembles R n s t a b) {v : Var} (hv : v ∈ R.vars) :
    Resembles R n s t (a.meet s v) (b.meet t (v.rename R.number)) := by
  have hfind := h.find?_eq v hv
  cases ha : a.find? s v with
  | some w =>
    rw [ha] at hfind
    rw [meet_of_some ha, meet_of_some hfind]
    exact h
  | none =>
    rw [ha] at hfind
    refine ⟨?_, by simpa using h.opened, by simpa using h.opened', ?_⟩
    · rw [count_meet_of_none ha, count_meet_of_none hfind, h.count_eq]
      omega
    · intro u hu
      by_cases huv : u = v
      · subst huv
        rw [find?_meet_of_none h.opened ha, find?_meet_of_none h.opened' hfind, h.count_eq]
        rfl
      · -- the relabelling keeps `u` and `v` apart
        have hne : (s, u) ≠ (s, v) := fun heq => huv (congrArg Prod.snd heq)
        have hne' : (t, u.rename R.number) ≠ (t, v.rename R.number) :=
          fun heq => huv (R.injOn hu hv (congrArg Prod.snd heq))
        rw [find?_meet_of_ne hne, find?_meet_of_ne hne']
        exact h.find?_eq u hu

/-- Meeting several variables and their relabelled ones in order keeps the resemblance. -/
theorem cover (h : Resembles R n s t a b) {vs : List Var} (hvs : vs ⊆ R.vars) :
    Resembles R n s t (a.cover s vs) (b.cover t (vs.map (Var.rename R.number))) := by
  induction vs generalizing a b with
  | nil => exact h
  | cons v rest ih =>
    obtain ⟨hv, hrest⟩ := List.cons_subset.mp hvs
    exact ih (h.meet hv) hrest

/-- The numbers of a variable that both scopes know are `n` apart. -/
theorem numberOf_eq (h : Resembles R n s t a b) {v : Var} (hv : v ∈ R.vars)
    (hknows : a.Knows s v) : b.numberOf t (v.rename R.number) = a.numberOf s v + n := by
  obtain ⟨w, hw⟩ := hknows
  have hfind := h.find?_eq v hv
  rw [hw] at hfind
  rw [numberOf_of_find? hw, numberOf_of_find? hfind]
  rfl

/-- A variable and its relabelled one are renamed to variables that are `n` apart. -/
theorem renameVar (h : Resembles R n s t a b) {v : Var} (hv : v ∈ R.vars) :
    (b.renameVar t (v.rename R.number)).1 = (a.renameVar s v).1.rename (Var.shift n) ∧
      Resembles R n s t (a.renameVar s v).2 (b.renameVar t (v.rename R.number)).2 := by
  have hmeet := h.meet hv
  exact ⟨congrArg (Var.mk v.sort) (hmeet.numberOf_eq hv (knows_meet h.opened v)), hmeet⟩

/-- A term and its relabelled one are renamed to terms whose variables are `n` apart. -/
theorem renameTerm (h : Resembles R n s t a b) {σ : ValueSort} {e : Term σ}
    (he : e.occurrences ⊆ R.vars) :
    (b.renameTerm t (e.rename R.number)).1 = (a.renameTerm s e).1.rename (Var.shift n) ∧
      Resembles R n s t (a.renameTerm s e).2 (b.renameTerm t (e.rename R.number)).2 := by
  have hoccurrences : (e.rename R.number).occurrences = e.occurrences.map (Var.rename R.number) :=
    Term.occurrences_rename _ e
  have hcover := h.cover he
  simp only [Naming.renameTerm, hoccurrences, Term.rename_rename]
  refine ⟨Term.rename_congr fun v hv => ?_, hcover⟩
  exact hcover.numberOf_eq (he hv) (knows_cover h.opened hv)

/-- An expression and its relabelled one are renamed to expressions whose variables are `n` apart.
-/
theorem renameExpr (h : Resembles R n s t a b) {e : Expr} (he : e.occurrences ⊆ R.vars) :
    (b.renameExpr t (e.rename R.number)).1 = (a.renameExpr s e).1.rename (Var.shift n) ∧
      Resembles R n s t (a.renameExpr s e).2 (b.renameExpr t (e.rename R.number)).2 :=
  (h.renameTerm he).imp_left (congrArg (Expr.mk e.sort))

/-- Arguments and relabelled arguments are renamed to arguments whose variables are `n` apart. -/
theorem renameExprs (h : Resembles R n s t a b) {es : List (Option Expr)}
    (hes : Expr.listOccurrences es ⊆ R.vars) :
    (b.renameExprs t (Expr.renameAll R.number es)).1 =
        Expr.renameAll (Var.shift n) (a.renameExprs s es).1 ∧
      Resembles R n s t (a.renameExprs s es).2
        (b.renameExprs t (Expr.renameAll R.number es)).2 := by
  induction es generalizing a b with
  | nil => exact ⟨rfl, h⟩
  | cons e rest ih =>
    rw [Expr.listOccurrences, List.flatMap_cons, List.append_subset] at hes
    obtain ⟨he, hrest⟩ := hes
    cases e with
    | none => exact (ih h hrest).imp_left (congrArg (List.cons none))
    | some e =>
      obtain ⟨hfirst, hnext⟩ := h.renameExpr he
      obtain ⟨hothers, hlast⟩ := ih hnext hrest
      exact ⟨congrArg₂ (fun e es => some e :: es) hfirst hothers, hlast⟩

end Resembles

end Naming

/-! ## Sessions -/

def Event.rename (f : Var → Int) : Event → Event
  | .returns value => .returns (value.rename f)
  | event => event

/-- Renaming variables to the numbers that they have changes no event. -/
theorem Event.rename_id (event : Event) : event.rename Var.id = event := by
  cases event with
  | returns value => exact congrArg returns value.rename_id
  | _ => rfl

namespace Session

/-- The second session has done what the first one has, with all numbers higher by `n`. -/
structure Resembles (n : Nat) (a b : Session) : Prop where
  count_eq : b.naming.count = a.naming.count + n
  constraints_eq : b.constraints.toList =
    a.constraints.toList.map (Requirement.rename (Var.shift n))
  events_eq : b.events.toList = a.events.toList.map (Event.rename (Var.shift n))

/-- Two sessions that resemble each other and expand the same function, in these scopes. -/
structure ResemblesIn (R : Relabelling) (n : Nat) (s t : ScopeId) (a b : Session) : Prop
    extends Resembles n a b where
  names : Naming.Resembles R n s t a.naming b.naming

section

variable {R : Relabelling} {n : Nat} {s t : ScopeId} {a b : Session}

/-- Logging an event and its shifted one side by side keeps the resemblance. -/
theorem Resembles.log (h : Resembles n a b) (event : Event) :
    Resembles n (a.log event) (b.log (event.rename (Var.shift n))) where
  count_eq := h.count_eq
  constraints_eq := h.constraints_eq
  events_eq := by
    unfold Session.log
    rw [Array.toList_push, Array.toList_push, h.events_eq, List.map_append]
    rfl

/-- Opening a scope on both sides gives two scopes that resemble one another under any relabelling.
-/
theorem Resembles.openScope (h : Resembles n a b) (R : Relabelling) :
    ResemblesIn R n a.naming.scopes.size b.naming.scopes.size (a.named a.naming.openScope.2)
      (b.named b.naming.openScope.2) where
  count_eq := h.count_eq
  constraints_eq := h.constraints_eq
  events_eq := h.events_eq
  names := .of_openScope R h.count_eq

namespace ResemblesIn

/-- New names that resemble one another can be put into sessions that do so. -/
theorem named (h : ResemblesIn R n s t a b) {naming naming' : Naming}
    (hnames : Naming.Resembles R n s t naming naming') :
    ResemblesIn R n s t (a.named naming) (b.named naming') where
  count_eq := hnames.count_eq
  constraints_eq := h.constraints_eq
  events_eq := h.events_eq
  names := hnames

/-- Logging an event and its shifted one keeps the resemblance of two scopes. -/
theorem log (h : ResemblesIn R n s t a b) (event : Event) :
    ResemblesIn R n s t (a.log event) (b.log (event.rename (Var.shift n))) :=
  ⟨h.toResembles.log event, h.names⟩

/-- Emitting a constraint and its shifted one keeps the resemblance of two scopes. -/
theorem emit (h : ResemblesIn R n s t a b) (c : InstantiatedConstraint) :
    ResemblesIn R n s t (a.emit c) (b.emit (c.rename (Var.shift n))) where
  count_eq := h.count_eq
  constraints_eq := by
    unfold Session.emit
    rw [Array.toList_push, Array.toList_push, h.constraints_eq, List.map_append]
    rfl
  events_eq := h.events_eq
  names := h.names

/-- Emitting an equality under a guard, and the shifted one under the shifted guard, keeps the
resemblance of two scopes. -/
theorem emitImplied (h : ResemblesIn R n s t a b) (equality : Option (Term .bool))
    (guard : Term .bool) (stack : CallStack) :
    ResemblesIn R n s t (a.emitImplied equality guard stack)
      (b.emitImplied (equality.map (Term.rename (Var.shift n))) (guard.rename (Var.shift n))
        stack) := by
  cases equality with
  | none => exact h
  | some condition => exact h.emit ⟨condition, guard, .implied, stack⟩

/-- Binding a parameter and its relabelled one to arguments that are `n` apart keeps the resemblance
of the scopes of the two functions. -/
theorem bindParameter (h : ResemblesIn R n s t a b) (guard : Term .bool) (stack : CallStack)
    {formal : Option Expr} (hformal : Expr.optionOccurrences formal ⊆ R.vars)
    (actual : Option Expr) :
    ResemblesIn R n s t (a.bindParameter s guard stack (formal, actual))
      (b.bindParameter t (guard.rename (Var.shift n)) stack
        (formal.map (Expr.rename R.number), actual.map (Expr.rename (Var.shift n)))) := by
  cases formal with
  | none => exact h
  | some formal =>
    cases actual with
    | none => exact h
    | some actual =>
      obtain ⟨hformal', hnames⟩ := h.names.renameExpr hformal
      have hemit := (h.named hnames).emitImplied
        ((a.naming.renameExpr s formal).1.equate? actual) guard stack
      rw [← Expr.equate?_rename, ← hformal'] at hemit
      exact hemit

/-- Binding a result variable and its relabelled one to values that are `n` apart keeps the
resemblance of the scopes of the two callers. -/
theorem bindValue (h : ResemblesIn R n s t a b) (guard : Term .bool) (stack : CallStack)
    {result : Option Var} (hresult : result.toList ⊆ R.vars) (value : Option Expr) :
    ResemblesIn R n s t (a.bindValue s guard stack result value)
      (b.bindValue t (guard.rename (Var.shift n)) stack (result.map (Var.rename R.number))
        (value.map (Expr.rename (Var.shift n)))) := by
  cases result with
  | none => exact h
  | some captured =>
    cases value with
    | none => exact h
    | some value =>
      obtain ⟨hcaptured, hnames⟩ := h.names.renameVar (hresult List.mem_cons_self)
      have hemit := (h.named hnames).emitImplied
        ((Expr.ofVar (a.naming.renameVar s captured).1).equate? value) guard stack
      rw [← Expr.equate?_rename] at hemit
      simp only [Session.bindValue, Option.map_some, hcaptured]
      exact hemit

/-- Two frames whose results are relabelled return values that are `n` apart. -/
theorem returnValue (h : ResemblesIn R n s t a b) (frame frame' : Frame)
    (hscope : frame.scope = s) (hscope' : frame'.scope = t)
    (hframe : frame'.result = frame.result.map (Expr.rename R.number))
    (hresult : Expr.optionOccurrences frame.result ⊆ R.vars) :
    (b.returnValue frame').1 = (a.returnValue frame).1.map (Expr.rename (Var.shift n)) ∧
      ResemblesIn R n s t (a.returnValue frame).2 (b.returnValue frame').2 := by
  subst hscope hscope'
  unfold Session.returnValue
  rw [hframe]
  cases hreturn : frame.result with
  | none => exact ⟨rfl, h⟩
  | some result =>
    rw [hreturn] at hresult
    obtain ⟨hvalue, hnames⟩ := h.names.renameExpr hresult
    have hlog := (h.named hnames).log (.returns (a.naming.renameExpr frame.scope result).1)
    refine ⟨congrArg some hvalue, ?_⟩
    simp only [Option.map_some, hvalue]
    exact hlog

/-- Binding all parameters side by side keeps the resemblance, one parameter after the other. -/
theorem foldl_bindParameter (h : ResemblesIn R n s t a b) (guard : Term .bool) (stack : CallStack)
    {pairs : List (Option Expr × Option Expr)}
    (hpairs : ∀ pair ∈ pairs, Expr.optionOccurrences pair.1 ⊆ R.vars) :
    ResemblesIn R n s t (pairs.foldl (Session.bindParameter s guard stack) a)
      ((pairs.map (Prod.map (Option.map (Expr.rename R.number))
        (Option.map (Expr.rename (Var.shift n))))).foldl
          (Session.bindParameter t (guard.rename (Var.shift n)) stack) b) := by
  induction pairs generalizing a b with
  | nil => exact h
  | cons pair rest ih =>
    obtain ⟨hpair, hrest⟩ := List.forall_mem_cons.mp hpairs
    exact ih (h.bindParameter guard stack hpair pair.2) hrest

/-- What is done outside of the two scopes leaves the sessions as much alike as they are. -/
theorem of_find?_eq (h : ResemblesIn R n s t a b) {after after' : Session}
    (hafter : Resembles n after after')
    (hsize : a.naming.scopes.size ≤ after.naming.scopes.size)
    (hsize' : b.naming.scopes.size ≤ after'.naming.scopes.size)
    (hfind : ∀ v, after.naming.find? s v = a.naming.find? s v)
    (hfind' : ∀ v, after'.naming.find? t v = b.naming.find? t v) :
    ResemblesIn R n s t after after' where
  toResembles := hafter
  names := {
    count_eq := hafter.count_eq
    opened := Nat.lt_of_lt_of_le h.names.opened hsize
    opened' := Nat.lt_of_lt_of_le h.names.opened' hsize'
    find?_eq := fun v hv => by rw [hfind, hfind', h.names.find?_eq v hv] }

end ResemblesIn

/-- Entering a function and its relabelled one side by side opens two scopes that resemble one
another. -/
theorem Resembles.bound (h : Resembles n a b) (R : Relabelling) (name : String)
    {summary : FunctionSummary} (hsummary : summary.occurrences ⊆ R.vars)
    (args : List (Option Expr)) (stack : CallStack) (guard : Term .bool) :
    ResemblesIn R n a.naming.scopes.size b.naming.scopes.size
      (a.bound name summary args stack guard)
      (b.bound name (summary.rename R.number) (Expr.renameAll (Var.shift n) args) stack
        (guard.rename (Var.shift n))) := by
  have hpairs : ∀ pair ∈ summary.parameters.zip args,
      Expr.optionOccurrences pair.1 ⊆ R.vars := by
    intro pair hpair v hv
    apply hsummary
    apply List.mem_append_left
    apply List.mem_append_left
    exact List.mem_flatMap.mpr ⟨pair.1, (List.of_mem_zip hpair).1, hv⟩
  have hfold := (h.openScope R).foldl_bindParameter guard stack hpairs
  rw [← List.zip_map] at hfold
  exact hfold.log (.enterCallee name)

end

/-- An expansion names variables only in the scopes that it opens itself. -/
theorem find?_inlineCall (env : Environment) (active : List String) (session : Session)
    (name : String) (args : List (Option Expr)) (stack : CallStack) (guard : Term .bool)
    {scope : ScopeId} (h : scope < session.naming.scopes.size) (v : Var) :
    (session.inlineCall env active name args stack guard).2.naming.find? scope v =
      session.naming.find? scope v := by
  -- the session is what was done before, followed by a session that has no scopes yet
  let later : Session := ⟨⟨session.naming.supply, #[]⟩, #[], session.active, #[]⟩
  have hsession : session.append later = session := by
    simp [later, append, Naming.append]
  have hcall := inlineCall_append env session later active name args stack guard
  rw [hsession] at hcall
  rw [hcall]
  simp only [Prod.map_snd, naming_append, Naming.append, Naming.find?,
    Array.getElem?_append_left h]

end Session

/-! ## Expansions -/

/-- The second environment knows the functions of these names as the first one does, with the
variables of each function relabelled. Whatever they call has one of these names, too. -/
structure Relabels (ρ : String → Var → Int) (names : Set String) (env env' : Environment) :
    Prop where
  find?_eq : ∀ {name}, name ∈ names →
    env'.find? name = (env.find? name).map (FunctionSummary.rename (ρ name))
  injOn : ∀ {name summary}, name ∈ names → env.find? name = some summary →
    Set.InjOn (Var.rename (ρ name)) {v | v ∈ summary.occurrences}
  callee_mem : ∀ {name summary call}, name ∈ names → env.find? name = some summary →
    Constraint.call call ∈ summary.constraints → call.callee ∈ names

/-- Environments that know the same functions of these names, with the variables named as they
are. -/
theorem Relabels.of_find?_eq {names : Set String} {env env' : Environment}
    (hfind : ∀ name ∈ names, env'.find? name = env.find? name)
    (hcallee : ∀ {name summary call}, name ∈ names → env.find? name = some summary →
      Constraint.call call ∈ summary.constraints → call.callee ∈ names) :
    Relabels (fun _ => Var.id) names env env' where
  find?_eq {name} hname := by
    rw [hfind name hname]
    cases env.find? name with
    | none => rfl
    | some summary => exact congrArg some summary.rename_id.symm
  injOn _ _ := fun _ _ _ _ heq => heq
  callee_mem := hcallee

namespace Session

section

variable {ρ : String → Var → Int} {names : Set String} {env env' : Environment} {n : Nat}

/-- Going through these constraints does the same in both runs. -/
def BodiesResemble (env env' : Environment) (names : Set String) (n : Nat) (active : List String)
    (constraints : List SummaryConstraint) : Prop :=
  ∀ (R : Relabelling) (s t : ScopeId) (a b : Session) (stack : CallStack) (guard : Term .bool),
    ResemblesIn R n s t a b → constraints.flatMap Constraint.occurrences ⊆ R.vars →
      (∀ call, Constraint.call call ∈ constraints → call.callee ∈ names) →
        let result := a.inlineBody env active s stack guard constraints
        let result' := b.inlineBody env' active t stack (guard.rename (Var.shift n))
          (constraints.map (Constraint.rename R.number))
        result'.1 = result.1 ∧ ResemblesIn R n s t result.2 result'.2

/-- A frame and its relabelled one do the same, if going through the body does. -/
theorem resembles_inlineFrame_of_body {active : List String} {summary : FunctionSummary}
    (hbody : BodiesResemble env env' names n active summary.constraints)
    (hcallees : ∀ call, Constraint.call call ∈ summary.constraints → call.callee ∈ names)
    {R : Relabelling} (hsummary : summary.occurrences ⊆ R.vars) {s t : ScopeId} {a b : Session}
    (hab : ResemblesIn R n s t a b) (name : String) (stack : CallStack) (guard : Term .bool) :
    let result := a.inlineFrame env active
      ⟨name, s, stack, guard, summary.constraints, summary.result⟩
    let result' := b.inlineFrame env' active
      ⟨name, t, stack, guard.rename (Var.shift n), (summary.rename R.number).constraints,
        (summary.rename R.number).result⟩
    result'.1 = result.1.map (Option.map (Expr.rename (Var.shift n))) ∧
      Resembles n result.2 result'.2 := by
  obtain ⟨hleft, hconstraints⟩ := List.append_subset.mp hsummary
  obtain ⟨-, hresult⟩ := List.append_subset.mp hleft
  obtain ⟨hfst, hin⟩ := hbody R s t a b stack guard hab hconstraints hcallees
  simp only [inlineFrame, FunctionSummary.rename]
  generalize a.inlineBody env active s stack guard summary.constraints = result at hfst hin ⊢
  generalize b.inlineBody env' active t stack (guard.rename (Var.shift n))
    (summary.constraints.map (Constraint.rename R.number)) = result' at hfst hin ⊢
  obtain ⟨outcome, after⟩ := result
  obtain ⟨outcome', after'⟩ := result'
  obtain rfl : outcome' = outcome := hfst
  cases outcome' with
  | error e => exact ⟨rfl, hin.toResembles.log .leave⟩
  | ok value =>
    obtain ⟨hvalue, hreturn⟩ := hin.returnValue
      ⟨name, s, stack, guard, summary.constraints, summary.result⟩
      ⟨name, t, stack, guard.rename (Var.shift n),
        summary.constraints.map (Constraint.rename R.number),
        summary.result.map (Expr.rename R.number)⟩ rfl rfl rfl hresult
    exact ⟨congrArg Except.ok hvalue, hreturn.toResembles.log .leave⟩

/-- A call of a function and one of its relabelled version do the same, if going through the body
does. -/
theorem resembles_inlineCall_of_body (h : Relabels ρ names env env') {active : List String}
    {name : String} (hname : name ∈ names)
    (hbody : ∀ summary, env.find? name = some summary → name ∉ active →
      BodiesResemble env env' names n (name :: active) summary.constraints)
    {a b : Session} (hab : Resembles n a b) (args : List (Option Expr)) (stack : CallStack)
    (guard : Term .bool) :
    let result := a.inlineCall env active name args stack guard
    let result' := b.inlineCall env' active name (Expr.renameAll (Var.shift n) args) stack
      (guard.rename (Var.shift n))
    result'.1 = result.1.map (Option.map (Expr.rename (Var.shift n))) ∧
      Resembles n result.2 result'.2 := by
  have hfind := h.find?_eq hname
  cases hs : env.find? name with
  | none =>
    rw [hs] at hfind
    rw [inlineCall_of_unknown hs, inlineCall_of_unknown hfind]
    exact ⟨rfl, hab.log (.unknownCallee name)⟩
  | some summary =>
    rw [hs] at hfind
    by_cases ha : name ∈ active
    · rw [inlineCall_of_active hs ha, inlineCall_of_active hfind ha]
      exact ⟨rfl, hab.log (.recursiveCallee name)⟩
    · have hparameters : (summary.rename (ρ name)).parameters.length =
          summary.parameters.length := List.length_map _
      have hargs : (Expr.renameAll (Var.shift n) args).length = args.length := List.length_map _
      by_cases hl : summary.parameters.length = args.length
      · let R : Relabelling := ⟨summary.occurrences, ρ name, h.injOn hname hs⟩
        have hbound := hab.bound R name (List.Subset.refl _) args stack guard
        rw [inlineCall_of_length_eq hs ha hl,
          inlineCall_of_length_eq hfind ha (by rw [hparameters, hargs, hl])]
        exact resembles_inlineFrame_of_body (hbody summary hs ha)
          (fun call hcall => h.callee_mem hname hs hcall) (List.Subset.refl _) hbound name stack
          guard
      · rw [inlineCall_of_length_ne hs ha hl,
          inlineCall_of_length_ne hfind ha (by rw [hparameters, hargs]; exact hl), hparameters,
          hargs]
        exact ⟨rfl, hab⟩

/-- In environments that are relabellings of one another, going through any constraints does the
same. -/
theorem bodiesResemble (h : Relabels ρ names env env') (active : List String)
    (constraints : List SummaryConstraint) :
    BodiesResemble env env' names n active constraints := by
  -- the sessions, the scopes and the relabelling stay general: a callee brings its own
  induction active, constraints using inlining_induction env with
  | nil active =>
    intro R s t a b stack guard hab _ _
    rw [List.map_nil, inlineBody, inlineBody]
    exact ⟨rfl, hab⟩
  | require active r rest ih =>
    intro R s t a b stack guard hab hvars hcallees
    rw [List.flatMap_cons, List.append_subset] at hvars
    obtain ⟨hr, hrest⟩ := hvars
    obtain ⟨hcondition, hassuming⟩ := List.append_subset.mp hr
    obtain ⟨hcondition', hnames⟩ := hab.names.renameTerm hcondition
    obtain ⟨hassuming', hnames'⟩ := hnames.renameTerm hassuming
    have hemit := (hab.named hnames').emit
      ⟨(a.naming.renameTerm s r.condition).1,
        guard.conjoin ((a.naming.renameTerm s r.condition).2.renameTerm s r.assuming).1,
        r.origin, stack.push r.location⟩
    rw [Requirement.rename, Term.rename_conjoin, ← hassuming', ← hcondition'] at hemit
    rw [List.map_cons, Constraint.rename, inlineBody, inlineBody]
    exact ih R s t _ _ stack guard hemit hrest
      fun call hcall => hcallees call (List.mem_cons_of_mem _ hcall)
  | call active call rest ihbody ihrest =>
    intro R s t a b stack guard hab hvars hcallees
    rw [List.flatMap_cons, List.append_subset] at hvars
    obtain ⟨hcall, hrest⟩ := hvars
    obtain ⟨hleft, hassuming⟩ := List.append_subset.mp hcall
    obtain ⟨hargs, hresult⟩ := List.append_subset.mp hleft
    obtain ⟨hassuming', hnames⟩ := hab.names.renameTerm hassuming
    obtain ⟨hargs', hnames'⟩ := hnames.renameExprs hargs
    have hnamed := hab.named hnames'
    rw [List.map_cons, Constraint.rename, inlineBody, inlineBody]
    simp only [Call.rename, hassuming', hargs', ← Term.rename_conjoin]
    generalize a.naming.renameTerm s call.assuming = assuming at hnamed ⊢
    generalize assuming.2.renameExprs s call.args = args at hnamed ⊢
    generalize Naming.renameExprs _ t (Expr.renameAll R.number call.args) = args' at hnamed ⊢
    generalize hguard : guard.conjoin assuming.1 = callGuard
    have hmem : call.callee ∈ names := hcallees call List.mem_cons_self
    obtain ⟨hfst, hafter⟩ := resembles_inlineCall_of_body h hmem ihbody hnamed.toResembles args.1
      (stack.push call.location) callGuard
    have hin := hnamed.of_find?_eq hafter (evolves_inlineCall ..).size_scopes_le
      (evolves_inlineCall ..).size_scopes_le (find?_inlineCall _ _ _ _ _ _ _ hnamed.names.opened)
      (find?_inlineCall _ _ _ _ _ _ _ hnamed.names.opened')
    generalize Session.inlineCall env active _ call.callee _ _ _ = called at hfst hin ⊢
    generalize Session.inlineCall env' active _ call.callee _ _ _ = called' at hfst hin ⊢
    obtain ⟨outcome, after⟩ := called
    obtain ⟨outcome', after'⟩ := called'
    obtain rfl : outcome' = outcome.map (Option.map (Expr.rename (Var.shift n))) := hfst
    cases outcome with
    | error e => exact ⟨rfl, hin⟩
    | ok value =>
      have hvalue := hin.bindValue callGuard (stack.push call.location) hresult value
      exact ihrest R s t _ _ stack guard hvalue hrest
        fun call hcall => hcallees call (List.mem_cons_of_mem _ hcall)

/-- A call with shifted arguments under a shifted guard does the same as the call, with every number
higher by `n`. -/
theorem resembles_inlineCall (h : Relabels ρ names env env') (active : List String) {name : String}
    (hname : name ∈ names) {a b : Session} (hab : Resembles n a b) (args : List (Option Expr))
    (stack : CallStack) (guard : Term .bool) :
    let result := a.inlineCall env active name args stack guard
    let result' := b.inlineCall env' active name (Expr.renameAll (Var.shift n) args) stack
      (guard.rename (Var.shift n))
    result'.1 = result.1.map (Option.map (Expr.rename (Var.shift n))) ∧
      Resembles n result.2 result'.2 :=
  resembles_inlineCall_of_body h hname
    (fun summary _ _ => bodiesResemble h _ summary.constraints) hab args stack guard

end

end Session

/-- In environments that know the functions of the same names, up to a relabelling of their
variables, a function with one of these names is instantiated in the same way, whatever the two
supplies have handed out before. -/
theorem resembles_instantiate {ρ : String → Var → Int} {names : Set String}
    {env env' : Environment} (h : Relabels ρ names env env') {entry : String}
    (hentry : entry ∈ names) {naming naming' : Naming} {n : Nat}
    (hcount : naming'.count = naming.count + n) :
    (instantiate env' entry naming').1 = (instantiate env entry naming).1 ∧
      Session.Resembles n (instantiate env entry naming).2 (instantiate env' entry naming').2 := by
  have hnew : Session.Resembles n (Session.new naming) (Session.new naming') := ⟨hcount, rfl, rfl⟩
  have hfind := h.find?_eq hentry
  cases hs : env.find? entry with
  | none =>
    rw [hs] at hfind
    rw [instantiate_of_none hs, instantiate_of_none hfind]
    exact ⟨rfl, hnew.log (.unknownRoot entry)⟩
  | some summary =>
    rw [hs] at hfind
    let R : Relabelling := ⟨summary.occurrences, ρ entry, h.injOn hentry hs⟩
    have hparameters : Expr.listOccurrences summary.parameters ⊆ R.vars :=
      List.subset_append_of_subset_left _ (List.subset_append_left _ _)
    obtain ⟨hargs, hnames⟩ := (Naming.Resembles.of_openScope R hcount).renameExprs hparameters
    have hroot : Session.Resembles n (rootSession naming entry summary)
        (rootSession naming' entry (summary.rename (ρ entry))) :=
      ⟨hnames.count_eq, rfl, rfl⟩
    obtain ⟨hfst, hsnd⟩ := Session.resembles_inlineCall h [] hentry hroot
      (naming.openScope.2.renameExprs naming.scopes.size summary.parameters).1 .top .alwaysTrue
    rw [← hargs] at hfst hsnd
    simp only [instantiate_of_some hs, instantiate_of_some hfind, Session.apply_eq_inlineCall]
    refine ⟨?_, hsnd.log .leave⟩
    -- what the function returns is dropped in both runs
    apply (congrArg (Except.map fun _ => ()) hfst).trans
    show _ = Except.map (fun _ => ()) (Session.inlineCall env [] _ _ _ _ _).1
    cases (Session.inlineCall env [] _ _ _ _ _).1 with
    | error _ => rfl
    | ok _ => rfl

end SummaryInlining
