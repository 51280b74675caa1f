import SummaryInlining.Proofs.WorklistInvariant
import SummaryInlining.Proofs.TermAlgebra

/-!
# Conjunctions

Conditions form a monoid under `Term.conjoin`, with the literal true as its neutral element, and
this holds for the terms themselves and not only for what they mean. So a list of conditions has one
conjunction, whichever way it is folded (`foldl_conjoin_eq_foldr`). Conjoining also keeps the
meaning (`evaluate_conjoin`) and the occurrences of variables (`occurrences_conjoin`), and neither
nests conjunctions nor leaves a literal true in one when its operands do not (`IsFlat.conjoin`).

Renaming variables does not change the shape of a condition. Since every path condition of an
expansion is conjoined from renamed assumptions, a step of the machine keeps all of them flat
(`Machine.IsFlat.step`), and so does every run of it (`Progress.IsFlat.iterate`), provided that the
assumptions in the summaries are flat.
-/

set_option autoImplicit false

namespace SummaryInlining

/-- Read in this way, conjunctions of an algebra of terms are conjunctions, and its literal true is
true. Nothing is said about the other operators. -/
structure TermAlgebra.ReadsConjunctions (A : TermAlgebra) (holds : A.Carrier .bool → Prop) :
    Prop where
  truth : holds (A.truth true)
  and : ∀ values, holds (A.and values) ↔ ∀ value ∈ values, holds value

namespace Term

variable {p q r : Term .bool}

/-! ## The monoid of conditions -/

/-- Only the literal true is recognized as true. -/
theorem isTrue_iff : p.isTrue = true ↔ p = alwaysTrue := by
  constructor
  · intro h
    cases p with
    | truth value => rw [show value = true from h, alwaysTrue]
    | _ => cases h
  · rintro rfl
    rfl

/-- The literal true adds nothing on the left of a condition. -/
theorem alwaysTrue_conjoin (q : Term .bool) : alwaysTrue.conjoin q = q := rfl

/-- The literal true adds nothing on the right of a condition. -/
theorem conjoin_alwaysTrue (p : Term .bool) : p.conjoin alwaysTrue = p := by
  by_cases hp : p = alwaysTrue
  · rw [hp, alwaysTrue_conjoin]
  · rw [conjoin, if_neg (mt isTrue_iff.mp hp)]
    rfl

/-- Conditions other than the literal true are listed side by side. -/
theorem conjoin_of_ne (hp : p ≠ alwaysTrue) (hq : q ≠ alwaysTrue) :
    p.conjoin q = .and (p.conjuncts ++ q.conjuncts) := by
  rw [conjoin, if_neg (mt isTrue_iff.mp hp), if_neg (mt isTrue_iff.mp hq)]

/-- Of three conditions it does not matter which two are conjoined first. -/
theorem conjoin_assoc (p q r : Term .bool) :
    (p.conjoin q).conjoin r = p.conjoin (q.conjoin r) := by
  by_cases hp : p = alwaysTrue
  · rw [hp, alwaysTrue_conjoin, alwaysTrue_conjoin]
  by_cases hq : q = alwaysTrue
  · rw [hq, conjoin_alwaysTrue, alwaysTrue_conjoin]
  by_cases hr : r = alwaysTrue
  · rw [hr, conjoin_alwaysTrue, conjoin_alwaysTrue]
  -- none of them is dropped, and the operands of a conjunction are its conjuncts
  have hand : ∀ operands, and operands ≠ alwaysTrue := fun operands h => by cases h
  rw [conjoin_of_ne hp hq, conjoin_of_ne hq hr, conjoin_of_ne (hand _) hr,
    conjoin_of_ne hp (hand _), conjuncts, conjuncts, List.append_assoc]

instance : Std.Associative conjoin := ⟨conjoin_assoc⟩

/-- The conjunction of some conditions does not depend on whether they are conjoined from the left
or from the right. -/
theorem foldl_conjoin_eq_foldr (p : Term .bool) (rest : List (Term .bool)) :
    rest.foldl conjoin p =
      (p :: rest).dropLast.foldr conjoin ((p :: rest).getLast (List.cons_ne_nil p rest)) := by
  induction rest generalizing p with
  | nil => rfl
  | cons q rest ih =>
    have hsplit : (q :: rest).foldl conjoin p = p.conjoin (rest.foldl conjoin q) :=
      List.foldl_assoc
    rw [hsplit, ih q, List.dropLast_cons_cons, List.foldr_cons, List.getLast_cons_cons]

/-! ## What conjunctions mean -/

/-- A conjunction means that both of its sides hold, wherever conjunctions mean this. -/
theorem evaluate_conjoin {A : TermAlgebra} {holds : A.Carrier .bool → Prop}
    (h : A.ReadsConjunctions holds) (ν : A.Valuation) (p q : Term .bool) :
    holds ((p.conjoin q).evaluate A ν) ↔
      holds (p.evaluate A ν) ∧ holds (q.evaluate A ν) := by
  have hand : ∀ operands, holds ((and operands).evaluate A ν) ↔
      ∀ c ∈ operands, holds (c.evaluate A ν) := by
    intro operands
    rw [evaluate_and, h.and, List.forall_mem_map]
  have hconjuncts : ∀ p : Term .bool, (∀ c ∈ p.conjuncts, holds (c.evaluate A ν)) ↔
      holds (p.evaluate A ν) := by
    intro p
    cases p with
    | and operands => exact (hand operands).symm
    | _ => exact List.forall_mem_singleton
  by_cases hp : p = alwaysTrue
  · rw [hp, alwaysTrue_conjoin]
    exact (and_iff_right h.truth).symm
  by_cases hq : q = alwaysTrue
  · rw [hq, conjoin_alwaysTrue]
    exact (and_iff_left h.truth).symm
  rw [conjoin_of_ne hp hq, hand, List.forall_mem_append, hconjuncts, hconjuncts]

/-! ## Flat conditions -/

/-- The condition is no conjunction that has a conjunction or a literal true as an operand. -/
def IsFlat (p : Term .bool) : Prop :=
  ∀ operands, p = .and operands → ∀ c ∈ operands, c.kind ≠ .and ∧ c ≠ alwaysTrue

/-- The literal true is flat. -/
theorem isFlat_alwaysTrue : alwaysTrue.IsFlat := fun _ h => by cases h

/-- The conjuncts of a flat condition can be operands of a flat conjunction. -/
theorem IsFlat.conjuncts (h : p.IsFlat) (hp : p ≠ alwaysTrue) :
    ∀ c ∈ p.conjuncts, c.kind ≠ .and ∧ c ≠ alwaysTrue := by
  cases p with
  | and operands => exact h operands rfl
  | _ =>
    refine List.forall_mem_singleton.mpr ⟨?_, hp⟩
    intro hkind
    cases hkind

/-- Conjoining flat conditions gives a flat one. -/
theorem IsFlat.conjoin (hp : p.IsFlat) (hq : q.IsFlat) : (p.conjoin q).IsFlat := by
  by_cases hp' : p = alwaysTrue
  · rwa [hp', alwaysTrue_conjoin]
  by_cases hq' : q = alwaysTrue
  · rwa [hq', conjoin_alwaysTrue]
  rw [conjoin_of_ne hp' hq']
  intro operands hoperands
  cases hoperands
  exact List.forall_mem_append.mpr ⟨hp.conjuncts hp', hq.conjuncts hq'⟩

/-- Renaming keeps the kinds of all nodes. -/
theorem kind_rename (f : Var → Int) {s : ValueSort} (e : Term s) : (e.rename f).kind = e.kind := by
  cases e with
  | list es => rw [rename_list]; rfl
  | and ps => rw [rename_and]; rfl
  | or ps => rw [rename_or]; rfl
  | _ => rfl

/-- Only the literal true is renamed to the literal true. -/
theorem rename_eq_alwaysTrue_iff {f : Var → Int} : p.rename f = alwaysTrue ↔ p = alwaysTrue := by
  constructor
  · intro h
    cases p with
    | truth value => exact h
    | _ =>
      have hkind := congrArg kind h
      rw [kind_rename] at hkind
      cases hkind
  · rintro rfl
    rfl

/-- A renaming keeps a condition flat. -/
theorem IsFlat.rename (h : p.IsFlat) (f : Var → Int) : (p.rename f).IsFlat := by
  intro operands hoperands
  have hkind : p.kind = .and := by
    rw [← kind_rename f, hoperands]
    rfl
  cases p with
  | and ps =>
    rw [rename_and] at hoperands
    cases hoperands
    refine List.forall_mem_map.mpr fun c hc => ?_
    obtain ⟨hand, htrue⟩ := h ps rfl c hc
    exact ⟨by rwa [kind_rename], mt rename_eq_alwaysTrue_iff.mp htrue⟩
  | _ => cases hkind

end Term

/-! ## Path conditions -/

/-- When a constraint of a summary is required. -/
def Constraint.assuming {L : Type} : Constraint L → Term .bool
  | .require r => r.assuming
  | .call c => c.assuming

/-- All assumptions in the summaries are flat. -/
def Environment.IsFlat (env : Environment) : Prop :=
  ∀ name summary, env.find? name = some summary → ∀ c ∈ summary.constraints, c.assuming.IsFlat

/-- The path conditions of all constraints emitted so far are flat. -/
def Session.IsFlat (session : Session) : Prop := ∀ c ∈ session.constraints, c.assuming.IsFlat

/-- The path condition of the expansion is flat, and so are the assumptions that it still meets. -/
structure Frame.IsFlat (frame : Frame) : Prop where
  guard : frame.guard.IsFlat
  remaining : ∀ c ∈ frame.remaining, c.assuming.IsFlat

/-- All path conditions of a machine are flat: those emitted, those of the expansions on its stack,
and those of the calls that these wait for. -/
structure Machine.IsFlat (m : Machine) : Prop where
  session : m.session.IsFlat
  top : m.top.IsFlat
  callers : ∀ caller ∈ m.callers, caller.frame.IsFlat ∧ caller.guard.IsFlat

def Progress.IsFlat : Progress → Prop
  | running m => m.IsFlat
  | ended result => result.2.IsFlat

namespace Session

variable {session : Session} {env : Environment} {guard : Term .bool}

/-- Whether a session is flat is seen from its constraints. -/
theorem IsFlat.of_eq {other : Session} (h : session.IsFlat)
    (heq : other.constraints = session.constraints) : other.IsFlat := by
  rw [IsFlat, heq]
  exact h

/-- Emitting a constraint under a flat condition keeps the session flat. -/
theorem IsFlat.emit (h : session.IsFlat) {c : InstantiatedConstraint} (hc : c.assuming.IsFlat) :
    (session.emit c).IsFlat := by
  intro other hother
  rcases Array.mem_push.mp hother with hbefore | rfl
  · exact h other hbefore
  · exact hc

/-- Emitting an equality under a flat guard keeps the session flat. -/
theorem IsFlat.emitImplied (h : session.IsFlat) (hguard : guard.IsFlat)
    (equality : Option (Term .bool)) (stack : CallStack) :
    (session.emitImplied equality guard stack).IsFlat := by
  cases equality with
  | none => exact h
  | some condition => exact h.emit hguard

/-- Binding parameters under a flat guard keeps the session flat. -/
theorem IsFlat.bindParameters (h : session.IsFlat) (hguard : guard.IsFlat) (scope : ScopeId)
    (stack : CallStack) (formals actuals : List (Option Expr)) :
    (session.bindParameters scope guard stack formals actuals).IsFlat := by
  fun_induction Session.bindParameters session scope guard stack formals actuals with
  | case1 session formal formals actual actuals renamed bound ih =>
    have hnamed : (session.named renamed.2).IsFlat := h.of_eq rfl
    exact ih (hnamed.emitImplied hguard _ stack)
  | case2 session actual formals actuals ih => exact ih h
  | case3 session formal formals actuals _ ih => exact ih h
  | case4 => exact h
  | case5 => exact h

/-- Binding the result of a call under a flat guard keeps the session flat. -/
theorem IsFlat.bindResult (h : session.IsFlat) {caller : Waiting} (hcaller : caller.guard.IsFlat)
    (value : Option Expr) : (session.bindResult caller value).IsFlat := by
  unfold Session.bindResult
  split
  · next returned result _ =>
    have hnamed : (session.named
        (session.naming.renameVar caller.frame.scope result).2).IsFlat := h.of_eq rfl
    exact hnamed.emitImplied hcaller _ caller.stack
  · exact h

/-- Returning a value emits no constraint. -/
theorem constraints_returnValue (session : Session) (frame : Frame) :
    (session.returnValue frame).2.constraints = session.constraints := by
  unfold returnValue
  split <;> rfl

/-- Leaving functions emits no constraint. -/
theorem constraints_leaveAll (session : Session) (names : List String) :
    (session.leaveAll names).constraints = session.constraints := by
  induction names generalizing session with
  | nil => rfl
  | cons name names ih => exact ih (session.leave name)

/-- A call that is not expanded emits nothing. -/
theorem IsFlat.of_enter_eq_skipped (h : session.IsFlat) {after : Session} {name : String}
    {args : List (Option Expr)} {stack : CallStack}
    (henter : session.enter env name args stack guard = .skipped after) : after.IsFlat := by
  unfold enter at henter
  split at henter
  · cases henter
    exact h
  · split at henter
    · cases henter
      exact h
    · split at henter <;> cases henter

/-- A call that is expanded emits the equalities of its parameters under its own condition, which
becomes that of its frame. -/
theorem IsFlat.of_enter_eq_entered (henv : env.IsFlat) (h : session.IsFlat) (hguard : guard.IsFlat)
    {after : Session} {frame : Frame} {name : String} {args : List (Option Expr)}
    {stack : CallStack}
    (henter : session.enter env name args stack guard = .entered frame after) :
    after.IsFlat ∧ frame.IsFlat := by
  unfold enter at henter
  split at henter
  · cases henter
  · next summary hs =>
    split at henter
    · cases henter
    · split at henter
      · cases henter
      · cases henter
        have hopened : (session.named session.naming.openScope.2).IsFlat := h.of_eq rfl
        exact ⟨(hopened.bindParameters hguard _ stack summary.parameters args).of_eq rfl, hguard,
          henv name summary hs⟩

end Session

section

variable {env : Environment} {m : Machine}

/-- Ending the top frame keeps the path conditions flat. -/
theorem Machine.IsFlat.finish (h : m.IsFlat) : m.finish.IsFlat := by
  have hreturned : ((m.session.returnValue m.top).2.leave m.top.name).IsFlat :=
    h.session.of_eq (Session.constraints_returnValue m.session m.top)
  unfold Machine.finish
  split
  · exact hreturned
  · next caller rest hcallers =>
    have hall := h.callers
    rw [hcallers] at hall
    obtain ⟨⟨hframe, hguard⟩, hrest⟩ := List.forall_mem_cons.mp hall
    exact ⟨hreturned.bindResult hguard _, hframe, hrest⟩

/-- Instantiating a call keeps the path conditions flat: the guard of the callee is conjoined from
flat ones. -/
theorem Machine.IsFlat.stepCall (henv : env.IsFlat) (h : m.IsFlat)
    {call : Call (Option SourceLocation)} {rest : List SummaryConstraint}
    (hremaining : m.top.remaining = .call call :: rest) :
    (m.stepCall env call rest).IsFlat := by
  have hassumptions := h.top.remaining
  rw [hremaining] at hassumptions
  obtain ⟨hassuming, hrest⟩ := List.forall_mem_cons.mp hassumptions
  have hguard : (m.top.guard.conjoin
      (m.session.naming.renameTerm m.top.scope call.assuming).1).IsFlat :=
    h.top.guard.conjoin (Term.IsFlat.rename hassuming _)
  simp only [Machine.stepCall]
  generalize ((m.session.naming.renameTerm m.top.scope call.assuming).2.renameExprs m.top.scope
    call.args) = args
  have hnamed : (m.session.named args.2).IsFlat := h.session.of_eq rfl
  split
  · exact hnamed.of_eq (Session.constraints_leaveAll _ m.names)
  · next session henter =>
    exact ⟨hnamed.of_enter_eq_skipped henter, ⟨h.top.guard, hrest⟩, h.callers⟩
  · next callee session henter =>
    obtain ⟨hsession, hcallee⟩ := hnamed.of_enter_eq_entered henv hguard henter
    exact ⟨hsession, hcallee, List.forall_mem_cons.mpr ⟨⟨⟨h.top.guard, hrest⟩, hguard⟩, h.callers⟩⟩

/-- A step of the machine keeps its path conditions flat. -/
theorem Machine.IsFlat.step (henv : env.IsFlat) (h : m.IsFlat) : (m.step env).IsFlat := by
  unfold Machine.step
  split
  · exact h.finish
  · next r rest hremaining =>
    have hassumptions := h.top.remaining
    rw [hremaining] at hassumptions
    obtain ⟨hassuming, hrest⟩ := List.forall_mem_cons.mp hassumptions
    refine ⟨Session.IsFlat.emit (h.session.of_eq rfl) ?_, ⟨h.top.guard, hrest⟩, h.callers⟩
    exact h.top.guard.conjoin (Term.IsFlat.rename hassuming _)
  · next call rest hremaining => exact h.stepCall henv hremaining

namespace Progress

/-- An expansion that starts under a flat guard starts with flat path conditions. -/
theorem IsFlat.start (henv : env.IsFlat) {session : Session} (h : session.IsFlat)
    {guard : Term .bool} (hguard : guard.IsFlat) (name : String) (args : List (Option Expr))
    (stack : CallStack) : (start env session name args stack guard).IsFlat := by
  unfold Progress.start
  split
  · exact h
  · next after henter => exact h.of_enter_eq_skipped henter
  · next frame after henter =>
    obtain ⟨hafter, hframe⟩ := h.of_enter_eq_entered henv hguard henter
    exact ⟨hafter, hframe, by simp⟩

/-- A run of the machine keeps its path conditions flat, at every depth of calls. -/
theorem IsFlat.iterate (henv : env.IsFlat) {progress : Progress} (h : progress.IsFlat) (n : Nat) :
    ((next env)^[n] progress).IsFlat := by
  induction n with
  | zero => exact h
  | succ n ih =>
    rw [Function.iterate_succ_apply']
    generalize (next env)^[n] progress = reached at ih ⊢
    cases reached with
    | running m => exact Machine.IsFlat.step henv ih
    | ended result => exact ih

end Progress

/-- Applying a function under a flat guard keeps the session flat. -/
theorem Session.IsFlat.apply (henv : env.IsFlat) {session : Session} (h : session.IsFlat)
    {guard : Term .bool} (hguard : guard.IsFlat) (name : String) (args : List (Option Expr))
    (stack : CallStack) : (session.apply env name args stack guard).2.IsFlat := by
  obtain ⟨n, hn⟩ := Progress.exists_ended_apply env session name args stack guard
  have hflat := (Progress.IsFlat.start henv h hguard name args stack).iterate henv n
  rw [hn] at hflat
  exact hflat

/-- Every instantiation emits constraints under flat conditions. -/
theorem isFlat_instantiate (henv : env.IsFlat) (entry : String) (naming : Naming) :
    (instantiate env entry naming).2.IsFlat := by
  have hnew : ∀ naming, (Session.new naming).IsFlat := fun _ c hc =>
    absurd hc (Array.not_mem_empty c)
  unfold instantiate
  split
  · exact hnew naming
  · next summary hs =>
    dsimp only
    generalize naming.openScope.2.renameExprs naming.openScope.1 summary.parameters = args
    have hentered : ((Session.new args.2).log (.enterRoot entry)).IsFlat := (hnew args.2).of_eq rfl
    exact hentered.apply henv Term.isFlat_alwaysTrue entry args.1 .top

end

/-- Conjoining is associative with the literal true as its neutral element, so the conjunction of
some conditions is the same term folded from the left and from the right. It means conjunction
wherever `and` and the literal true mean what they say, and the variables of its operands occur in
it one after the other. It keeps conditions flat, and so all path conditions that come up while
a call is expanded are flat when the assumptions in the summaries and the condition of the call
are. -/
theorem conjunctions_are_lawful :
    (∀ p q r : Term .bool, (p.conjoin q).conjoin r = p.conjoin (q.conjoin r)) ∧
    (∀ p : Term .bool, Term.alwaysTrue.conjoin p = p ∧ p.conjoin .alwaysTrue = p) ∧
    (∀ (p : Term .bool) (rest : List (Term .bool)), rest.foldl Term.conjoin p =
      (p :: rest).dropLast.foldr Term.conjoin
        ((p :: rest).getLast (List.cons_ne_nil p rest))) ∧
    (∀ (A : TermAlgebra) (holds : A.Carrier .bool → Prop), A.ReadsConjunctions holds →
      ∀ (ν : A.Valuation) (p q : Term .bool), holds ((p.conjoin q).evaluate A ν) ↔
        holds (p.evaluate A ν) ∧ holds (q.evaluate A ν)) ∧
    (∀ p q : Term .bool, (p.conjoin q).occurrences = p.occurrences ++ q.occurrences) ∧
    (∀ p q : Term .bool, p.IsFlat → q.IsFlat → (p.conjoin q).IsFlat) ∧
    ∀ env : Environment, env.IsFlat →
      (∀ (entry : String) (naming : Naming), (instantiate env entry naming).2.IsFlat) ∧
      ∀ (session : Session) (guard : Term .bool), session.IsFlat → guard.IsFlat →
        ∀ (name : String) (args : List (Option Expr)) (stack : CallStack),
          (session.apply env name args stack guard).2.IsFlat ∧
          ∀ n, ((Progress.next env)^[n]
            (Progress.start env session name args stack guard)).IsFlat := by
  refine ⟨Term.conjoin_assoc, fun p => ⟨Term.alwaysTrue_conjoin p, Term.conjoin_alwaysTrue p⟩,
    Term.foldl_conjoin_eq_foldr, fun A holds h ν p q => Term.evaluate_conjoin h ν p q,
    Term.occurrences_conjoin, fun p q hp hq => hp.conjoin hq, fun env henv => ⟨?_, ?_⟩⟩
  · exact isFlat_instantiate henv
  · intro session guard hsession hguard name args stack
    refine ⟨hsession.apply henv hguard name args stack, fun n => ?_⟩
    exact (Progress.IsFlat.start henv hsession hguard name args stack).iterate henv n

end SummaryInlining
