import SummaryInlining.Proofs.Rewritable

/-!
# The laws of substitution for constraints

A rewrite leaves the outline of a constraint: the callee, the origin, the location and the sorts of
the expressions. A constraint is evaluated to the values of its expressions, in a call also the
value of the variable that captures the result. With this, constraints are `Rewritable`, and the
laws that hold for expressions hold for them (`substitution_is_lawful`).

In an expression an answer is refused only when its sort is wrong, so a substitution asks for the
variables that occur up to the first one that is replaced by an expression of another sort
(`outcome_substitute`).
-/

set_option autoImplicit false

namespace SummaryInlining

/-- What no rewrite changes in a constraint: the sorts of the expressions, and all that is no
expression. -/
inductive Constraint.Outline (L : Type) where
  | require (origin : Origin) (location : L)
  | call (callee : String) (args : List (Option ValueSort)) (result : Option ValueSort)
    (location : L)

/-- The values of the expressions of a constraint. -/
inductive Constraint.Values (A : TermAlgebra) where
  | require (condition assuming : A.Carrier .bool)
  | call (args : List (Option (Sigma A.Carrier))) (result : Option (Sigma A.Carrier))
      (assuming : A.Carrier .bool)

namespace Constraint

variable {L : Type}

def outline : Constraint L → Outline L
  | .require q => .require q.origin q.location
  | .call c => .call c.callee (c.args.map (Option.map Expr.sort)) (c.result.map Var.sort) c.location

def values (A : TermAlgebra) (ν : A.Valuation) : Constraint L → Values A
  | .require q => .require (q.condition.evaluate A ν) (q.assuming.evaluate A ν)
  | .call c => .call (c.args.map (Option.map fun e => ⟨e.sort, e.term.evaluate A ν⟩))
      (c.result.map fun v => ⟨v.sort, ν v⟩) (c.assuming.evaluate A ν)

end Constraint

section

variable {σ : Type} {r : Rewrite σ} {state after : σ}

/-- A rewrite keeps the sort of an expression. -/
theorem sort_of_rewrite {e x : Expr} (h : outcomeIn (e.rewrite r) state = (.ok x, after)) :
    x.sort = e.sort :=
  expressions.outline_rewrite h

/-- A rewrite keeps the sorts of arguments, and which of them are known. -/
theorem sorts_of_rewriteArgs {args rewritten : List (Option Expr)}
    (h : outcomeIn (rewriteArgs r args) state = (.ok rewritten, after)) :
    rewritten.map (Option.map Expr.sort) = args.map (Option.map Expr.sort) := by
  induction args generalizing rewritten state with
  | nil =>
    cases h
    rfl
  | cons e rest ih =>
    cases e with
    | none =>
      obtain ⟨others, middle, hothers, h⟩ := exists_of_outcomeIn_bind h
      cases h
      exact congrArg (List.cons none) (ih hothers)
    | some e =>
      obtain ⟨x, middle, hx, h⟩ := exists_of_outcomeIn_bind h
      obtain ⟨others, last, hothers, h⟩ := exists_of_outcomeIn_bind h
      cases h
      simp only [List.map_cons, Option.map_some, sort_of_rewrite hx, ih hothers]

/-- A rewrite keeps the sort of a captured result, and whether there is one. -/
theorem sort_of_rewriteResult {result rewritten : Option Var}
    (h : outcomeIn (rewriteResult r result) state = (.ok rewritten, after)) :
    rewritten.map Var.sort = result.map Var.sort := by
  cases result with
  | none =>
    cases h
    rfl
  | some v =>
    obtain ⟨w, middle, hw, h⟩ := exists_of_outcomeIn_bind h
    cases h
    obtain ⟨answer, last, -, hanswer⟩ := exists_of_outcomeIn_bind hw
    split at hanswer
    · cases hanswer
      rfl
    · cases hanswer
      rfl
    · cases hanswer

end

section

variable {f g : Replacement}

/-- A replacement that succeeds on a captured result can fill its slot. -/
theorem takes_of_replaceResult? {result : Option Var} {replaced : Option Var}
    (h : replaceResult? f result = some replaced) : ∀ slot ∈ resultSlots result, slot.Takes f := by
  intro slot hslot
  obtain ⟨v, hv, rfl⟩ := List.mem_map.mp hslot
  rw [Option.mem_toList.mp hv, replaceResult?, Option.map_eq_some_iff] at h
  obtain ⟨w, hw, -⟩ := h
  exact Option.isSome_of_eq_some hw

/-- Any replacement can fill the slots in terms. -/
theorem takes_inTerm {slots : List Slot} {vs : List Var} (h : slots = vs.map .inTerm) :
    ∀ slot ∈ slots, slot.Takes f := by
  intro slot hslot
  rw [h] at hslot
  obtain ⟨v, -, rfl⟩ := List.mem_map.mp hslot
  trivial

/-- A term is a variable if it is made of this variable alone. -/
theorem Term.asVar?_eq_some_iff {s : ValueSort} {e : Term s} {v : Var} :
    e.asVar? = some v ↔ ∃ id, e = .var s id ∧ v = ⟨s, id⟩ := by
  cases e <;> simp [asVar?, eq_comm]

/-- Two replacements of a captured variable in a row are one replacement. -/
theorem Var.replace?_replace? (v : Var) :
    (v.replace? f).bind (Var.replace? g) = v.replace? fun v => (f v).replace g := by
  have hterm : ∀ {s : ValueSort} (e : Term s), e.asVar?.bind (Var.replace? g) =
      (e.replace g).asVar? := by
    intro s e
    cases e <;> rfl
  exact hterm (f v)

/-- Two replacements of a captured result in a row are one replacement. -/
theorem replaceResult?_replaceResult? (result : Option Var) :
    (replaceResult? f result).bind (replaceResult? g) =
      replaceResult? (fun v => (f v).replace g) result := by
  cases result with
  | none => rfl
  | some v =>
    simp only [replaceResult?, ← Var.replace?_replace? v]
    cases v.replace? f <;> rfl

end

namespace Constraint

variable {L : Type} {f g : Replacement}

/-- Two replacements in a constraint in a row are one replacement. -/
theorem replace?_replace? (c : Constraint L) :
    (c.replace? f).bind (replace? g) = c.replace? fun v => (f v).replace g := by
  cases c with
  | require q => simp [replace?, Term.replace_replace]
  | call c =>
    have hargs : (c.args.map (Option.map (Expr.replace f))).map (Option.map (Expr.replace g)) =
        c.args.map (Option.map (Expr.replace fun v => (f v).replace g)) := by
      rw [List.map_map, Option.map_comp_map]
      exact List.map_congr_left fun e _ => congrArg (fun h => Option.map h e) (funext fun e =>
        congrArg (Expr.mk e.sort) (e.term.replace_replace f g))
    simp only [replace?, ← replaceResult?_replaceResult? c.result]
    cases replaceResult? f c.result with
    | none => rfl
    | some result => simp [replace?, Term.replace_replace, hargs]

/-- A replacement that succeeds on a constraint can fill all of its slots. -/
theorem takes_of_replace? {c d : Constraint L} (h : c.replace? f = some d) :
    ∀ slot ∈ c.slots, slot.Takes f := by
  cases c with
  | require q =>
    rw [slots, List.forall_mem_append]
    exact ⟨takes_inTerm rfl, takes_inTerm rfl⟩
  | call c =>
    obtain ⟨result, hresult, -⟩ := Option.map_eq_some_iff.mp h
    rw [slots, List.forall_mem_append, List.forall_mem_append]
    exact ⟨takes_inTerm rfl, takes_of_replaceResult? hresult, takes_inTerm rfl⟩

/-- Replacing every variable by itself changes no constraint. -/
theorem replace?_ofVar (c : Constraint L) : c.replace? .ofVar = some c := by
  cases c with
  | require q => rw [replace?, Term.replace_ofVar, Term.replace_ofVar]
  | call c =>
    have hargs : c.args.map (Option.map (Expr.replace .ofVar)) = c.args := by
      have hexpr : Expr.replace .ofVar = id :=
        funext fun e => congrArg (Expr.mk e.sort) e.term.replace_ofVar
      rw [hexpr, Option.map_id, List.map_id]
    have hresult : replaceResult? .ofVar c.result = some c.result := by
      cases c.result <;> rfl
    rw [replace?, hresult, hargs, Term.replace_ofVar]
    rfl

/-- The values of a constraint after a replacement are those of the constraint, where each variable
has the value of what replaces it. -/
theorem values_replace? {A : TermAlgebra} {ν : A.Valuation} {c d : Constraint L}
    (h : c.replace? f = some d) : d.values A ν = c.values A fun v => (f v).evaluate A ν := by
  cases c with
  | require q =>
    cases h
    simp only [values, Term.evaluate_replace]
  | call c =>
    obtain ⟨result, hresult, rfl⟩ := Option.map_eq_some_iff.mp h
    have hcaptured : (result.map fun w => (⟨w.sort, ν w⟩ : Sigma A.Carrier)) =
        c.result.map fun v => ⟨v.sort, (f v).evaluate A ν⟩ := by
      cases hv : c.result with
      | none =>
        rw [hv] at hresult
        cases hresult
        rfl
      | some v =>
        rw [hv] at hresult
        obtain ⟨w, hw, rfl⟩ := Option.map_eq_some_iff.mp hresult
        obtain ⟨id, hvar, rfl⟩ := Term.asVar?_eq_some_iff.mp hw
        simp only [Option.map_some, hvar]
        rfl
    simp only [values, hcaptured, List.map_map, Option.map_comp_map, Term.evaluate_replace]
    refine congrArg (fun args => Values.call args _ _) (List.map_congr_left fun e _ => ?_)
    refine congrArg (fun g => Option.map g e) (funext fun x => ?_)
    exact congrArg (Sigma.mk x.sort) (x.term.evaluate_replace f)

end Constraint

/-- Rewrites are carried out on constraints. -/
def constraints (L : Type) : Rewritable (Constraint L) where
  slots := Constraint.slots
  occurrences := Constraint.occurrences
  map_var_slots := Constraint.map_var_slots
  rewrite r c := c.rewrite r
  replace? := Constraint.replace?
  visits_rewrite r c := c.visits_rewrite r
  takes_of_replace? := Constraint.takes_of_replace?
  replace?_replace? _ _ c := c.replace?_replace?
  replace?_ofVar := Constraint.replace?_ofVar
  Outline := Constraint.Outline L
  outline := Constraint.outline
  outline_rewrite := by
    intro σ r c d state after h
    cases c with
    | require q =>
      obtain ⟨condition, middle, -, h⟩ := exists_of_outcomeIn_bind h
      obtain ⟨assuming, last, -, h⟩ := exists_of_outcomeIn_bind h
      cases h
      rfl
    | call c =>
      obtain ⟨args, first, hargs, h⟩ := exists_of_outcomeIn_bind h
      obtain ⟨result, middle, hresult, h⟩ := exists_of_outcomeIn_bind h
      obtain ⟨assuming, last, -, h⟩ := exists_of_outcomeIn_bind h
      cases h
      simp only [Constraint.outline, sorts_of_rewriteArgs hargs, sort_of_rewriteResult hresult]
  Value := Constraint.Values
  value := Constraint.values
  value_replace? := Constraint.values_replace?

/-- A substitution in an expression is carried out when it replaces every variable that occurs by an
expression of its sort, and otherwise ends at the first variable that it does not. -/
theorem outcome_substitute (θ : Substitution) (e : Expr) :
    ((∀ v ∈ e.occurrences, ∀ x, θ v = some x → x.sort = v.sort) ∧
      ∃ b, (e.substitute θ).outcome = (.ok b, e.occurrences.toArray)) ∨
    ∃ before v behind x, e.occurrences = before ++ v :: behind ∧
      (∀ w ∈ before, ∀ y, θ w = some y → y.sort = w.sort) ∧ θ v = some x ∧ x.sort ≠ v.sort ∧
      (e.substitute θ).outcome =
        (.error (.sortMismatch v.sort x.sort), (before ++ [v]).toArray) := by
  have hkeeps : ∀ v, (Slot.inTerm v).refusal? (θ v) = none →
      ∀ x, θ v = some x → x.sort = v.sort := by
    intro v hfits x hx
    by_contra hsort
    rw [Slot.refusal?_inTerm_eq_some_iff.mpr ⟨x, hx, hsort, rfl⟩] at hfits
    cases hfits
  -- an expression has no slots for captured variables, whose refusals are different ones
  have hterm : ∀ slot ∈ e.slots, slot = .inTerm slot.var := by
    intro slot hslot
    obtain ⟨v, -, rfl⟩ := List.mem_map.mp hslot
    rfl
  rcases expressions.lawful.substituted θ e with hfits | hrefused
  · obtain ⟨hfits, b, hb, -⟩ := hfits
    exact .inl ⟨fun v hv => hkeeps v (hfits (.inTerm v) (List.mem_map_of_mem hv)), b, hb⟩
  · obtain ⟨before, slot, behind, error, hslots, hbefore, hslot, houtcome⟩ := hrefused
    have hmem : ∀ s ∈ before ++ slot :: behind, s = .inTerm s.var := by
      rw [← hslots]
      exact hterm
    obtain ⟨hearlier, hrest⟩ := List.forall_mem_append.mp hmem
    rw [hrest slot List.mem_cons_self] at hslot
    obtain ⟨x, hx, hsort, rfl⟩ := Slot.refusal?_inTerm_eq_some_iff.mp hslot
    refine .inr ⟨before.map Slot.var, slot.var, behind.map Slot.var, x, ?_, ?_, hx, hsort, ?_⟩
    · have hoccurrences : e.occurrences = (expressions.slots e).map Slot.var :=
        (expressions.map_var_slots e).symm
      rw [hoccurrences, hslots, List.map_append, List.map_cons]
    · refine List.forall_mem_map.mpr fun s hs => hkeeps s.var ?_
      have hfits := hbefore s hs
      rw [hearlier s hs] at hfits
      exact hfits
    · refine Eq.trans houtcome ?_
      rw [List.map_append]
      rfl

/-- The laws of substitution hold for expressions and for constraints. An answer is refused when it
is of another sort than the variable, and in the place of a captured result also when it is no
variable. -/
theorem substitution_is_lawful :
    expressions.Lawful ∧ (∀ L : Type, (constraints L).Lawful) ∧
    (∀ (θ : Substitution) (e : Expr),
      ((∀ v ∈ e.occurrences, ∀ x, θ v = some x → x.sort = v.sort) ∧
        ∃ b, (e.substitute θ).outcome = (.ok b, e.occurrences.toArray)) ∨
      ∃ before v behind x, e.occurrences = before ++ v :: behind ∧
        (∀ w ∈ before, ∀ y, θ w = some y → y.sort = w.sort) ∧ θ v = some x ∧ x.sort ≠ v.sort ∧
        (e.substitute θ).outcome =
          (.error (.sortMismatch v.sort x.sort), (before ++ [v]).toArray)) ∧
    (∀ (v : Var) (answer : Option Expr) (e : SubstitutionError),
      (Slot.inTerm v).refusal? answer = some e ↔
        ∃ x, answer = some x ∧ x.sort ≠ v.sort ∧ e = .sortMismatch v.sort x.sort) ∧
    ∀ (v : Var) (answer : Option Expr) (e : SubstitutionError),
      (Slot.captured v).refusal? answer = some e ↔
        ∃ x, answer = some x ∧
          (x.sort ≠ v.sort ∧ e = .sortMismatch v.sort x.sort ∨
            x.sort = v.sort ∧ x.term.asVar? = none ∧ e = .notAVariable v x.term.kind) :=
  ⟨expressions.lawful, fun L => (constraints L).lawful, outcome_substitute,
    fun _ _ _ => Slot.refusal?_inTerm_eq_some_iff, fun _ _ _ => Slot.refusal?_captured_eq_some_iff⟩

end SummaryInlining
