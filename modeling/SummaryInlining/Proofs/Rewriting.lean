import SummaryInlining.Proofs.Outcomes
import SummaryInlining.Proofs.TermReplacement
import SummaryInlining.Summary.Substitution

/-!
# What a rewrite is asked for

What a rewrite with a state answers may depend on how often and in which order it has been asked
before. So the traversals that carry it out have to ask for each variable where it stands, once, and
from left to right.

The places at which variables stand are the slots of a term or of a constraint. `Rewrite.askAll`
asks for slots one after the other, until an answer is refused, and does nothing else. `Visits` says
that an action comes to the same: it fails with the refusal that ends the questions, or it puts the
answers into the slots, and the state is the one that the questions leave. Actions of this kind can
be put together (`Visits.map`, `Visits.map₂`), and so every traversal is one: of terms
(`Term.visits_rewrite`), of expressions, and of constraints (`Constraint.visits_rewrite`).
-/

set_option autoImplicit false

namespace SummaryInlining

/-- A place at which a variable stands. -/
inductive Slot where
  /-- In a term, where every expression of its sort can stand in its place. -/
  | inTerm (v : Var)
  /-- Behind a call, where it captures the result, and only a variable can stand in its place. -/
  | captured (v : Var)

namespace Slot

def var : Slot → Var
  | .inTerm v => v
  | .captured v => v

/-- Why an answer cannot be put into a slot: it is of another sort than the variable, or should be a
variable and is none. -/
def refusal? (slot : Slot) : Option Expr → Option SubstitutionError
  | none => none
  | some e =>
    if e.sort = slot.var.sort then
      match slot, e.term with
      | .inTerm _, _ => none
      | .captured _, .var _ _ => none
      | .captured v, other => some (.notAVariable v other.kind)
    else some (.sortMismatch slot.var.sort e.sort)

/-- No slot takes an expression of another sort. -/
theorem refusal?_of_ne {slot : Slot} {e : Expr} (h : e.sort ≠ slot.var.sort) :
    slot.refusal? (some e) = some (.sortMismatch slot.var.sort e.sort) := by
  simp only [refusal?.eq_def, if_neg h]

/-- What stands in a slot after an answer. -/
def filled (slot : Slot) (answer : Option Expr) : Expr := answer.getD (Expr.ofVar slot.var)

/-- The expression that a replacement puts into a slot. -/
def fill (f : Replacement) (slot : Slot) : Expr := ⟨slot.var.sort, f slot.var⟩

end Slot

namespace Rewrite

variable {σ : Type} (r : Rewrite σ)

/-- Asks what is to stand in a slot. -/
def askFor (slot : Slot) : Rewriting σ Expr := do
  let answer ← r slot.var
  match slot.refusal? answer with
  | some e => throw e
  | none => return slot.filled answer

/-- Asks for slots one after the other, up to the first one whose answer is refused. -/
def askAll (slots : List Slot) : Rewriting σ (List Expr) := slots.mapM r.askFor

section

variable {r} {v : Var} {state after : σ}

/-- A variable is looked up in the state as it is. -/
theorem outcomeIn_lookUp {answer : Option Expr} (h : (r v).run state = (answer, after)) :
    outcomeIn (liftM (r v) : Rewriting σ (Option Expr)) state = (.ok answer, after) := by
  have hlift : outcomeIn (liftM (r v) : Rewriting σ (Option Expr)) state =
      (.ok ((r v).run state).1, ((r v).run state).2) := rfl
  rw [hlift, h]

/-- A variable without answer has no replacement. -/
theorem outcomeIn_replacement?_of_none (h : (r v).run state = (none, after)) :
    outcomeIn (r.replacement? v) state = (.ok none, after) := by
  rw [replacement?, outcomeIn_bind_of_ok (outcomeIn_lookUp h)]
  rfl

/-- An answer of the sort of the variable is its replacement. -/
theorem outcomeIn_replacement?_of_some {e : Term v.sort}
    (h : (r v).run state = (some ⟨v.sort, e⟩, after)) :
    outcomeIn (r.replacement? v) state = (.ok (some e), after) := by
  rw [replacement?, outcomeIn_bind_of_ok (outcomeIn_lookUp h)]
  simp only [dif_pos]
  rfl

/-- An answer of another sort is an error. -/
theorem outcomeIn_replacement?_of_ne {e : Expr} (h : (r v).run state = (some e, after))
    (hsort : e.sort ≠ v.sort) :
    outcomeIn (r.replacement? v) state = (.error (.sortMismatch v.sort e.sort), after) := by
  rw [replacement?, outcomeIn_bind_of_ok (outcomeIn_lookUp h)]
  simp only [dif_neg hsort]
  rfl

end

/-- Asking for a slot has the answer put into it, unless this is refused. -/
theorem outcomeIn_askFor (slot : Slot) (state : σ) :
    outcomeIn (r.askFor slot) state =
      match slot.refusal? ((r slot.var).run state).1 with
      | some e => (.error e, ((r slot.var).run state).2)
      | none => (.ok (slot.filled ((r slot.var).run state).1), ((r slot.var).run state).2) := by
  generalize hasked : (r slot.var).run state = answered
  obtain ⟨answer, after⟩ := answered
  rw [askFor, outcomeIn_bind_of_ok (outcomeIn_lookUp hasked)]
  simp only
  cases slot.refusal? answer <;> rfl

/-- Slots are asked for in order. -/
theorem outcomeIn_askAll_cons (slot : Slot) (rest : List Slot) (state : σ) :
    outcomeIn (r.askAll (slot :: rest)) state =
      outcomeIn (r.askFor slot >>= fun first => r.askAll rest >>= fun others =>
        pure (first :: others)) state := by
  rw [askAll, List.mapM_cons]
  rfl

/-- A single slot is asked for alone. -/
theorem outcomeIn_askAll_singleton (slot : Slot) (state : σ) :
    outcomeIn (r.askAll [slot]) state =
      match slot.refusal? ((r slot.var).run state).1 with
      | some e => (.error e, ((r slot.var).run state).2)
      | none => (.ok [slot.filled ((r slot.var).run state).1], ((r slot.var).run state).2) := by
  rw [outcomeIn_askAll_cons, outcomeIn_bind, outcomeIn_askFor]
  cases slot.refusal? ((r slot.var).run state).1 <;> rfl

/-- The slots of a second part are asked for when no answer of the first part is refused. -/
theorem askAll_append (first second : List Slot) :
    r.askAll (first ++ second) =
      r.askAll first >>= fun xs => r.askAll second >>= fun ys => pure (xs ++ ys) := by
  unfold askAll
  exact List.mapM_append

/-- There is an answer for every slot, unless one is refused. -/
theorem length_of_askAll {slots : List Slot} {state after : σ} {answers : List Expr}
    (h : outcomeIn (r.askAll slots) state = (.ok answers, after)) :
    answers.length = slots.length := by
  induction slots generalizing state answers with
  | nil =>
    cases h
    rfl
  | cons slot rest ih =>
    rw [outcomeIn_askAll_cons] at h
    obtain ⟨first, middle, -, hothers⟩ := exists_of_outcomeIn_bind h
    obtain ⟨others, last, hrest, hanswers⟩ := exists_of_outcomeIn_bind hothers
    cases hanswers
    rw [List.length_cons, List.length_cons, ih hrest]

end Rewrite

/-- An action asks for slots and puts the answers into them. It fails when an answer is refused.
Otherwise what occurs in the result is what occurs in the answers, and if the answers are those of a
replacement, it is the result of this replacement. -/
def Visits {σ α : Type} (r : Rewrite σ) (slots : List Slot) (action : Rewriting σ α)
    (occurrences : α → List Var) (replaced : Replacement → Option α) : Prop :=
  ∀ state,
    match outcomeIn (r.askAll slots) state with
    | (.error e, after) => outcomeIn action state = (.error e, after)
    | (.ok answers, after) => ∃ a, outcomeIn action state = (.ok a, after) ∧
      occurrences a = answers.flatMap Expr.occurrences ∧
      ∀ f : Replacement, answers = slots.map (Slot.fill f) → replaced f = some a

namespace Visits

variable {σ α β γ : Type} {r : Rewrite σ} {slots others : List Slot}
  {action : Rewriting σ α} {other : Rewriting σ β} {occurrences : α → List Var}
  {occurrences' : β → List Var} {occurrences'' : γ → List Var} {replaced : Replacement → Option α}
  {replaced' : Replacement → Option β}

/-- Nothing is asked where there are no slots. -/
theorem pure {a : α} (h : occurrences a = []) :
    Visits r [] (Pure.pure a) occurrences fun _ => some a :=
  fun _ => ⟨a, rfl, h, fun _ _ => rfl⟩

/-- What is built of the result of a visit visits the same slots. -/
theorem map (h : Visits r slots action occurrences replaced) (g : α → β)
    (hg : ∀ a, occurrences' (g a) = occurrences a) :
    Visits r slots (action >>= fun a => Pure.pure (g a)) occurrences'
      fun f => (replaced f).map g := by
  intro state
  have hstate := h state
  cases hasked : outcomeIn (r.askAll slots) state with
  | mk answers after =>
    rw [hasked] at hstate
    cases answers with
    | error e =>
      simp only at hstate ⊢
      rw [outcomeIn_bind, hstate]
    | ok answers =>
      obtain ⟨a, ha, hoccurrences, hreplaced⟩ := hstate
      refine ⟨g a, outcomeIn_map_of_ok ha g, (hg a).trans hoccurrences, fun f hf => ?_⟩
      exact congrArg (Option.map g) (hreplaced f hf)

/-- Two parts are visited one after the other. -/
theorem map₂ (h : Visits r slots action occurrences replaced)
    (h' : Visits r others other occurrences' replaced') (g : α → β → γ)
    (hg : ∀ a b, occurrences'' (g a b) = occurrences a ++ occurrences' b) :
    Visits r (slots ++ others) (action >>= fun a => other >>= fun b => Pure.pure (g a b))
      occurrences'' fun f => (replaced f).bind fun a => (replaced' f).map (g a) := by
  intro state
  have hstate := h state
  rw [Rewrite.askAll_append, outcomeIn_bind]
  cases hasked : outcomeIn (r.askAll slots) state with
  | mk answers middle =>
    rw [hasked] at hstate
    cases answers with
    | error e =>
      simp only at hstate ⊢
      rw [outcomeIn_bind, hstate]
    | ok answers =>
      obtain ⟨a, ha, hoccurrences, hreplaced⟩ := hstate
      have hmiddle := h' middle
      simp only
      rw [outcomeIn_bind]
      cases hasked' : outcomeIn (r.askAll others) middle with
      | mk answers' after =>
        rw [hasked'] at hmiddle
        cases answers' with
        | error e =>
          simp only at hmiddle ⊢
          rw [outcomeIn_bind_of_ok ha, outcomeIn_bind, hmiddle]
        | ok answers' =>
          obtain ⟨b, hb, hoccurrences', hreplaced'⟩ := hmiddle
          refine ⟨g a b, outcomeIn_map₂_of_ok ha hb g, ?_, fun f hf => ?_⟩
          · rw [hg, hoccurrences, hoccurrences', List.flatMap_append]
          · rw [List.map_append] at hf
            obtain ⟨hfirst, hsecond⟩ := List.append_inj hf
              (by rw [List.length_map, r.length_of_askAll hasked])
            simp only [hreplaced f hfirst, hreplaced' f hsecond, Option.bind_some,
              Option.map_some]

end Visits

/-! ## Terms -/

namespace Term

variable {σ : Type} (r : Rewrite σ)

/-- A variable in a term has a single slot. -/
theorem visits_var (v : Var) :
    Visits r [.inTerm v] ((Term.ofVar v).rewrite r) Term.occurrences fun f => some (f v) := by
  intro state
  have hterm : (Term.ofVar v).rewrite r =
      r.replacement? v >>= fun found => pure (found.getD (.ofVar v)) := rfl
  rw [Rewrite.outcomeIn_askAll_singleton, hterm]
  simp only [Slot.var]
  generalize hasked : (r v).run state = answered
  obtain ⟨answer, after⟩ := answered
  -- the variable stays, is replaced, or its answer is refused
  cases answer with
  | none =>
    have hnone := Rewrite.outcomeIn_replacement?_of_none hasked
    refine ⟨.ofVar v, outcomeIn_map_of_ok hnone _, rfl, fun f hf => congrArg some ?_⟩
    simpa [Slot.fill, Slot.filled, Slot.var, Expr.ofVar, toExpr] using hf.symm
  | some answer =>
    obtain ⟨s, e⟩ := answer
    by_cases hsort : s = v.sort
    · subst hsort
      have hsome := Rewrite.outcomeIn_replacement?_of_some hasked
      have hfits : (Slot.inTerm v).refusal? (some ⟨v.sort, e⟩) = none := by
        simp [Slot.refusal?, Slot.var]
      simp only [hfits]
      refine ⟨e, outcomeIn_map_of_ok hsome _, ?_, fun f hf => congrArg some ?_⟩
      · simp [Slot.filled, Expr.occurrences]
      · simpa [Slot.fill, Slot.filled, Slot.var] using hf.symm
    · have herror := Rewrite.outcomeIn_replacement?_of_ne hasked hsort
      rw [Slot.refusal?_of_ne hsort, outcomeIn_bind, herror]
      rfl

variable {r}

/-- The slots of a term are its occurrences. -/
def slots {s : ValueSort} (e : Term s) : List Slot := e.occurrences.map .inTerm

/-- A traversal of a term asks for its slots. -/
def IsVisited (r : Rewrite σ) {s : ValueSort} (e : Term s) : Prop :=
  Visits r e.slots (e.rewrite r) occurrences fun f => some (e.replace f)

/-- A term with two operands is visited by visiting the one and then the other. -/
theorem isVisited_operands {s t u : ValueSort} {l : Term s} {q : Term t} (hl : IsVisited r l)
    (hq : IsVisited r q) (g : Term s → Term t → Term u)
    (hg : ∀ a b, (g a b).occurrences = a.occurrences ++ b.occurrences) :
    Visits r ((l.occurrences ++ q.occurrences).map .inTerm)
      (l.rewrite r >>= fun a => q.rewrite r >>= fun b => pure (g a b)) occurrences
      fun f => some (g (l.replace f) (q.replace f)) := by
  rw [List.map_append]
  exact hl.map₂ hq g hg

/-- The elements of a list are visited one after the other, the unknown ones without being asked
for. -/
theorem visits_elements {es : List (Option (Term .int))} (hes : ∀ e, some e ∈ es → IsVisited r e) :
    Visits r ((elementOccurrences es).map .inTerm)
      (mapElementsM (fun v => do return (← r.replacement? v).getD (.ofVar v)) es)
      elementOccurrences fun f => some (es.map (Option.map (replace f))) := by
  induction es with
  | nil => exact Visits.pure rfl
  | cons e rest ih =>
    have hrest := ih fun e he => hes e (List.mem_cons_of_mem _ he)
    cases e with
    | none => exact hrest.map (List.cons none) fun _ => rfl
    | some e =>
      rw [elementOccurrences, List.map_append]
      exact (hes e List.mem_cons_self).map₂ hrest (fun a b => some a :: b) fun _ _ => rfl

/-- The operands of a connective are visited one after the other. -/
theorem visits_operands {ps : List (Term .bool)} (hps : ∀ p ∈ ps, IsVisited r p) :
    Visits r ((operandOccurrences ps).map .inTerm)
      (mapOperandsM (fun v => do return (← r.replacement? v).getD (.ofVar v)) ps)
      operandOccurrences fun f => some (ps.map (replace f)) := by
  induction ps with
  | nil => exact Visits.pure rfl
  | cons p rest ih =>
    have hrest := ih fun q hq => hps q (List.mem_cons_of_mem _ hq)
    rw [operandOccurrences, List.map_append]
    exact (hps p List.mem_cons_self).map₂ hrest List.cons fun _ _ => rfl

variable (r)

/-- A traversal of a term asks for its occurrences, each one once and from left to right. -/
theorem visits_rewrite {s : ValueSort} (e : Term s) : IsVisited r e := by
  induction e using induction with
  | var s id => exact visits_var r ⟨s, id⟩
  | literal n => exact Visits.pure rfl
  | length l ih => exact ih.map Term.length fun _ => rfl
  | element i l ih => exact ih.map (Term.element i) fun _ => rfl
  | arith op l q ihl ihq => exact isVisited_operands ihl ihq (Term.arith op) fun _ _ => rfl
  | list es ih =>
    unfold IsVisited
    simp only [replace_list]
    exact (visits_elements ih).map Term.list fun _ => rfl
  | broadcast l q ihl ihq => exact isVisited_operands ihl ihq Term.broadcast fun _ _ => rfl
  | truth b => exact Visits.pure rfl
  | not p ih => exact ih.map Term.not fun _ => rfl
  | and ps ih =>
    unfold IsVisited
    simp only [replace_and]
    exact (visits_operands ih).map Term.and fun _ => rfl
  | or ps ih =>
    unfold IsVisited
    simp only [replace_or]
    exact (visits_operands ih).map Term.or fun _ => rfl
  | compare op l q ihl ihq => exact isVisited_operands ihl ihq (Term.compare op) fun _ _ => rfl
  | listEq l q ihl ihq => exact isVisited_operands ihl ihq Term.listEq fun _ _ => rfl
  | boolEq p q ihp ihq => exact isVisited_operands ihp ihq Term.boolEq fun _ _ => rfl

end Term

/-! ## Expressions and constraints -/

namespace Expr

def slots (e : Expr) : List Slot := e.term.slots

/-- The slots of some optional expressions. -/
def listSlots (es : List (Option Expr)) : List Slot := (listOccurrences es).map .inTerm

def replace (f : Replacement) (e : Expr) : Expr := ⟨e.sort, e.term.replace f⟩

variable {σ : Type} (r : Rewrite σ)

/-- Rewriting an expression visits its slots. -/
theorem visits_rewrite (e : Expr) :
    Visits r e.slots (e.rewrite r) occurrences fun f => some (e.replace f) :=
  (e.term.visits_rewrite r).map (Expr.mk e.sort) fun _ => rfl

/-- Rewriting arguments visits the slots of those that are known, in order. -/
theorem visits_rewriteArgs (es : List (Option Expr)) :
    Visits r (listSlots es) (rewriteArgs r es) listOccurrences
      fun f => some (es.map (Option.map (replace f))) := by
  induction es with
  | nil => exact Visits.pure rfl
  | cons e rest ih =>
    cases e with
    | none => exact ih.map (List.cons none) fun _ => rfl
    | some e =>
      have hslots : listSlots (some e :: rest) = e.slots ++ listSlots rest := by
        rw [listSlots, listOccurrences, List.flatMap_cons, List.map_append]
        rfl
      rw [hslots]
      exact (e.visits_rewrite r).map₂ ih (fun a b => some a :: b) fun _ _ => rfl

end Expr

/-- The variable that a term is. -/
def Term.asVar? {s : ValueSort} : Term s → Option Var
  | .var s id => some ⟨s, id⟩
  | _ => none

/-- The variable that a replacement puts behind a call. Nothing but a variable can stand there. -/
def Var.replace? (f : Replacement) (v : Var) : Option Var := (f v).asVar?

/-- The result that a call captures after a replacement. -/
def replaceResult? (f : Replacement) : Option Var → Option (Option Var)
  | none => some none
  | some v => (v.replace? f).map some

section

variable {σ : Type} (r : Rewrite σ)

/-- A captured result has a single slot, which only takes a variable. -/
theorem Var.visits_rewrite (v : Var) :
    Visits r [.captured v] (v.rewrite r) (fun w => [w]) fun f => v.replace? f := by
  intro state
  rw [Rewrite.outcomeIn_askAll_singleton, Var.rewrite]
  simp only [Slot.var]
  generalize hasked : (r v).run state = answered
  obtain ⟨answer, after⟩ := answered
  obtain ⟨t, id⟩ := v
  -- a captured variable is replaced by a variable of its sort, and any other answer is refused
  cases answer with
  | none =>
    rw [outcomeIn_bind_of_ok (Rewrite.outcomeIn_replacement?_of_none hasked)]
    refine ⟨⟨t, id⟩, rfl, rfl, fun f hf => ?_⟩
    have hf : Term.ofVar ⟨t, id⟩ = f ⟨t, id⟩ := by
      simpa [Slot.fill, Slot.filled, Slot.var, Expr.ofVar, Term.toExpr] using hf
    rw [Var.replace?, ← hf]
    rfl
  | some answer =>
    obtain ⟨s, e⟩ := answer
    by_cases hsort : s = t
    · subst hsort
      rw [outcomeIn_bind_of_ok (Rewrite.outcomeIn_replacement?_of_some hasked)]
      cases e with
      | var s id' =>
        simp only [Slot.refusal?, Slot.var, if_true]
        refine ⟨⟨s, id'⟩, rfl, rfl, fun f hf => ?_⟩
        have hf : Term.var s id' = f ⟨s, id⟩ := by
          simpa [Slot.fill, Slot.filled, Slot.var] using hf
        rw [Var.replace?, ← hf]
        rfl
      | _ =>
        simp only [Slot.refusal?, Slot.var, if_true]
        rfl
    · have herror := Rewrite.outcomeIn_replacement?_of_ne hasked hsort
      rw [Slot.refusal?_of_ne hsort, outcomeIn_bind, herror]
      rfl

/-- The slots of a result that may be captured. -/
def resultSlots (result : Option Var) : List Slot := result.toList.map .captured

/-- Rewriting a captured result visits its slot, if there is one. -/
theorem visits_rewriteResult (result : Option Var) :
    Visits r (resultSlots result) (rewriteResult r result) Option.toList
      fun f => replaceResult? f result := by
  cases result with
  | none => exact Visits.pure rfl
  | some v => exact (v.visits_rewrite r).map some fun _ => rfl

end

namespace Constraint

variable {L : Type}

/-- The slots of a constraint, in the order of its occurrences. -/
def slots : Constraint L → List Slot
  | .require q => q.condition.slots ++ q.assuming.slots
  | .call c => Expr.listSlots c.args ++ (resultSlots c.result ++ c.assuming.slots)

/-- The variables in the slots of a constraint are its occurrences. -/
theorem map_var_slots (c : Constraint L) : c.slots.map Slot.var = c.occurrences := by
  have hterm : ∀ vs : List Var, (vs.map Slot.inTerm).map Slot.var = vs := by
    intro vs
    rw [List.map_map]
    exact List.map_id vs
  have hresult : ∀ vs : List Var, (vs.map Slot.captured).map Slot.var = vs := by
    intro vs
    rw [List.map_map]
    exact List.map_id vs
  cases c with
  | require q => rw [slots, List.map_append, Term.slots, Term.slots, hterm, hterm, occurrences]
  | call c =>
    rw [slots, List.map_append, List.map_append, Expr.listSlots, resultSlots, Term.slots, hterm,
      hterm, hresult, occurrences, List.append_assoc]

/-- The constraint after a replacement, which has to put a variable in the place of a captured
result. -/
def replace? (f : Replacement) : Constraint L → Option (Constraint L)
  | .require q =>
    some (.require { q with condition := q.condition.replace f, assuming := q.assuming.replace f })
  | .call c =>
    (replaceResult? f c.result).map fun result =>
      .call { c with
        args := c.args.map (Option.map (Expr.replace f))
        result
        assuming := c.assuming.replace f }

/-- A traversal of a constraint asks for its occurrences, each one once and in their order. -/
theorem visits_rewrite {σ : Type} (r : Rewrite σ) (c : Constraint L) :
    Visits r c.slots (c.rewrite r) occurrences fun f => c.replace? f := by
  cases c with
  | require q =>
    exact (q.condition.visits_rewrite r).map₂ (q.assuming.visits_rewrite r)
      (fun condition assuming => Constraint.require { q with condition, assuming }) fun _ _ => rfl
  | call c =>
    have hbehind : Visits r (resultSlots c.result ++ c.assuming.slots) _
        (fun behind : Option Var × Term .bool => behind.1.toList ++ behind.2.occurrences) _ :=
      (visits_rewriteResult r c.result).map₂ (c.assuming.visits_rewrite r) Prod.mk fun _ _ => rfl
    have hcall : Visits r (Constraint.call c).slots _ occurrences _ :=
      (Expr.visits_rewriteArgs r c.args).map₂ hbehind
        (fun args behind =>
          Constraint.call { c with args, result := behind.1, assuming := behind.2 })
        fun _ _ => List.append_assoc _ _ _
    have hreplaced : (fun f => (Constraint.call c).replace? f) = fun f =>
        (some (c.args.map (Option.map (Expr.replace f)))).bind fun args =>
          ((replaceResult? f c.result).bind fun result =>
            (some (c.assuming.replace f)).map (Prod.mk result)).map fun behind =>
              Constraint.call { c with args, result := behind.1, assuming := behind.2 } := by
      funext f
      rw [replace?]
      cases replaceResult? f c.result <;> rfl
    rw [hreplaced]
    intro state
    have hstate := hcall state
    simp only [bind_assoc, pure_bind] at hstate
    exact hstate

end Constraint

end SummaryInlining
