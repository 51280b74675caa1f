import SummaryInlining.Proofs.Rewriting
import SummaryInlining.Proofs.TermAlgebra

/-!
# What rewrites are carried out on

The laws hold alike for expressions and for constraints, so they are stated once, for a
`Rewritable`: something with slots, on which rewrites are carried out. A rewrite with a state is
asked for the slots in their order, up to the first answer that is refused (`Lawful.refused`), and
puts the answers into the slots (`Lawful.answered`). The answers of a substitution are known
beforehand, and so is where it is refused (`Lawful.substituted`). Two substitutions that keep sorts
can be carried out at once (`Lawful.composes`), and a substitution that keeps sorts changes values
as if it were carried out on the valuation (`Lawful.keeps_value`). A rewrite without answers changes
nothing but its own state (`Lawful.identity`).

A substitution that keeps sorts is a `Replacement`, except that it may be refused at a captured
result (`Rewritable.substitute?_eq_replace?`). So the last three laws come from laws of
replacements, which are what a `Rewritable` has to supply, together with the description of its
traversal.
-/

set_option autoImplicit false

namespace SummaryInlining

namespace Slot

/-- In a term an answer is refused when it is of another sort than the variable. -/
theorem refusal?_inTerm_eq_some_iff {v : Var} {answer : Option Expr} {e : SubstitutionError} :
    (inTerm v).refusal? answer = some e ↔
      ∃ x, answer = some x ∧ x.sort ≠ v.sort ∧ e = .sortMismatch v.sort x.sort := by
  cases answer with
  | none => simp [refusal?]
  | some x =>
    by_cases hsort : x.sort = v.sort
    · simp [refusal?, var, hsort]
    · rw [refusal?_of_ne hsort]
      constructor
      · rintro ⟨⟩
        exact ⟨x, rfl, hsort, rfl⟩
      · rintro ⟨x, ⟨⟩, -, rfl⟩
        rfl

/-- Behind a call an answer is also refused when it is no variable. -/
theorem refusal?_captured_eq_some_iff {v : Var} {answer : Option Expr} {e : SubstitutionError} :
    (captured v).refusal? answer = some e ↔
      ∃ x, answer = some x ∧
        (x.sort ≠ v.sort ∧ e = .sortMismatch v.sort x.sort ∨
          x.sort = v.sort ∧ x.term.asVar? = none ∧ e = .notAVariable v x.term.kind) := by
  cases answer with
  | none => simp [refusal?]
  | some x =>
    obtain ⟨s, x⟩ := x
    by_cases hsort : s = v.sort
    · cases x <;> simp [refusal?, var, hsort, Term.asVar?, eq_comm]
    · simp [refusal?, var, hsort, eq_comm]

/-- The slot can be filled by a replacement: a captured result has to become a variable. -/
def Takes (f : Replacement) : Slot → Prop
  | .inTerm _ => True
  | .captured v => (v.replace? f).isSome

end Slot

namespace Substitution

/-- No variable is replaced by an expression of another sort. -/
def KeepsSorts (θ : Substitution) : Prop := ∀ v e, θ v = some e → e.sort = v.sort

/-- The term that a substitution puts in the place of a variable, if it keeps its sort. -/
def replacement (θ : Substitution) : Replacement := fun v =>
  ((θ v).bind fun e => e.as? v.sort).getD (.ofVar v)

/-- The substitution that carries out `θ`, and then `η` on the replacements and on the variables
that `θ` leaves. -/
def andThen (θ η : Substitution) : Substitution := fun v =>
  match θ v with
  | none => η v
  | some e => (e.substitute η).outcome.1.toOption

/-- The answers fit into the slots. -/
def Fits (θ : Substitution) (slots : List Slot) : Prop :=
  ∀ slot ∈ slots, slot.refusal? (θ slot.var) = none

end Substitution

/-- The valuation that gives each variable the value of its replacement. -/
def TermAlgebra.Valuation.after {A : TermAlgebra} (ν : A.Valuation) (θ : Substitution) :
    A.Valuation :=
  fun v => (θ.replacement v).evaluate A ν

/-! ## What is asked of a substitution -/

section

variable {θ : Substitution} {slots : List Slot}

/-- A substitution that is asked for a slot notes the variable and answers, unless the answer is
refused. -/
theorem outcomeIn_askFor_recorded (θ : Substitution) (slot : Slot) (asked : Array Var) :
    outcomeIn (θ.recorded.askFor slot) asked =
      match slot.refusal? (θ slot.var) with
      | some e => (.error e, asked.push slot.var)
      | none => (.ok (slot.filled (θ slot.var)), asked.push slot.var) := by
  rw [Rewrite.outcomeIn_askFor]
  rfl

/-- A substitution whose answers fit is asked for all slots. -/
theorem outcomeIn_askAll_of_fits (h : θ.Fits slots) (asked : Array Var) :
    outcomeIn (θ.recorded.askAll slots) asked =
      (.ok (slots.map fun slot => slot.filled (θ slot.var)),
        asked ++ (slots.map Slot.var).toArray) := by
  induction slots generalizing asked with
  | nil => simp [Rewrite.askAll]
  | cons slot rest ih =>
    obtain ⟨hslot, hrest⟩ := List.forall_mem_cons.mp h
    have hfirst := outcomeIn_askFor_recorded θ slot asked
    rw [hslot] at hfirst
    rw [Rewrite.outcomeIn_askAll_cons, outcomeIn_map₂_of_ok hfirst (ih hrest _) List.cons]
    simp

/-- The first answer that does not fit ends the questions. -/
theorem outcomeIn_askAll_of_refused {before behind : List Slot} {slot : Slot}
    {e : SubstitutionError} (hbefore : θ.Fits before) (hslot : slot.refusal? (θ slot.var) = some e)
    (asked : Array Var) :
    outcomeIn (θ.recorded.askAll (before ++ slot :: behind)) asked =
      (.error e, asked ++ ((before ++ [slot]).map Slot.var).toArray) := by
  rw [Rewrite.askAll_append, outcomeIn_bind_of_ok (outcomeIn_askAll_of_fits hbefore asked),
    outcomeIn_bind, Rewrite.outcomeIn_askAll_cons, outcomeIn_bind, outcomeIn_askFor_recorded, hslot]
  simp

/-- Either all answers fit, or there is a first one that does not. -/
theorem Substitution.fits_or_refused (θ : Substitution) (slots : List Slot) :
    θ.Fits slots ∨ ∃ before slot behind e, slots = before ++ slot :: behind ∧ θ.Fits before ∧
      slot.refusal? (θ slot.var) = some e := by
  induction slots with
  | nil => exact .inl fun slot hslot => absurd hslot List.not_mem_nil
  | cons slot rest ih =>
    cases hslot : slot.refusal? (θ slot.var) with
    | some e => exact .inr ⟨[], slot, rest, e, rfl, fun _ h => absurd h List.not_mem_nil, hslot⟩
    | none =>
      rcases ih with hrest | ⟨before, other, behind, e, rfl, hbefore, hother⟩
      · exact .inl (List.forall_mem_cons.mpr ⟨hslot, hrest⟩)
      · exact .inr ⟨slot :: before, other, behind, e, rfl,
          List.forall_mem_cons.mpr ⟨hslot, hbefore⟩, hother⟩

/-- What a substitution that keeps sorts answers is its replacement, or the variable is left. -/
theorem Substitution.KeepsSorts.answer_cases (h : θ.KeepsSorts) (v : Var) :
    (θ v = none ∧ θ.replacement v = .ofVar v) ∨ θ v = some ⟨v.sort, θ.replacement v⟩ := by
  unfold Substitution.replacement
  cases hanswer : θ v with
  | none => exact .inl ⟨rfl, rfl⟩
  | some e =>
    obtain ⟨s, e⟩ := e
    obtain rfl : s = v.sort := h _ _ hanswer
    have hself : Expr.as? ⟨v.sort, e⟩ v.sort = some e := Expr.as?_eq_some_iff.mpr rfl
    rw [Option.bind_some, hself]
    exact .inr rfl

/-- A substitution that keeps sorts fits where its replacement can be put. -/
theorem Substitution.KeepsSorts.refusal?_eq_none_iff (h : θ.KeepsSorts) (slot : Slot) :
    slot.refusal? (θ slot.var) = none ↔ slot.Takes θ.replacement := by
  rcases h.answer_cases slot.var with ⟨hanswer, hreplacement⟩ | hanswer
  · rw [hanswer]
    cases slot with
    | inTerm v => exact iff_of_true rfl trivial
    | captured v =>
      have hreplacement : θ.replacement v = .ofVar v := hreplacement
      simp [Slot.Takes, Slot.refusal?, Var.replace?, hreplacement, Term.ofVar, Term.asVar?]
  · rw [hanswer]
    cases slot with
    | inTerm v => simp [Slot.Takes, Slot.refusal?, Slot.var]
    | captured v =>
      simp only [Slot.Takes, Slot.refusal?, Slot.var, Var.replace?, if_true]
      generalize θ.replacement v = replacement
      obtain ⟨s, id⟩ := v
      cases replacement <;> simp [Term.asVar?]

/-- The answers of a substitution that keeps sorts are those of its replacement. -/
theorem Substitution.KeepsSorts.filled_eq_fill (h : θ.KeepsSorts) (slot : Slot) :
    slot.filled (θ slot.var) = slot.fill θ.replacement := by
  rcases h.answer_cases slot.var with ⟨hanswer, hreplacement⟩ | hanswer
  · rw [hanswer, Slot.fill, hreplacement]
    rfl
  · rw [hanswer]
    rfl

end

/-- A rewrite that answers nothing is asked for all slots. -/
theorem outcomeIn_askAll_of_unanswered {σ : Type} {r : Rewrite σ}
    (h : ∀ v state, ((r v).run state).1 = none) (slots : List Slot) (state : σ) :
    outcomeIn (r.askAll slots) state =
      (.ok (slots.map (Slot.fill .ofVar)),
        (slots.map Slot.var).foldl (fun state v => ((r v).run state).2) state) := by
  induction slots generalizing state with
  | nil => rfl
  | cons slot rest ih =>
    have hfirst : outcomeIn (r.askFor slot) state =
        (.ok (Expr.ofVar slot.var), ((r slot.var).run state).2) := by
      rw [Rewrite.outcomeIn_askFor, h]
      rfl
    rw [Rewrite.outcomeIn_askAll_cons, outcomeIn_map₂_of_ok hfirst (ih _) List.cons]
    rfl

/-! ## What rewrites are carried out on -/

/-- Something that rewrites are carried out on. -/
structure Rewritable (α : Type) where
  /-- Where variables stand, from left to right. -/
  slots : α → List Slot
  occurrences : α → List Var
  map_var_slots : ∀ a, (slots a).map Slot.var = occurrences a
  /-- Carries out a rewrite. -/
  rewrite : {σ : Type} → Rewrite σ → α → Rewriting σ α
  /-- Carries out a replacement, where captured results become variables. -/
  replace? : Replacement → α → Option α
  visits_rewrite : ∀ {σ : Type} (r : Rewrite σ) (a : α),
    Visits r (slots a) (rewrite r a) occurrences fun f => replace? f a
  takes_of_replace? : ∀ {f a b}, replace? f a = some b → ∀ slot ∈ slots a, slot.Takes f
  replace?_replace? : ∀ f g a,
    (replace? f a).bind (replace? g) = replace? (fun v => (f v).replace g) a
  replace?_ofVar : ∀ a, replace? .ofVar a = some a
  /-- What no rewrite changes. -/
  Outline : Type
  outline : α → Outline
  outline_rewrite : ∀ {σ : Type} {r : Rewrite σ} {a b : α} {state after : σ},
    outcomeIn (rewrite r a) state = (.ok b, after) → outline b = outline a
  Value : TermAlgebra → Type
  value : (A : TermAlgebra) → A.Valuation → α → Value A
  value_replace? : ∀ {A : TermAlgebra} {ν : A.Valuation} {f a b}, replace? f a = some b →
    value A ν b = value A (fun v => (f v).evaluate A ν) a

namespace Rewritable

variable {α : Type} (R : Rewritable α)

/-- Carries out a substitution, which notes what it is asked for. -/
def substitute (θ : Substitution) (a : α) : Substituting α := R.rewrite θ.recorded a

/-- The result of a substitution, unless it is refused. -/
def substitute? (θ : Substitution) (a : α) : Option α := (R.substitute θ a).outcome.1.toOption

/-- A substitution whose answers fit is carried out. -/
theorem outcome_substitute_of_fits {θ : Substitution} {a : α} (h : θ.Fits (R.slots a)) :
    ∃ b, (R.substitute θ a).outcome = (.ok b, (R.occurrences a).toArray) ∧
      R.occurrences b = ((R.slots a).map fun slot => slot.filled (θ slot.var)).flatMap
        Expr.occurrences ∧
      ∀ f : Replacement, (R.slots a).map (fun slot => slot.filled (θ slot.var)) =
        (R.slots a).map (Slot.fill f) → R.replace? f a = some b := by
  have hvisits := R.visits_rewrite θ.recorded a #[]
  rw [outcomeIn_askAll_of_fits h, R.map_var_slots] at hvisits
  obtain ⟨b, hb, hoccurrences, hreplaced⟩ := hvisits
  refine ⟨b, hb.trans ?_, hoccurrences, hreplaced⟩
  simp

/-- A substitution ends with the first answer that is refused. -/
theorem outcome_substitute_of_refused {θ : Substitution} {a : α} {before behind : List Slot}
    {slot : Slot} {e : SubstitutionError} (hslots : R.slots a = before ++ slot :: behind)
    (hbefore : θ.Fits before) (hslot : slot.refusal? (θ slot.var) = some e) :
    (R.substitute θ a).outcome = (.error e, ((before ++ [slot]).map Slot.var).toArray) := by
  have hvisits := R.visits_rewrite θ.recorded a #[]
  rw [hslots, outcomeIn_askAll_of_refused hbefore hslot] at hvisits
  refine Eq.trans hvisits ?_
  simp

/-- A substitution that keeps sorts is a replacement, unless it is refused. -/
theorem substitute?_eq_replace? {θ : Substitution} (h : θ.KeepsSorts) (a : α) :
    R.substitute? θ a = R.replace? θ.replacement a := by
  rcases θ.fits_or_refused (R.slots a) with
    hfits | ⟨before, slot, behind, e, hslots, hbefore, hslot⟩
  · obtain ⟨b, hb, -, hreplaced⟩ := R.outcome_substitute_of_fits hfits
    rw [hreplaced θ.replacement (List.map_congr_left fun slot _ => h.filled_eq_fill slot),
      substitute?, hb]
    rfl
  · rw [substitute?, R.outcome_substitute_of_refused hslots hbefore hslot]
    cases hreplaced : R.replace? θ.replacement a with
    | none => rfl
    | some b =>
      have hmem : slot ∈ R.slots a := hslots ▸ List.mem_append_right _ List.mem_cons_self
      have htakes := (h.refusal?_eq_none_iff slot).mpr (R.takes_of_replace? hreplaced slot hmem)
      rw [hslot] at htakes
      cases htakes

/-- The laws of substitution. -/
structure Lawful : Prop where
  /-- A rewrite is asked for the variables that occur, each one where it stands. -/
  slots_are_occurrences : ∀ a, (R.slots a).map Slot.var = R.occurrences a
  /-- A rewrite fails with the first answer that is refused, and is not asked any further. -/
  refused : ∀ {σ : Type} (r : Rewrite σ) (a : α) (state after : σ) (e : SubstitutionError),
    outcomeIn (r.askAll (R.slots a)) state = (.error e, after) →
    outcomeIn (R.rewrite r a) state = (.error e, after)
  /-- Otherwise a rewrite leaves the outline, and in the result occurs what occurs in the
  answers. -/
  answered : ∀ {σ : Type} (r : Rewrite σ) (a : α) (state after : σ) (answers : List Expr),
    outcomeIn (r.askAll (R.slots a)) state = (.ok answers, after) →
    ∃ b, outcomeIn (R.rewrite r a) state = (.ok b, after) ∧ R.outline b = R.outline a ∧
      R.occurrences b = answers.flatMap Expr.occurrences
  /-- A substitution is carried out, unless an answer does not fit. Then it ends with the first such
  answer. -/
  substituted : ∀ (θ : Substitution) (a : α),
    (θ.Fits (R.slots a) ∧
      ∃ b, (R.substitute θ a).outcome = (.ok b, (R.occurrences a).toArray) ∧
        R.outline b = R.outline a ∧
        R.occurrences b = (R.occurrences a).flatMap fun v =>
          ((θ v).getD (Expr.ofVar v)).occurrences) ∨
    ∃ before slot behind e, R.slots a = before ++ slot :: behind ∧ θ.Fits before ∧
      slot.refusal? (θ slot.var) = some e ∧
      (R.substitute θ a).outcome = (.error e, ((before ++ [slot]).map Slot.var).toArray)
  /-- Two substitutions that keep sorts can be carried out at once. -/
  composes : ∀ (θ η : Substitution) (a : α), θ.KeepsSorts → η.KeepsSorts →
    (R.substitute? θ a).bind (R.substitute? η) = R.substitute? (θ.andThen η) a
  /-- A substitution that keeps sorts changes the value as if every variable had the value of its
  replacement. -/
  keeps_value : ∀ (θ : Substitution) (a b : α) (A : TermAlgebra) (ν : A.Valuation), θ.KeepsSorts →
    R.substitute? θ a = some b → R.value A ν b = R.value A (ν.after θ) a
  /-- A rewrite that answers nothing changes nothing. -/
  identity : ∀ {σ : Type} (r : Rewrite σ), (∀ v state, ((r v).run state).1 = none) →
    ∀ (a : α) (state : σ), outcomeIn (R.rewrite r a) state =
      (.ok a, (R.occurrences a).foldl (fun state v => ((r v).run state).2) state)

end Rewritable

/-! ## Expressions -/

/-- Rewrites are carried out on expressions. -/
def expressions : Rewritable Expr where
  slots := Expr.slots
  occurrences := Expr.occurrences
  map_var_slots e := by
    rw [Expr.slots, Term.slots, List.map_map]
    exact List.map_id _
  rewrite r e := e.rewrite r
  replace? f e := some (e.replace f)
  visits_rewrite r e := e.visits_rewrite r
  takes_of_replace? := by
    intro f a b _ slot hslot
    obtain ⟨v, -, rfl⟩ := List.mem_map.mp hslot
    trivial
  replace?_replace? f g e :=
    congrArg (fun t => some (⟨e.sort, t⟩ : Expr)) (e.term.replace_replace f g)
  replace?_ofVar e := congrArg (fun t => some (⟨e.sort, t⟩ : Expr)) e.term.replace_ofVar
  Outline := ValueSort
  outline e := e.sort
  outline_rewrite := by
    intro σ r a b state after h
    obtain ⟨t, middle, -, ht⟩ := exists_of_outcomeIn_bind h
    cases ht
    rfl
  Value A := Sigma A.Carrier
  value A ν e := ⟨e.sort, e.term.evaluate A ν⟩
  value_replace? := by
    intro A ν f a b h
    cases h
    exact congrArg (Sigma.mk a.sort) (a.term.evaluate_replace f)

/-- A substitution that keeps sorts is never refused in an expression. -/
theorem toOption_substitute {θ : Substitution} (h : θ.KeepsSorts) (e : Expr) :
    (e.substitute θ).outcome.1.toOption = some (e.replace θ.replacement) :=
  expressions.substitute?_eq_replace? h e

namespace Substitution

variable {θ η : Substitution}

/-- Two substitutions that keep sorts do so in a row. -/
theorem KeepsSorts.andThen (hθ : θ.KeepsSorts) (hη : η.KeepsSorts) : (θ.andThen η).KeepsSorts := by
  intro v e h
  unfold Substitution.andThen at h
  cases hv : θ v with
  | none =>
    rw [hv] at h
    exact hη v e h
  | some x =>
    rw [hv] at h
    simp only [toOption_substitute hη, Option.some.injEq] at h
    rw [← h]
    exact hθ v x hv

/-- What two substitutions in a row put in the place of a variable is what the second one makes of
what the first one puts there. -/
theorem replacement_andThen (hθ : θ.KeepsSorts) (hη : η.KeepsSorts) (v : Var) :
    (θ.andThen η).replacement v = (θ.replacement v).replace η.replacement := by
  rcases hθ.answer_cases v with ⟨hv, hreplacement⟩ | hv
  · have hboth : θ.andThen η v = η v := by
      unfold Substitution.andThen
      rw [hv]
    rw [hreplacement, replacement, hboth]
    rfl
  · have hboth : θ.andThen η v = some ⟨v.sort, (θ.replacement v).replace η.replacement⟩ := by
      unfold Substitution.andThen
      rw [hv]
      exact toOption_substitute hη _
    rw [replacement, hboth, Option.bind_some, Expr.as?_eq_some_iff.mpr rfl]
    rfl

end Substitution

/-- The laws hold for everything that rewrites are carried out on. -/
theorem Rewritable.lawful {α : Type} (R : Rewritable α) : R.Lawful where
  slots_are_occurrences := R.map_var_slots
  refused := by
    intro σ r a state after e hasked
    have hvisits := R.visits_rewrite r a state
    rw [hasked] at hvisits
    exact hvisits
  answered := by
    intro σ r a state after answers hasked
    have hvisits := R.visits_rewrite r a state
    rw [hasked] at hvisits
    obtain ⟨b, hb, hoccurrences, -⟩ := hvisits
    exact ⟨b, hb, R.outline_rewrite hb, hoccurrences⟩
  substituted := by
    intro θ a
    rcases θ.fits_or_refused (R.slots a) with hfits | hrefused
    · obtain ⟨b, hb, hoccurrences, -⟩ := R.outcome_substitute_of_fits hfits
      have hrewritten : outcomeIn (R.rewrite θ.recorded a) #[] =
          (.ok b, (R.occurrences a).toArray) := hb
      refine .inl ⟨hfits, b, hb, R.outline_rewrite hrewritten, ?_⟩
      rw [hoccurrences, ← R.map_var_slots, List.flatMap_map, List.flatMap_map]
      rfl
    · obtain ⟨before, slot, behind, e, hslots, hbefore, hslot⟩ := hrefused
      exact .inr ⟨before, slot, behind, e, hslots, hbefore, hslot,
        R.outcome_substitute_of_refused hslots hbefore hslot⟩
  composes := by
    intro θ η a hθ hη
    -- both substitutions are replacements, and replacements compose
    have hsecond : R.substitute? η = R.replace? η.replacement :=
      funext (R.substitute?_eq_replace? hη)
    have hboth : (θ.andThen η).replacement = fun v => (θ.replacement v).replace η.replacement :=
      funext (Substitution.replacement_andThen hθ hη)
    rw [R.substitute?_eq_replace? hθ, hsecond, R.replace?_replace?,
      R.substitute?_eq_replace? (hθ.andThen hη), hboth]
  keeps_value := by
    intro θ a b A ν hθ hb
    rw [R.substitute?_eq_replace? hθ] at hb
    exact R.value_replace? hb
  identity := by
    intro σ r hnone a state
    have hvisits := R.visits_rewrite r a state
    rw [outcomeIn_askAll_of_unanswered hnone, R.map_var_slots] at hvisits
    obtain ⟨b, hb, -, hreplaced⟩ := hvisits
    -- a rewrite without answers replaces each variable by itself
    have hsame : some a = some b := (R.replace?_ofVar a).symm.trans (hreplaced .ofVar rfl)
    cases hsame
    exact hb

end SummaryInlining
