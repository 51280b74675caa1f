import Mathlib.Data.List.Basic
import SummaryInlining.Term.Substitution

/-!
# Replacing the variables of terms

`Term.replace` puts a term of the right sort in the place of every variable of a term. It is the
traversal of `Term.mapVarsM` without effects, so renaming is a case of it.

`Term.induction` is the induction over terms of all sorts, with the elements of a list and the
operands of a conjunction or disjunction as members of their lists. By it the laws of replacement
follow: what occurs in the result is what occurs in the replacements, in the order of the variables
(`occurrences_replace`), the result depends on the replacements of the variables that occur only
(`replace_congr`), a second replacement can be done inside of the replacements of the first
(`replace_replace`), and nothing changes when each variable is replaced by itself
(`replace_ofVar`).
-/

set_option autoImplicit false

namespace SummaryInlining

namespace Term

/-- Induction over terms: what holds of a term when it holds of its parts holds of all terms. -/
theorem induction {motive : {s : ValueSort} → Term s → Prop}
    (var : ∀ s id, motive (.var s id))
    (literal : ∀ n, motive (.literal n))
    (length : ∀ l, motive l → motive (.length l))
    (element : ∀ i l, motive l → motive (.element i l))
    (arith : ∀ op l r, motive l → motive r → motive (.arith op l r))
    (list : ∀ es : List (Option (Term .int)), (∀ e, some e ∈ es → motive e) → motive (.list es))
    (broadcast : ∀ l r, motive l → motive r → motive (.broadcast l r))
    (truth : ∀ b, motive (.truth b))
    (not : ∀ p, motive p → motive (.not p))
    (and : ∀ ps : List (Term .bool), (∀ p ∈ ps, motive p) → motive (.and ps))
    (or : ∀ ps : List (Term .bool), (∀ p ∈ ps, motive p) → motive (.or ps))
    (compare : ∀ op l r, motive l → motive r → motive (.compare op l r))
    (listEq : ∀ l r, motive l → motive r → motive (.listEq l r))
    (boolEq : ∀ p q, motive p → motive q → motive (.boolEq p q)) :
    {s : ValueSort} → (e : Term s) → motive e := by
  intro s e
  refine Term.rec (motive_1 := fun _ e => motive e)
    (motive_2 := fun es => ∀ e, some e ∈ es → motive e)
    (motive_3 := fun ps => ∀ p ∈ ps, motive p)
    (motive_4 := fun o => ∀ e, o = some e → motive e)
    var literal length element arith list broadcast truth not and or compare listEq boolEq
    ?_ ?_ ?_ ?_ ?_ ?_ e
  · simp
  · intro head rest hhead hrest e hm
    rcases List.mem_cons.mp hm with h | h
    · exact hhead e h.symm
    · exact hrest e h
  · simp
  · intro head rest hhead hrest p hm
    rcases List.mem_cons.mp hm with rfl | h
    · exact hhead
    · exact hrest p h
  · simp
  · intro e he other ho
    cases ho
    exact he

/-- What occurs in an element occurs in the list. -/
theorem mem_occurrences_list {es : List (Option (Term .int))} {e : Term .int} {v : Var}
    (he : some e ∈ es) (hv : v ∈ e.occurrences) : v ∈ (list es).occurrences := by
  simp only [occurrences, elementOccurrences_eq_flatMap, List.mem_flatMap]
  exact ⟨some e, he, hv⟩

/-- What occurs in an operand occurs in the operands. -/
theorem mem_operandOccurrences {ps : List (Term .bool)} {p : Term .bool} {v : Var}
    (hp : p ∈ ps) (hv : v ∈ p.occurrences) : v ∈ operandOccurrences ps := by
  rw [operandOccurrences_eq_flatMap, List.mem_flatMap]
  exact ⟨p, hp, hv⟩

end Term

/-- A term for every variable, of the sort of the variable. -/
abbrev Replacement := (v : Var) → Term v.sort

namespace Term

/-- Puts its replacement in the place of every variable of a term. -/
def replace (f : Replacement) {s : ValueSort} (e : Term s) : Term s :=
  Id.run (e.mapVarsM fun v => pure (f v))

section

variable (f g : Replacement)

/-- A variable that is a whole term is replaced. -/
@[simp] theorem replace_var (s : ValueSort) (id : Int) : (var s id).replace f = f ⟨s, id⟩ := rfl

/-- An integer literal has no variables to replace. -/
@[simp] theorem replace_literal (n : Int) : (literal n).replace f = .literal n := rfl

/-- Replacing in a length replaces in the list. -/
@[simp] theorem replace_length (l : Term .list) :
    (length l).replace f = .length (l.replace f) := rfl

/-- Replacing in an element replaces in the list and keeps the position. -/
@[simp] theorem replace_element (i : Int) (l : Term .list) :
    (element i l).replace f = .element i (l.replace f) := rfl

/-- Replacing goes into both operands of an arithmetic operation. -/
@[simp] theorem replace_arith (op : ArithOp) (l r : Term .int) :
    (arith op l r).replace f = .arith op (l.replace f) (r.replace f) := rfl

/-- Without effects, going through the elements of a list replaces in those that are known. -/
theorem mapElementsM_pure (es : List (Option (Term .int))) :
    Id.run (mapElementsM (fun v => pure (f v)) es) = es.map (Option.map (replace f)) := by
  induction es with
  | nil => rfl
  | cons e rest ih =>
    cases e with
    | none => exact congrArg (List.cons none) ih
    | some e => exact congrArg (List.cons (some (e.replace f))) ih

/-- Replacing in a list replaces in the elements that are known. -/
@[simp] theorem replace_list (es : List (Option (Term .int))) :
    (list es).replace f = .list (es.map (Option.map (replace f))) :=
  congrArg list (mapElementsM_pure f es)

/-- Replacing goes into both operands of a broadcast. -/
@[simp] theorem replace_broadcast (l r : Term .list) :
    (broadcast l r).replace f = .broadcast (l.replace f) (r.replace f) := rfl

/-- A boolean literal has no variables to replace. -/
@[simp] theorem replace_truth (b : Bool) : (truth b).replace f = .truth b := rfl

/-- Replacing in a negation replaces in what is negated. -/
@[simp] theorem replace_not (p : Term .bool) : (not p).replace f = .not (p.replace f) := rfl

/-- Without effects, going through operands replaces in each of them. -/
theorem mapOperandsM_pure (ps : List (Term .bool)) :
    Id.run (mapOperandsM (fun v => pure (f v)) ps) = ps.map (replace f) := by
  induction ps with
  | nil => rfl
  | cons p rest ih => exact congrArg (List.cons (p.replace f)) ih

/-- Replacing in a conjunction replaces in every operand. -/
@[simp] theorem replace_and (ps : List (Term .bool)) :
    (and ps).replace f = .and (ps.map (replace f)) :=
  congrArg and (mapOperandsM_pure f ps)

/-- Replacing in a disjunction replaces in every operand. -/
@[simp] theorem replace_or (ps : List (Term .bool)) :
    (or ps).replace f = .or (ps.map (replace f)) :=
  congrArg or (mapOperandsM_pure f ps)

/-- Replacing goes into both sides of a comparison. -/
@[simp] theorem replace_compare (op : Comparison) (l r : Term .int) :
    (compare op l r).replace f = .compare op (l.replace f) (r.replace f) := rfl

/-- Replacing goes into both sides of an equality of lists. -/
@[simp] theorem replace_listEq (l r : Term .list) :
    (listEq l r).replace f = .listEq (l.replace f) (r.replace f) := rfl

/-- Replacing goes into both sides of an equivalence. -/
@[simp] theorem replace_boolEq (p q : Term .bool) :
    (boolEq p q).replace f = .boolEq (p.replace f) (q.replace f) := rfl

/-- What occurs in the result is what occurs in the replacements, in the order of the variables. -/
theorem occurrences_replace {s : ValueSort} (e : Term s) :
    (e.replace f).occurrences = e.occurrences.flatMap fun v => (f v).occurrences := by
  have hoperands : ∀ ps : List (Term .bool),
      (∀ p ∈ ps, (p.replace f).occurrences = p.occurrences.flatMap fun v => (f v).occurrences) →
      operandOccurrences (ps.map (replace f)) =
        (operandOccurrences ps).flatMap fun v => (f v).occurrences := by
    intro ps hps
    rw [operandOccurrences_eq_flatMap, operandOccurrences_eq_flatMap, List.flatMap_map,
      List.flatMap_assoc]
    exact List.flatMap_congr hps
  induction e using induction with
  | var s id => simp [occurrences]
  | literal n => rfl
  | length l ih => exact ih
  | element i l ih => exact ih
  | arith op l r ihl ihr => simp [occurrences, ihl, ihr]
  | list es ih =>
    simp only [replace_list, occurrences, elementOccurrences_eq_flatMap, List.flatMap_map,
      List.flatMap_assoc]
    refine List.flatMap_congr fun e he => ?_
    cases e with
    | none => rfl
    | some e => exact ih e he
  | broadcast l r ihl ihr => simp [occurrences, ihl, ihr]
  | truth b => rfl
  | not p ih => exact ih
  | and ps ih =>
    rw [replace_and]
    exact hoperands ps ih
  | or ps ih =>
    rw [replace_or]
    exact hoperands ps ih
  | compare op l r ihl ihr => simp [occurrences, ihl, ihr]
  | listEq l r ihl ihr => simp [occurrences, ihl, ihr]
  | boolEq p q ihp ihq => simp [occurrences, ihp, ihq]

variable {f g}

/-- The result depends on the replacements of the variables that occur. -/
theorem replace_congr {s : ValueSort} {e : Term s} (h : ∀ v ∈ e.occurrences, f v = g v) :
    e.replace f = e.replace g := by
  induction e using induction with
  | var s id => exact h ⟨s, id⟩ List.mem_cons_self
  | literal n => rfl
  | length l ih => simp [ih h]
  | element i l ih => simp [ih h]
  | arith op l r ihl ihr =>
    obtain ⟨hl, hr⟩ := List.forall_mem_append.mp h
    simp [ihl hl, ihr hr]
  | list es ih =>
    rw [replace_list, replace_list]
    refine congrArg list (List.map_congr_left fun e he => ?_)
    cases e with
    | none => rfl
    | some e => exact congrArg some (ih e he fun v hv => h v (mem_occurrences_list he hv))
  | broadcast l r ihl ihr =>
    obtain ⟨hl, hr⟩ := List.forall_mem_append.mp h
    simp [ihl hl, ihr hr]
  | truth b => rfl
  | not p ih => simp [ih h]
  | and ps ih =>
    rw [replace_and, replace_and]
    exact congrArg and (List.map_congr_left fun p hp =>
      ih p hp fun v hv => h v (mem_operandOccurrences hp hv))
  | or ps ih =>
    rw [replace_or, replace_or]
    exact congrArg or (List.map_congr_left fun p hp =>
      ih p hp fun v hv => h v (mem_operandOccurrences hp hv))
  | compare op l r ihl ihr =>
    obtain ⟨hl, hr⟩ := List.forall_mem_append.mp h
    simp [ihl hl, ihr hr]
  | listEq l r ihl ihr =>
    obtain ⟨hl, hr⟩ := List.forall_mem_append.mp h
    simp [ihl hl, ihr hr]
  | boolEq p q ihp ihq =>
    obtain ⟨hp, hq⟩ := List.forall_mem_append.mp h
    simp [ihp hp, ihq hq]

variable (f g)

/-- A second replacement can be done inside of the replacements of the first. -/
theorem replace_replace {s : ValueSort} (e : Term s) :
    (e.replace f).replace g = e.replace fun v => (f v).replace g := by
  induction e using induction with
  | var s id => rfl
  | literal n => rfl
  | length l ih => simp only [replace_length, ih]
  | element i l ih => simp only [replace_element, ih]
  | arith op l r ihl ihr => simp only [replace_arith, ihl, ihr]
  | list es ih =>
    rw [replace_list, replace_list, replace_list, List.map_map]
    refine congrArg list (List.map_congr_left fun e he => ?_)
    cases e with
    | none => rfl
    | some e => exact congrArg some (ih e he)
  | broadcast l r ihl ihr => simp only [replace_broadcast, ihl, ihr]
  | truth b => rfl
  | not p ih => simp only [replace_not, ih]
  | and ps ih =>
    rw [replace_and, replace_and, replace_and, List.map_map]
    exact congrArg and (List.map_congr_left ih)
  | or ps ih =>
    rw [replace_or, replace_or, replace_or, List.map_map]
    exact congrArg or (List.map_congr_left ih)
  | compare op l r ihl ihr => simp only [replace_compare, ihl, ihr]
  | listEq l r ihl ihr => simp only [replace_listEq, ihl, ihr]
  | boolEq p q ihp ihq => simp only [replace_boolEq, ihp, ihq]

/-- Nothing changes when each variable is replaced by itself. -/
theorem replace_ofVar {s : ValueSort} (e : Term s) : e.replace ofVar = e := by
  induction e using induction with
  | var s id => rfl
  | literal n => rfl
  | length l ih => simp only [replace_length, ih]
  | element i l ih => simp only [replace_element, ih]
  | arith op l r ihl ihr => simp only [replace_arith, ihl, ihr]
  | list es ih =>
    rw [replace_list]
    refine congrArg list ((List.map_congr_left fun e he => ?_).trans (List.map_id es))
    cases e with
    | none => rfl
    | some e => exact congrArg some (ih e he)
  | broadcast l r ihl ihr => simp only [replace_broadcast, ihl, ihr]
  | truth b => rfl
  | not p ih => simp only [replace_not, ih]
  | and ps ih =>
    rw [replace_and]
    exact congrArg and ((List.map_congr_left ih).trans (List.map_id ps))
  | or ps ih =>
    rw [replace_or]
    exact congrArg or ((List.map_congr_left ih).trans (List.map_id ps))
  | compare op l r ihl ihr => simp only [replace_compare, ihl, ihr]
  | listEq l r ihl ihr => simp only [replace_listEq, ihl, ihr]
  | boolEq p q ihp ihq => simp only [replace_boolEq, ihp, ihq]

end

end Term

/-- An expression is a term of a sort if it is made of this term. -/
theorem Expr.as?_eq_some_iff {e : Expr} {s : ValueSort} {t : Term s} :
    e.as? s = some t ↔ e = ⟨s, t⟩ := by
  obtain ⟨sort, term⟩ := e
  constructor
  · intro h
    unfold Expr.as? at h
    split at h
    · next hs =>
      cases hs
      cases h
      rfl
    · cases h
  · rintro ⟨⟩
    simp [Expr.as?]

/-- An expression of another sort is no term of the sort. -/
theorem Expr.as?_of_ne {e : Expr} {s : ValueSort} (h : e.sort ≠ s) : e.as? s = none := dif_neg h

end SummaryInlining
