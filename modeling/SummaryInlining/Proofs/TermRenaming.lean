import SummaryInlining.Proofs.TermReplacement
import SummaryInlining.Term.Connectives

/-!
# Renaming the variables of terms

Renaming is replacing each variable by a variable of the same sort (`rename_eq_replace`), so its
laws are those of replacement. A renamed term depends on the new numbers of the variables that occur
in it only (`rename_congr`), and these variables with their new numbers are all that occurs in it
(`occurrences_rename`). What occurs in an equality or a conjunction is what occurs in its two sides.
-/

set_option autoImplicit false

namespace SummaryInlining

namespace Term

section

variable (f : Var → Int)

/-- Renaming is replacing every variable by the one of its sort with the new number. -/
theorem rename_eq_replace {s : ValueSort} (e : Term s) :
    e.rename f = e.replace fun v => .var v.sort (f v) := rfl

/-- A variable that is a whole term gets its new number. -/
@[simp] theorem rename_var (s : ValueSort) (id : Int) :
    (var s id).rename f = .var s (f ⟨s, id⟩) := rfl

/-- An integer literal has no variables to rename. -/
@[simp] theorem rename_literal (n : Int) : (literal n).rename f = .literal n := rfl

/-- Renaming a length renames the list. -/
@[simp] theorem rename_length (l : Term .list) : (length l).rename f = .length (l.rename f) := rfl

/-- Renaming an element renames the list and keeps the position. -/
@[simp] theorem rename_element (i : Int) (l : Term .list) :
    (element i l).rename f = .element i (l.rename f) := rfl

/-- Renaming goes into both operands of an arithmetic operation. -/
@[simp] theorem rename_arith (op : ArithOp) (l r : Term .int) :
    (arith op l r).rename f = .arith op (l.rename f) (r.rename f) := rfl

/-- Renaming a list renames the elements that are known. -/
@[simp] theorem rename_list (es : List (Option (Term .int))) :
    (list es).rename f = .list (es.map (Option.map (rename f))) :=
  replace_list _ es

/-- Renaming goes into both operands of a broadcast. -/
@[simp] theorem rename_broadcast (l r : Term .list) :
    (broadcast l r).rename f = .broadcast (l.rename f) (r.rename f) := rfl

/-- A boolean literal has no variables to rename. -/
@[simp] theorem rename_truth (b : Bool) : (truth b).rename f = .truth b := rfl

/-- Renaming a negation renames what is negated. -/
@[simp] theorem rename_not (p : Term .bool) : (not p).rename f = .not (p.rename f) := rfl

/-- Renaming a conjunction renames every operand. -/
@[simp] theorem rename_and (ps : List (Term .bool)) :
    (and ps).rename f = .and (ps.map (rename f)) :=
  replace_and _ ps

/-- Renaming a disjunction renames every operand. -/
@[simp] theorem rename_or (ps : List (Term .bool)) :
    (or ps).rename f = .or (ps.map (rename f)) :=
  replace_or _ ps

/-- Renaming goes into both sides of a comparison. -/
@[simp] theorem rename_compare (op : Comparison) (l r : Term .int) :
    (compare op l r).rename f = .compare op (l.rename f) (r.rename f) := rfl

/-- Renaming goes into both sides of an equality of lists. -/
@[simp] theorem rename_listEq (l r : Term .list) :
    (listEq l r).rename f = .listEq (l.rename f) (r.rename f) := rfl

/-- Renaming goes into both sides of an equivalence. -/
@[simp] theorem rename_boolEq (p q : Term .bool) :
    (boolEq p q).rename f = .boolEq (p.rename f) (q.rename f) := rfl

end

/-- A renamed term depends on the new numbers of the variables that occur in it. -/
theorem rename_congr {f g : Var → Int} {s : ValueSort} {e : Term s}
    (h : ∀ v ∈ e.occurrences, f v = g v) : e.rename f = e.rename g := by
  rw [rename_eq_replace, rename_eq_replace]
  apply replace_congr
  intro v hv
  rw [h v hv]

/-- The variables that occur in a renamed term are those of the term with their new numbers. -/
theorem occurrences_rename (f : Var → Int) {s : ValueSort} (e : Term s) :
    (e.rename f).occurrences = e.occurrences.map fun v => ⟨v.sort, f v⟩ := by
  rw [rename_eq_replace, occurrences_replace, List.map_eq_flatMap]
  rfl

/-- What occurs in an equality is what occurs on its left and then on its right. -/
theorem occurrences_equate {s : ValueSort} (l r : Term s) :
    (l.equate r).occurrences = l.occurrences ++ r.occurrences := by
  cases s <;> rfl

/-- What occurs in a conjunction is what occurs in its two sides, in order, as the literal true that
may be dropped has no variables. -/
theorem occurrences_conjoin (p q : Term .bool) :
    (p.conjoin q).occurrences = p.occurrences ++ q.occurrences := by
  have hconjuncts : ∀ p : Term .bool, operandOccurrences p.conjuncts = p.occurrences := by
    intro p
    cases p <;> simp [conjuncts, operandOccurrences, occurrences]
  have htrue : ∀ p : Term .bool, p.isTrue = true → p.occurrences = [] := by
    intro p hp
    cases p <;> simp_all [isTrue, occurrences]
  unfold conjoin
  split
  · next hp => simp [htrue p hp]
  · split
    · next hq => simp [htrue q hq]
    · rw [occurrences, operandOccurrences_eq_flatMap, List.flatMap_append,
        ← operandOccurrences_eq_flatMap, ← operandOccurrences_eq_flatMap, hconjuncts, hconjuncts]

/-- A term that is renamed to a variable is a variable. -/
theorem rename_eq_var {f : Var → Int} {e : Term .bool} {id : Int}
    (h : e.rename f = .var .bool id) :
    ∃ source, e = .var .bool source ∧ id = f ⟨.bool, source⟩ := by
  cases e with
  | var s source =>
    cases h
    exact ⟨source, rfl, rfl⟩
  | and ps => simp at h
  | or ps => simp at h
  | _ => cases h

end Term

namespace Expr

/-- Two expressions of one sort have an equality. -/
theorem equate?_mk {s : ValueSort} (l r : Term s) : equate? ⟨s, l⟩ ⟨s, r⟩ = some (l.equate r) := by
  simp [equate?, as?]

/-- Two expressions of different sorts have no equality. -/
theorem equate?_of_ne {l r : Expr} (h : l.sort ≠ r.sort) : equate? l r = none := by
  simp [equate?, as?, Ne.symm h]

/-- A renamed expression has the variables of the expression with their new numbers. -/
theorem occurrences_rename (f : Var → Int) (e : Expr) :
    (e.rename f).occurrences = e.occurrences.map fun v => ⟨v.sort, f v⟩ :=
  Term.occurrences_rename f e.term

/-- What occurs in renamed arguments are the renamed variables of the arguments, in order. -/
theorem listOccurrences_rename (f : Var → Int) (es : List (Option Expr)) :
    listOccurrences (es.map (Option.map (rename f))) =
      (listOccurrences es).map fun v => ⟨v.sort, f v⟩ := by
  rw [listOccurrences, listOccurrences, List.flatMap_map, List.map_flatMap]
  refine List.flatMap_congr fun e _ => ?_
  cases e with
  | none => rfl
  | some e => exact occurrences_rename f e

end Expr

end SummaryInlining
