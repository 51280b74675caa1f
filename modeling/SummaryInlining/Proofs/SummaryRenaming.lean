import Mathlib.Data.Set.Function
import SummaryInlining.Proofs.TermRenaming
import SummaryInlining.Summary.Basic

/-!
# Renaming the variables of constraints and summaries

A map `f : Var → Int` gives every variable a new number and leaves its sort alone. This module
carries the renaming of terms over to constraints and to whole summaries, with the laws by which
runs on renamed inputs are compared: renamings compose (`rename_rename`), the numbers that variables
have already rename nothing (`rename_id`), and `equate?` and `conjoin` commute with renaming.

A `Relabelling` is a renaming that confuses no two of the variables that it is meant for.
-/

set_option autoImplicit false

namespace SummaryInlining

namespace Var

/-- The variable of the same sort with the number that `f` chooses for it. -/
def rename (f : Var → Int) (v : Var) : Var := ⟨v.sort, f v⟩

/-- The number of a variable, counted from `n` on. -/
def shift (n : Nat) (v : Var) : Int := v.id + n

/-- A renamed variable keeps its sort. -/
@[simp] theorem sort_rename (f : Var → Int) (v : Var) : (v.rename f).sort = v.sort := rfl

/-- A renamed variable has its new number. -/
@[simp] theorem id_rename (f : Var → Int) (v : Var) : (v.rename f).id = f v := rfl

/-- A variable that is renamed to the number it has is left alone. -/
theorem rename_id (v : Var) : v.rename Var.id = v := rfl

/-- A shift by nothing keeps every number. -/
theorem shift_zero : shift 0 = Var.id := by
  funext v
  simp [shift]

/-- A shift confuses no two variables. -/
theorem rename_shift_injective (n : Nat) : Function.Injective (rename (shift n)) := by
  rintro ⟨s, i⟩ ⟨t, j⟩ h
  obtain ⟨hsort, hid⟩ := Var.mk.inj h
  simp only [shift] at hid
  rw [show i = j by omega, show s = t from hsort]

end Var

/-- New numbers for some variables, under which no two of them become the same. -/
structure Relabelling where
  vars : List Var
  number : Var → Int
  injOn : Set.InjOn (Var.rename number) {v | v ∈ vars}

/-! ## Terms and expressions -/

namespace Term

/-- Two renamings in a row are one renaming. -/
theorem rename_rename (f g : Var → Int) {s : ValueSort} (e : Term s) :
    (e.rename f).rename g = e.rename fun v => g (v.rename f) :=
  replace_replace _ _ e

/-- Renaming variables to the numbers that they have changes no term. -/
theorem rename_id {s : ValueSort} (e : Term s) : e.rename Var.id = e := replace_ofVar e

/-- An equality can be renamed before or after it is formed. -/
theorem rename_equate (f : Var → Int) {s : ValueSort} (l r : Term s) :
    (l.equate r).rename f = (l.rename f).equate (r.rename f) := by
  cases s <;> rfl

/-- A renaming keeps whether a condition is the literal true, which has no variables. -/
theorem isTrue_rename (f : Var → Int) (p : Term .bool) : (p.rename f).isTrue = p.isTrue := by
  cases p with
  | and ps => rw [rename_and]; rfl
  | or ps => rw [rename_or]; rfl
  | _ => rfl

/-- The conjuncts of a renamed condition are its renamed conjuncts. -/
theorem conjuncts_rename (f : Var → Int) (p : Term .bool) :
    (p.rename f).conjuncts = p.conjuncts.map (rename f) := by
  cases p with
  | and ps => rw [rename_and]; rfl
  | or ps =>
    rw [rename_or]
    exact (congrArg (fun p => [p]) (rename_or f ps)).symm
  | _ => rfl

/-- A conjunction can be renamed before or after it is formed. -/
theorem rename_conjoin (f : Var → Int) (p q : Term .bool) :
    (p.conjoin q).rename f = (p.rename f).conjoin (q.rename f) := by
  unfold conjoin
  rw [isTrue_rename, isTrue_rename]
  by_cases hp : p.isTrue = true
  · rw [if_pos hp, if_pos hp]
  · by_cases hq : q.isTrue = true
    · rw [if_neg hp, if_neg hp, if_pos hq, if_pos hq]
    · rw [if_neg hp, if_neg hp, if_neg hq, if_neg hq, rename_and, List.map_append,
        conjuncts_rename, conjuncts_rename]

end Term

namespace Expr

/-- Two renamings of an expression in a row are one renaming. -/
theorem rename_rename (f g : Var → Int) (e : Expr) :
    (e.rename f).rename g = e.rename fun v => g (v.rename f) :=
  congrArg (Expr.mk e.sort) (Term.rename_rename f g e.term)

/-- Renaming variables to the numbers that they have changes no expression. -/
theorem rename_id (e : Expr) : e.rename Var.id = e :=
  congrArg (Expr.mk e.sort) (Term.rename_id e.term)

/-- Two expressions can be equated before or after a renaming, which keeps their sorts. -/
theorem equate?_rename (f : Var → Int) (l r : Expr) :
    (l.rename f).equate? (r.rename f) = (l.equate? r).map (Term.rename f) := by
  obtain ⟨s, left⟩ := l
  obtain ⟨t, right⟩ := r
  by_cases hst : s = t
  · subst hst
    have hrenamed := equate?_mk (left.rename f) (right.rename f)
    rw [← Term.rename_equate] at hrenamed
    rw [equate?_mk]
    exact hrenamed
  · rw [equate?_of_ne (l := ⟨s, left⟩) (r := ⟨t, right⟩) hst]
    exact equate?_of_ne hst

def renameAll (f : Var → Int) (es : List (Option Expr)) : List (Option Expr) :=
  es.map (Option.map (rename f))

/-- Renaming variables to the numbers that they have changes no list of arguments. -/
theorem renameAll_id (es : List (Option Expr)) : renameAll Var.id es = es := by
  have hrename : Option.map (rename Var.id) = id := by
    funext e
    cases e with
    | none => rfl
    | some e => exact congrArg some (rename_id e)
  rw [renameAll, hrename, List.map_id]

end Expr

/-! ## Constraints and summaries -/

def Requirement.rename {L : Type} (f : Var → Int) (r : Requirement L) : Requirement L :=
  { r with condition := r.condition.rename f, assuming := r.assuming.rename f }

def Call.rename {L : Type} (f : Var → Int) (c : Call L) : Call L :=
  { c with
    args := Expr.renameAll f c.args
    result := c.result.map (Var.rename f)
    assuming := c.assuming.rename f }

def Constraint.rename {L : Type} (f : Var → Int) : Constraint L → Constraint L
  | .require r => .require (r.rename f)
  | .call c => .call (c.rename f)

namespace FunctionSummary

def rename (f : Var → Int) (summary : FunctionSummary) : FunctionSummary where
  parameters := Expr.renameAll f summary.parameters
  result := summary.result.map (Expr.rename f)
  constraints := summary.constraints.map (Constraint.rename f)

def occurrences (summary : FunctionSummary) : List Var :=
  Expr.listOccurrences summary.parameters ++ Expr.optionOccurrences summary.result ++
    summary.constraints.flatMap Constraint.occurrences

end FunctionSummary

/-- Renaming variables to the numbers that they have changes no requirement. -/
theorem Requirement.rename_id {L : Type} (r : Requirement L) : r.rename Var.id = r := by
  simp only [rename, Term.rename_id]

/-- Renaming variables to the numbers that they have changes no constraint. -/
theorem Constraint.rename_id {L : Type} (c : Constraint L) : c.rename Var.id = c := by
  cases c with
  | require r => exact congrArg require r.rename_id
  | call c =>
    have hresult : c.result.map (Var.rename Var.id) = c.result := Option.map_id'
    simp only [rename, Call.rename, Expr.renameAll_id, hresult, Term.rename_id]

/-- Renaming variables to the numbers that they have changes no summary. -/
theorem FunctionSummary.rename_id (summary : FunctionSummary) :
    summary.rename Var.id = summary := by
  have hresult : summary.result.map (Expr.rename Var.id) = summary.result := by
    cases summary.result with
    | none => rfl
    | some e => exact congrArg some e.rename_id
  have hconstraints : summary.constraints.map (Constraint.rename Var.id) = summary.constraints :=
    List.map_id'' Constraint.rename_id _
  simp only [rename, Expr.renameAll_id, hresult, hconstraints]

/-- What occurs in a renamed constraint are the renamed variables of the constraint, in order. -/
theorem Constraint.occurrences_rename {L : Type} (f : Var → Int) (c : Constraint L) :
    (c.rename f).occurrences = c.occurrences.map (Var.rename f) := by
  cases c with
  | require r =>
    simp only [rename, Requirement.rename, occurrences, Term.occurrences_rename, List.map_append]
    rfl
  | call c =>
    have hargs : Expr.listOccurrences (Expr.renameAll f c.args) =
        (Expr.listOccurrences c.args).map (Var.rename f) := Expr.listOccurrences_rename f c.args
    have hresult : (c.result.map (Var.rename f)).toList = c.result.toList.map (Var.rename f) :=
      Option.toList_map ..
    simp only [rename, Call.rename, occurrences, hargs, hresult, Term.occurrences_rename,
      List.map_append]
    rfl

end SummaryInlining
