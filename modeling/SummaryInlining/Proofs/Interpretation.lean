import SummaryInlining.Proofs.TermAlgebra
import SummaryInlining.Proofs.TermRenaming

/-!
# What terms mean

An `Interpretation` says what the values of the sorts are and what the operations on them do. It is
free to do so, except that truth values are true or false, the connectives mean what they say, and
the three equalities are equality. `Term.eval` evaluates a term for given values of the variables.
It is evaluation in an algebra of terms (`eval_eq_evaluate`), so a renamed term is evaluated like
the term itself when each variable has the value of its new name (`eval_rename`), and a term depends
on the variables that occur in it only (`eval_congr`). `conjoin` and `equate` mean conjunction and
equality (`eval_conjoin`, `eval_equate`).
-/

set_option autoImplicit false

namespace SummaryInlining

/-- What the values of the sorts are, and what the operations do. -/
structure Interpretation where
  Integer : Type
  Sequence : Type
  literal : Int → Integer
  length : Sequence → Integer
  element : Int → Sequence → Integer
  arith : ArithOp → Integer → Integer → Integer
  /-- The list of these elements, some of which may be absent. -/
  list : List (Option Integer) → Sequence
  broadcast : Sequence → Sequence → Sequence
  /-- The comparisons other than equality. -/
  order : Comparison → Integer → Integer → Prop

namespace Interpretation

variable (I : Interpretation)

abbrev Value : ValueSort → Type
  | .int => I.Integer
  | .list => I.Sequence
  | .bool => Prop

/-- Values for all variables. -/
abbrev Valuation : Type := (s : ValueSort) → Int → I.Value s

/-- The comparison of two integers; equality is equality. -/
def compare : Comparison → I.Integer → I.Integer → Prop
  | .eq, l, r => l = r
  | .lt, l, r => I.order .lt l r
  | .le, l, r => I.order .le l r
  | .gt, l, r => I.order .gt l r
  | .ge, l, r => I.order .ge l r

/-- The algebra of an interpretation, in which the truth values are propositions. -/
def algebra : TermAlgebra where
  Carrier := I.Value
  literal := I.literal
  length := I.length
  element := I.element
  arith := I.arith
  list := I.list
  broadcast := I.broadcast
  truth b := b = true
  not p := ¬ p
  and ps := ∀ p ∈ ps, p
  or ps := ∃ p ∈ ps, p
  compare := I.compare
  listEq l r := l = r
  boolEq p q := p = q

/-- The value that a valuation gives to each variable. -/
def Valuation.ofVars {I : Interpretation} (ν : I.Valuation) : I.algebra.Valuation :=
  fun v => ν v.sort v.id

end Interpretation

namespace Term

variable (I : Interpretation)

mutual

/-- The value of a term. -/
def eval (ν : I.Valuation) {s : ValueSort} : Term s → I.Value s
  | .var s id => ν s id
  | .literal n => I.literal n
  | .length l => I.length (l.eval ν)
  | .element i l => I.element i (l.eval ν)
  | .arith op l r => I.arith op (l.eval ν) (r.eval ν)
  | .list elements => I.list (evalElements ν elements)
  | .broadcast l r => I.broadcast (l.eval ν) (r.eval ν)
  | .truth b => b = true
  | .not p => ¬ p.eval ν
  | .and operands => evalAll ν operands
  | .or operands => evalAny ν operands
  | .compare op l r => I.compare op (l.eval ν) (r.eval ν)
  | .listEq l r => l.eval ν = r.eval ν
  | .boolEq p q => p.eval ν = q.eval ν

def evalElements (ν : I.Valuation) : List (Option (Term .int)) → List (Option I.Integer)
  | [] => []
  | none :: rest => none :: evalElements ν rest
  | some e :: rest => some (e.eval ν) :: evalElements ν rest

def evalAll (ν : I.Valuation) : List (Term .bool) → Prop
  | [] => True
  | p :: rest => p.eval ν ∧ evalAll ν rest

def evalAny (ν : I.Valuation) : List (Term .bool) → Prop
  | [] => False
  | p :: rest => p.eval ν ∨ evalAny ν rest

end

variable {I} {ν μ : I.Valuation}

/-- The values of elements are taken one by one. -/
theorem evalElements_eq_map (es : List (Option (Term .int))) :
    evalElements I ν es = es.map (Option.map (eval I ν)) := by
  induction es with
  | nil => rfl
  | cons e rest ih => cases e <;> simp [evalElements, ih]

/-- All operands hold if each one does. -/
theorem evalAll_iff (ps : List (Term .bool)) : evalAll I ν ps ↔ ∀ p ∈ ps, p.eval I ν := by
  induction ps with
  | nil => simp [evalAll]
  | cons p rest ih => simp [evalAll, ih]

/-- Some operand holds if there is one that does. -/
theorem evalAny_iff (ps : List (Term .bool)) : evalAny I ν ps ↔ ∃ p ∈ ps, p.eval I ν := by
  induction ps with
  | nil => simp [evalAny]
  | cons p rest ih => simp [evalAny, ih]

/-- The value of a list is made of the values of the known elements. -/
theorem eval_list (es : List (Option (Term .int))) :
    (list es).eval I ν = I.list (es.map (Option.map (eval I ν))) :=
  congrArg I.list (evalElements_eq_map es)

/-- A conjunction holds if all operands do. -/
theorem eval_and (ps : List (Term .bool)) : (and ps).eval I ν = ∀ p ∈ ps, p.eval I ν :=
  propext (evalAll_iff ps)

/-- A disjunction holds if some operand does. -/
theorem eval_or (ps : List (Term .bool)) : (or ps).eval I ν = ∃ p ∈ ps, p.eval I ν :=
  propext (evalAny_iff ps)

/-- Evaluation is evaluation in the algebra of the interpretation. -/
theorem eval_eq_evaluate {s : ValueSort} (e : Term s) :
    e.eval I ν = e.evaluate I.algebra ν.ofVars := by
  induction e using induction with
  | var s id => rfl
  | literal n => rfl
  | length l ih => simp only [eval, evaluate, ih, Interpretation.algebra]
  | element i l ih => simp only [eval, evaluate, ih, Interpretation.algebra]
  | arith op l r ihl ihr => simp only [eval, evaluate, ihl, ihr, Interpretation.algebra]
  | list es ih =>
    rw [eval_list, evaluate_list]
    refine congrArg I.list (List.map_congr_left fun e he => ?_)
    cases e with
    | none => rfl
    | some e => exact congrArg some (ih e he)
  | broadcast l r ihl ihr => simp only [eval, evaluate, ihl, ihr, Interpretation.algebra]
  | truth b => rfl
  | not p ih => simp only [eval, evaluate, ih, Interpretation.algebra]
  | and ps ih =>
    rw [eval_and, evaluate_and]
    simp only [Interpretation.algebra, List.forall_mem_map]
    exact propext (forall₂_congr fun p hp => iff_of_eq (ih p hp))
  | or ps ih =>
    rw [eval_or, evaluate_or]
    simp only [Interpretation.algebra, List.mem_map, exists_exists_and_eq_and]
    exact propext (exists_congr fun p => and_congr_right fun hp => iff_of_eq (ih p hp))
  | compare op l r ihl ihr => simp only [eval, evaluate, ihl, ihr, Interpretation.algebra]
  | listEq l r ihl ihr => simp only [eval, evaluate, ihl, ihr, Interpretation.algebra]
  | boolEq p q ihp ihq => simp only [eval, evaluate, ihp, ihq, Interpretation.algebra]

/-- A renamed term has the value that the term has when each variable has the value of its new
name. -/
theorem eval_rename (f : Var → Int) {s : ValueSort} (e : Term s) :
    (e.rename f).eval I ν = e.eval I (fun s id => ν s (f ⟨s, id⟩)) := by
  rw [eval_eq_evaluate, rename_eq_replace, evaluate_replace, eval_eq_evaluate]
  rfl

/-- The value of a term depends on the values of the variables that occur in it. -/
theorem eval_congr {s : ValueSort} {e : Term s}
    (h : ∀ v ∈ e.occurrences, ν v.sort v.id = μ v.sort v.id) : e.eval I ν = e.eval I μ := by
  rw [eval_eq_evaluate, eval_eq_evaluate]
  exact evaluate_congr h

/-- An equality of two terms holds if they have one value. -/
theorem eval_equate {s : ValueSort} (l r : Term s) :
    (l.equate r).eval I ν ↔ l.eval I ν = r.eval I ν := by
  cases s <;> exact Iff.rfl

/-- Two conditions that are conjoined hold if both do. -/
theorem eval_conjoin (p q : Term .bool) :
    (p.conjoin q).eval I ν ↔ p.eval I ν ∧ q.eval I ν := by
  have htrue : ∀ p : Term .bool, p.isTrue = true → p.eval I ν := by
    intro p hp
    cases p <;> simp_all [isTrue, eval]
  have hconjuncts : ∀ p : Term .bool, (∀ c ∈ p.conjuncts, c.eval I ν) ↔ p.eval I ν := by
    intro p
    cases p <;> simp [conjuncts, eval_and]
  unfold conjoin
  split
  · next hp => exact (and_iff_right (htrue p hp)).symm
  · split
    · next hq => exact (and_iff_left (htrue q hq)).symm
    · rw [eval_and, List.forall_mem_append, hconjuncts, hconjuncts]

end Term

end SummaryInlining
