import SummaryInlining.Proofs.TermReplacement

/-!
# Values of terms

A `TermAlgebra` says what the values of the sorts are and what each operator does to them. Nothing
is asked of it: the connectives need not mean what they say. `Term.evaluate` evaluates a term for
given values of the variables.

Replacing variables comes to the same as giving the variables the values of their replacements
(`evaluate_replace`), and the value of a term depends on the values of the variables that occur in
it only (`evaluate_congr`).
-/

set_option autoImplicit false

namespace SummaryInlining

/-- What the values of the sorts are, and what every operator does to them. -/
structure TermAlgebra where
  Carrier : ValueSort → Type
  literal : Int → Carrier .int
  length : Carrier .list → Carrier .int
  element : Int → Carrier .list → Carrier .int
  arith : ArithOp → Carrier .int → Carrier .int → Carrier .int
  /-- The list of these elements, some of which may be absent. -/
  list : List (Option (Carrier .int)) → Carrier .list
  broadcast : Carrier .list → Carrier .list → Carrier .list
  truth : Bool → Carrier .bool
  not : Carrier .bool → Carrier .bool
  and : List (Carrier .bool) → Carrier .bool
  or : List (Carrier .bool) → Carrier .bool
  compare : Comparison → Carrier .int → Carrier .int → Carrier .bool
  listEq : Carrier .list → Carrier .list → Carrier .bool
  boolEq : Carrier .bool → Carrier .bool → Carrier .bool

/-- A value for every variable. -/
abbrev TermAlgebra.Valuation (A : TermAlgebra) : Type := (v : Var) → A.Carrier v.sort

namespace Term

variable (A : TermAlgebra)

mutual

/-- The value of a term. -/
def evaluate (ν : A.Valuation) {s : ValueSort} : Term s → A.Carrier s
  | .var s id => ν ⟨s, id⟩
  | .literal n => A.literal n
  | .length l => A.length (l.evaluate ν)
  | .element i l => A.element i (l.evaluate ν)
  | .arith op l r => A.arith op (l.evaluate ν) (r.evaluate ν)
  | .list elements => A.list (evaluateElements ν elements)
  | .broadcast l r => A.broadcast (l.evaluate ν) (r.evaluate ν)
  | .truth b => A.truth b
  | .not p => A.not (p.evaluate ν)
  | .and operands => A.and (evaluateOperands ν operands)
  | .or operands => A.or (evaluateOperands ν operands)
  | .compare op l r => A.compare op (l.evaluate ν) (r.evaluate ν)
  | .listEq l r => A.listEq (l.evaluate ν) (r.evaluate ν)
  | .boolEq p q => A.boolEq (p.evaluate ν) (q.evaluate ν)

def evaluateElements (ν : A.Valuation) :
    List (Option (Term .int)) → List (Option (A.Carrier .int))
  | [] => []
  | none :: rest => none :: evaluateElements ν rest
  | some e :: rest => some (e.evaluate ν) :: evaluateElements ν rest

def evaluateOperands (ν : A.Valuation) : List (Term .bool) → List (A.Carrier .bool)
  | [] => []
  | p :: rest => p.evaluate ν :: evaluateOperands ν rest

end

variable {A} {ν μ : A.Valuation}

/-- The value of a list is made of the values of the known elements. -/
theorem evaluate_list (es : List (Option (Term .int))) :
    (list es).evaluate A ν = A.list (es.map (Option.map (evaluate A ν))) := by
  have helements : evaluateElements A ν es = es.map (Option.map (evaluate A ν)) := by
    induction es with
    | nil => rfl
    | cons e rest ih => cases e <;> simp [evaluateElements, ih]
  exact congrArg A.list helements

/-- The values of operands are taken one by one. -/
theorem evaluateOperands_eq_map (ps : List (Term .bool)) :
    evaluateOperands A ν ps = ps.map (evaluate A ν) := by
  induction ps with
  | nil => rfl
  | cons p rest ih => simp [evaluateOperands, ih]

/-- The value of a conjunction is made of the values of its operands. -/
theorem evaluate_and (ps : List (Term .bool)) :
    (and ps).evaluate A ν = A.and (ps.map (evaluate A ν)) :=
  congrArg A.and (evaluateOperands_eq_map ps)

/-- The value of a disjunction is made of the values of its operands. -/
theorem evaluate_or (ps : List (Term .bool)) :
    (or ps).evaluate A ν = A.or (ps.map (evaluate A ν)) :=
  congrArg A.or (evaluateOperands_eq_map ps)

/-- A term in which variables are replaced has the value that the term has when each variable has
the value of its replacement. -/
theorem evaluate_replace (f : Replacement) {s : ValueSort} (e : Term s) :
    (e.replace f).evaluate A ν = e.evaluate A fun v => (f v).evaluate A ν := by
  induction e using induction with
  | var s id => rfl
  | literal n => rfl
  | length l ih => simp only [replace_length, evaluate, ih]
  | element i l ih => simp only [replace_element, evaluate, ih]
  | arith op l r ihl ihr => simp only [replace_arith, evaluate, ihl, ihr]
  | list es ih =>
    rw [replace_list, evaluate_list, evaluate_list, List.map_map]
    refine congrArg A.list (List.map_congr_left fun e he => ?_)
    cases e with
    | none => rfl
    | some e => exact congrArg some (ih e he)
  | broadcast l r ihl ihr => simp only [replace_broadcast, evaluate, ihl, ihr]
  | truth b => rfl
  | not p ih => simp only [replace_not, evaluate, ih]
  | and ps ih =>
    rw [replace_and, evaluate_and, evaluate_and, List.map_map]
    exact congrArg A.and (List.map_congr_left ih)
  | or ps ih =>
    rw [replace_or, evaluate_or, evaluate_or, List.map_map]
    exact congrArg A.or (List.map_congr_left ih)
  | compare op l r ihl ihr => simp only [replace_compare, evaluate, ihl, ihr]
  | listEq l r ihl ihr => simp only [replace_listEq, evaluate, ihl, ihr]
  | boolEq p q ihp ihq => simp only [replace_boolEq, evaluate, ihp, ihq]

/-- The value of a term depends on the values of the variables that occur in it. -/
theorem evaluate_congr {s : ValueSort} {e : Term s} (h : ∀ v ∈ e.occurrences, ν v = μ v) :
    e.evaluate A ν = e.evaluate A μ := by
  induction e using induction with
  | var s id => exact h ⟨s, id⟩ List.mem_cons_self
  | literal n => rfl
  | length l ih => simp only [evaluate, ih h]
  | element i l ih => simp only [evaluate, ih h]
  | arith op l r ihl ihr =>
    obtain ⟨hl, hr⟩ := List.forall_mem_append.mp h
    simp only [evaluate, ihl hl, ihr hr]
  | list es ih =>
    rw [evaluate_list, evaluate_list]
    refine congrArg A.list (List.map_congr_left fun e he => ?_)
    cases e with
    | none => rfl
    | some e => exact congrArg some (ih e he fun v hv => h v (mem_occurrences_list he hv))
  | broadcast l r ihl ihr =>
    obtain ⟨hl, hr⟩ := List.forall_mem_append.mp h
    simp only [evaluate, ihl hl, ihr hr]
  | truth b => rfl
  | not p ih => simp only [evaluate, ih h]
  | and ps ih =>
    rw [evaluate_and, evaluate_and]
    exact congrArg A.and (List.map_congr_left fun p hp =>
      ih p hp fun v hv => h v (mem_operandOccurrences hp hv))
  | or ps ih =>
    rw [evaluate_or, evaluate_or]
    exact congrArg A.or (List.map_congr_left fun p hp =>
      ih p hp fun v hv => h v (mem_operandOccurrences hp hv))
  | compare op l r ihl ihr =>
    obtain ⟨hl, hr⟩ := List.forall_mem_append.mp h
    simp only [evaluate, ihl hl, ihr hr]
  | listEq l r ihl ihr =>
    obtain ⟨hl, hr⟩ := List.forall_mem_append.mp h
    simp only [evaluate, ihl hl, ihr hr]
  | boolEq p q ihp ihq =>
    obtain ⟨hp, hq⟩ := List.forall_mem_append.mp h
    simp only [evaluate, ihp hp, ihq hq]

end Term

end SummaryInlining
