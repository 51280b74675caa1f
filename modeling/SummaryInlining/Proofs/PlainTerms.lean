import SummaryInlining.Proofs.Interpretation
import SummaryInlining.Term.Text

/-!
# Terms as their text shows them

A few terms are written alike: a conjunction without operands and the literal true, a disjunction
without operands and the literal false, and the conjunction and the disjunction of one operand.
`Term.plain` chooses one of them wherever they occur in a term. This keeps the text (`text_plain`),
and the value too, when the connectives mean what they say (`evaluate_plain`), as they do in every
interpretation (`eval_plain`).
-/

set_option autoImplicit false

namespace SummaryInlining

/-- Read in this way, the connectives of an algebra of terms are boolean, and a truth value is
nothing but whether it holds. Nothing is said about the other operators. -/
structure TermAlgebra.IsBoolean (A : TermAlgebra) (holds : A.Carrier .bool → Prop) : Prop where
  ext : ∀ a b, (holds a ↔ holds b) → a = b
  truth : ∀ value, holds (A.truth value) ↔ value = true
  not : ∀ a, holds (A.not a) ↔ ¬holds a
  and : ∀ values, holds (A.and values) ↔ ∀ a ∈ values, holds a
  or : ∀ values, holds (A.or values) ↔ ∃ a ∈ values, holds a

/-- The truth values of an interpretation are propositions, and its connectives are boolean. -/
theorem Interpretation.isBoolean_algebra (I : Interpretation) :
    I.algebra.IsBoolean fun p => p where
  ext _ _ := propext
  truth _ := Iff.rfl
  not _ := Iff.rfl
  and _ := Iff.rfl
  or _ := Iff.rfl

namespace Term

/-- The conjunction of some operands; of none it is the literal true. -/
def conjunction : List (Term .bool) → Term .bool
  | [] => .truth true
  | p :: rest => .and (p :: rest)

/-- The disjunction of some operands; of none it is the literal false, and of one it is written
as a conjunction. -/
def disjunction : List (Term .bool) → Term .bool
  | [] => .truth false
  | [p] => .and [p]
  | p :: q :: rest => .or (p :: q :: rest)

mutual

/-- The term with one choice of what is written alike, everywhere in it. -/
def plain {s : ValueSort} : Term s → Term s
  | .var s id => .var s id
  | .literal n => .literal n
  | .length l => .length l.plain
  | .element i l => .element i l.plain
  | .arith op l r => .arith op l.plain r.plain
  | .list elements => .list (plainElements elements)
  | .broadcast l r => .broadcast l.plain r.plain
  | .truth b => .truth b
  | .not p => .not p.plain
  | .and operands => conjunction (plainOperands operands)
  | .or operands => disjunction (plainOperands operands)
  | .compare op l r => .compare op l.plain r.plain
  | .listEq l r => .listEq l.plain r.plain
  | .boolEq p q => .boolEq p.plain q.plain

def plainElements : List (Option (Term .int)) → List (Option (Term .int))
  | [] => []
  | none :: rest => none :: plainElements rest
  | some e :: rest => some e.plain :: plainElements rest

def plainOperands : List (Term .bool) → List (Term .bool)
  | [] => []
  | p :: rest => p.plain :: plainOperands rest

end

/-- The plain form of a list has the plain forms of the known elements. -/
theorem plain_list (es : List (Option (Term .int))) :
    (list es).plain = .list (es.map (Option.map plain)) := by
  have helements : plainElements es = es.map (Option.map plain) := by
    induction es with
    | nil => rfl
    | cons e rest ih => cases e <;> simp [plainElements, ih]
  rw [plain, helements]

/-- The plain forms of operands are taken one by one. -/
theorem plainOperands_eq_map (ps : List (Term .bool)) : plainOperands ps = ps.map plain := by
  induction ps with
  | nil => rfl
  | cons p rest ih => simp [plainOperands, ih]

/-- The plain form of a conjunction is the chosen one of its plain operands. -/
theorem plain_and (ps : List (Term .bool)) : (and ps).plain = conjunction (ps.map plain) := by
  rw [plain, plainOperands_eq_map]

/-- The plain form of a disjunction is the chosen one of its plain operands. -/
theorem plain_or (ps : List (Term .bool)) : (or ps).plain = disjunction (ps.map plain) := by
  rw [plain, plainOperands_eq_map]

/-! ## Texts -/

/-- The text of an element of a list; an unknown one is a star. -/
def elementText : Option (Term .int) → String
  | none => "*"
  | some e => e.text

/-- The text of a list has the texts of the elements between brackets. -/
theorem text_list (es : List (Option (Term .int))) :
    (list es).text = "[" ++ ", ".intercalate (es.map elementText) ++ "]" := by
  have helements : elementTexts es = es.map elementText := by
    induction es with
    | nil => rfl
    | cons e rest ih => cases e <;> simp [elementTexts, elementText, ih]
  rw [text, helements]

/-- The texts of operands are taken one by one. -/
theorem operandTexts_eq_map (ps : List (Term .bool)) : operandTexts ps = ps.map text := by
  induction ps with
  | nil => rfl
  | cons p rest ih => simp [operandTexts, ih]

/-- The text of a conjunction has the texts of its operands between parentheses. -/
theorem text_and_cons (p : Term .bool) (ps : List (Term .bool)) :
    (and (p :: ps)).text = "(" ++ " && ".intercalate ((p :: ps).map text) ++ ")" := by
  rw [text, operandTexts_eq_map, List.map_cons]

/-- The text of a disjunction has the texts of its operands between parentheses. -/
theorem text_or_cons (p : Term .bool) (ps : List (Term .bool)) :
    (or (p :: ps)).text = "(" ++ " || ".intercalate ((p :: ps).map text) ++ ")" := by
  rw [text, operandTexts_eq_map, List.map_cons]

/-- The chosen conjunction is written as the conjunction of the same operands. -/
theorem text_conjunction (ps : List (Term .bool)) : (conjunction ps).text = (and ps).text := by
  cases ps <;> rfl

/-- The chosen disjunction is written as the disjunction of the same operands. -/
theorem text_disjunction (ps : List (Term .bool)) : (disjunction ps).text = (or ps).text := by
  rcases ps with _ | ⟨p, _ | ⟨q, rest⟩⟩ <;> rfl

/-- The text does not show which of the terms that are written alike a term is made of. -/
theorem text_plain {s : ValueSort} (e : Term s) : e.plain.text = e.text := by
  have hoperands : ∀ ps : List (Term .bool), (∀ p ∈ ps, p.plain.text = p.text) →
      (ps.map plain).map text = ps.map text := by
    intro ps hps
    rw [List.map_map]
    exact List.map_congr_left hps
  induction e using induction with
  | var s id => rfl
  | literal n => rfl
  | length l ih => simp only [plain, text, ih]
  | element i l ih => simp only [plain, text, ih]
  | arith op l r ihl ihr => simp only [plain, text, ihl, ihr]
  | list es ih =>
    rw [plain_list, text_list, text_list, List.map_map]
    congr 3
    refine List.map_congr_left fun e he => ?_
    cases e with
    | none => rfl
    | some e => exact ih e he
  | broadcast l r ihl ihr => simp only [plain, text, ihl, ihr]
  | truth b => rfl
  | not p ih => simp only [plain, text, ih]
  | and ps ih =>
    rw [plain_and, text_conjunction]
    cases ps with
    | nil => rfl
    | cons p rest =>
      rw [List.map_cons, text_and_cons, text_and_cons, ← List.map_cons, hoperands _ ih]
  | or ps ih =>
    rw [plain_or, text_disjunction]
    cases ps with
    | nil => rfl
    | cons p rest =>
      rw [List.map_cons, text_or_cons, text_or_cons, ← List.map_cons, hoperands _ ih]
  | compare op l r ihl ihr => simp only [plain, text, ihl, ihr]
  | listEq l r ihl ihr => simp only [plain, text, ihl, ihr]
  | boolEq p q ihp ihq => simp only [plain, text, ihp, ihq]

/-! ## Values -/

section

variable {A : TermAlgebra} {holds : A.Carrier .bool → Prop}

/-- The chosen conjunction means the same as the conjunction of the same operands. -/
theorem evaluate_conjunction (h : A.IsBoolean holds) (ν : A.Valuation) (ps : List (Term .bool)) :
    (conjunction ps).evaluate A ν = (and ps).evaluate A ν := by
  cases ps with
  | nil =>
    refine h.ext _ _ ?_
    rw [evaluate_and, h.and]
    exact (h.truth true).trans (by simp)
  | cons p rest => rfl

/-- The chosen disjunction means the same as the disjunction of the same operands. -/
theorem evaluate_disjunction (h : A.IsBoolean holds) (ν : A.Valuation) (ps : List (Term .bool)) :
    (disjunction ps).evaluate A ν = (or ps).evaluate A ν := by
  rcases ps with _ | ⟨p, _ | ⟨q, rest⟩⟩
  · refine h.ext _ _ ?_
    rw [evaluate_or, h.or]
    exact (h.truth false).trans (by simp)
  · refine h.ext _ _ ?_
    rw [disjunction, evaluate_and, evaluate_or, h.and, h.or]
    simp
  · rfl

/-- What is written alike has the same value. -/
theorem evaluate_plain (h : A.IsBoolean holds) (ν : A.Valuation) {s : ValueSort} (e : Term s) :
    e.plain.evaluate A ν = e.evaluate A ν := by
  induction e using induction with
  | var s id => rfl
  | literal n => rfl
  | length l ih => simp only [plain, evaluate, ih]
  | element i l ih => simp only [plain, evaluate, ih]
  | arith op l r ihl ihr => simp only [plain, evaluate, ihl, ihr]
  | list es ih =>
    rw [plain_list, evaluate_list, evaluate_list, List.map_map]
    refine congrArg A.list (List.map_congr_left fun e he => ?_)
    cases e with
    | none => rfl
    | some e => exact congrArg some (ih e he)
  | broadcast l r ihl ihr => simp only [plain, evaluate, ihl, ihr]
  | truth b => rfl
  | not p ih => simp only [plain, evaluate, ih]
  | and ps ih =>
    rw [plain_and, evaluate_conjunction h, evaluate_and, evaluate_and, List.map_map]
    exact congrArg A.and (List.map_congr_left ih)
  | or ps ih =>
    rw [plain_or, evaluate_disjunction h, evaluate_or, evaluate_or, List.map_map]
    exact congrArg A.or (List.map_congr_left ih)
  | compare op l r ihl ihr => simp only [plain, evaluate, ihl, ihr]
  | listEq l r ihl ihr => simp only [plain, evaluate, ihl, ihr]
  | boolEq p q ihp ihq => simp only [plain, evaluate, ihp, ihq]

end

/-- What is written alike has the same meaning. -/
theorem eval_plain {I : Interpretation} (ν : I.Valuation) {s : ValueSort} (e : Term s) :
    e.plain.eval I ν = e.eval I ν := by
  rw [eval_eq_evaluate, eval_eq_evaluate]
  exact evaluate_plain I.isBoolean_algebra _ e

end Term

end SummaryInlining
