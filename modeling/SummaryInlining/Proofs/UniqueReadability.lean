import Mathlib.Data.Set.Function
import SummaryInlining.Proofs.TermReading

/-!
# Expressions by their text

Two expressions have the same text exactly when they are the same up to what is written alike
(`texts_are_unambiguous`), as far as the numbers in them have different texts; and all numbers of
the format do. What is written alike has the same sort and the same value wherever the connectives
mean what they say, so an expression that is printed says what it is.
-/

set_option autoImplicit false

namespace SummaryInlining

namespace Expr

/-- The expression with one choice of what is written alike, everywhere in it. -/
def plain (e : Expr) : Expr := e.term.plain.toExpr

/-- The numbers that an expression is written with. -/
def numbers (e : Expr) : List Int := e.term.numbers

/-- The value of an expression, together with its sort. -/
def evaluate (A : TermAlgebra) (ν : A.Valuation) (e : Expr) : (s : ValueSort) × A.Carrier s :=
  ⟨e.sort, e.term.evaluate A ν⟩

/-- The plain form of an expression is written as the expression. -/
theorem text_plain (e : Expr) : e.plain.text = e.text := Term.text_plain e.term

/-- The plain form of an expression means what the expression does. -/
theorem evaluate_plain {A : TermAlgebra} {holds : A.Carrier .bool → Prop} (h : A.IsBoolean holds)
    (ν : A.Valuation) (e : Expr) : e.plain.evaluate A ν = e.evaluate A ν :=
  congrArg (Sigma.mk e.sort) (Term.evaluate_plain h ν e.term)

end Expr

/-- Numbers with different texts can be read back from their texts. -/
theorem NumberReader.exists_reads {S : Set Int} (hid : Set.InjOn Number.integerText S)
    (hvalue : Set.InjOn Number.fixedText S) : ∃ numbers : NumberReader, numbers.Reads S := by
  have hid' : Set.InjOn (fun n => (Number.integerText n).toList) S :=
    fun m hm n hn h => hid hm hn (String.toList_inj.mp h)
  have hvalue' : Set.InjOn (fun n => (Number.fixedText n).toList) S :=
    fun m hm n hn h => hvalue hm hn (String.toList_inj.mp h)
  exact ⟨⟨Function.invFunOn _ S, Function.invFunOn _ S⟩, fun n hn =>
    ⟨hid'.leftInvOn_invFunOn hn, hvalue'.leftInvOn_invFunOn hn⟩⟩

/-- What is read from the text of an expression is this expression, up to what is written alike. -/
theorem NumberReader.expr_text {numbers : NumberReader} {S : Set Int} (h : numbers.Reads S)
    (e : Expr) (he : ∀ n ∈ e.numbers, n ∈ S) {n : Nat} (hn : sizeOf e.term ≤ n) :
    numbers.expr n e.text.toList = some (e.plain, []) := by
  have hread := restores_expr h e.term he hn [] (by rintro c ⟨⟩)
  rw [List.append_nil, indexed_of_ne (by simp)] at hread
  exact hread

/-- Expressions with one text have one plain form, if different numbers in them are written
differently. -/
theorem Expr.plain_eq_of_text_eq {S : Set Int} (hid : Set.InjOn Number.integerText S)
    (hvalue : Set.InjOn Number.fixedText S) {e e' : Expr} (he : ∀ n ∈ e.numbers, n ∈ S)
    (he' : ∀ n ∈ e'.numbers, n ∈ S) (h : e.text = e'.text) : e.plain = e'.plain := by
  obtain ⟨numbers, hreads⟩ := NumberReader.exists_reads hid hvalue
  have hread := numbers.expr_text hreads e he (Nat.le_max_left _ (sizeOf e'.term))
  have hread' := numbers.expr_text hreads e' he' (Nat.le_max_right (sizeOf e.term) _)
  rw [h, hread'] at hread
  exact (congrArg Prod.fst (Option.some.inj hread)).symm

/-- The texts of numbers tell all integers of the format apart, among them all that fit into the
significand. Whenever they tell the numbers in some expressions apart, the texts of these
expressions are the same exactly if the expressions are the same up to what is written alike; and
then they have the same sort and the same value, whatever the operators other than the boolean
connectives do. There is one zero, so its sign needs no choice. -/
theorem texts_are_unambiguous :
    (Set.InjOn Number.integerText {n | Number.IsExact n} ∧
      Set.InjOn Number.fixedText {n | Number.IsExact n} ∧
      ∀ n : Int, n.natAbs < 2 ^ Number.significantBits → Number.IsExact n) ∧
    ∀ S : Set Int, Set.InjOn Number.integerText S → Set.InjOn Number.fixedText S →
      ∀ e e' : Expr, (∀ n ∈ e.numbers, n ∈ S) → (∀ n ∈ e'.numbers, n ∈ S) →
        (e.text = e'.text ↔ e.plain = e'.plain) ∧
        (e.text = e'.text → e.sort = e'.sort ∧
          ∀ (A : TermAlgebra) (holds : A.Carrier .bool → Prop), A.IsBoolean holds →
            ∀ ν : A.Valuation, e.evaluate A ν = e'.evaluate A ν) := by
  refine ⟨⟨Number.injOn_integerText, Number.injOn_fixedText,
    fun n => Number.isExact_of_natAbs_lt⟩, fun S hid hvalue e e' he he' => ?_⟩
  have hplain : e.text = e'.text → e.plain = e'.plain := Expr.plain_eq_of_text_eq hid hvalue he he'
  refine ⟨⟨hplain, fun h => ?_⟩, fun h => ⟨?_, ?_⟩⟩
  · rw [← e.text_plain, h, e'.text_plain]
  · have hsort : e.plain.sort = e'.plain.sort := congrArg Expr.sort (hplain h)
    exact hsort
  · intro A holds hboolean ν
    rw [← Expr.evaluate_plain hboolean ν e, hplain h, Expr.evaluate_plain hboolean ν e']

end SummaryInlining
