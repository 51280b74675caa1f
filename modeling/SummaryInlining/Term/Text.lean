import SummaryInlining.Term.Basic

/-!
# The text of a term

Every operator with two operands is written in parentheses, so that the text of a term shows how it
is built. A conjunction without operands is written like the literal true, and a disjunction
without operands like the literal false.
-/

set_option autoImplicit false

namespace SummaryInlining

/-- Two operands with an operator between them, in parentheses. -/
def infixText (left operator right : String) : String :=
  "(" ++ left ++ " " ++ operator ++ " " ++ right ++ ")"

namespace Term

mutual

def text {s : ValueSort} : Term s → String
  | .var s id => (Var.mk s id).text
  | .literal n => Number.fixedText n
  | .length l => "len(" ++ l.text ++ ")"
  | .element i l => l.text ++ "[" ++ Number.fixedText i ++ "]"
  | .arith op l r => infixText l.text op.symbol r.text
  | .list elements => "[" ++ ", ".intercalate (elementTexts elements) ++ "]"
  | .broadcast l r => "broadcast(" ++ l.text ++ ", " ++ r.text ++ ")"
  | .truth true => "true"
  | .truth false => "false"
  | .not p => "!" ++ p.text
  | .and [] => "true"
  | .and (p :: rest) => "(" ++ " && ".intercalate (p.text :: operandTexts rest) ++ ")"
  | .or [] => "false"
  | .or (p :: rest) => "(" ++ " || ".intercalate (p.text :: operandTexts rest) ++ ")"
  | .compare op l r => infixText l.text op.symbol r.text
  | .listEq l r => infixText l.text "=" r.text
  | .boolEq l r => infixText l.text "=" r.text

/-- The texts of the elements of a list; an unknown one is a star. -/
def elementTexts : List (Option (Term .int)) → List String
  | [] => []
  | none :: rest => "*" :: elementTexts rest
  | some e :: rest => e.text :: elementTexts rest

/-- The texts of the operands of a conjunction or disjunction. -/
def operandTexts : List (Term .bool) → List String
  | [] => []
  | p :: rest => p.text :: operandTexts rest

end

end Term

def Expr.text (e : Expr) : String := e.term.text

/-- The text of an optional expression; an absent one is a star. -/
def Expr.optionText : Option Expr → String
  | none => "*"
  | some e => e.text

end SummaryInlining
