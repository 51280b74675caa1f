import SummaryInlining.Summary.Basic
import SummaryInlining.Term.Connectives
import SummaryInlining.Term.Text

/-!
# The text of summaries

A constraint is written as its condition or call, followed by its assumption unless that is
literally true. The text of a summary lists its constraints before its signature, and
`FunctionSummary.prettyText` gives every constraint a line of its own once there are more than
four of them.
-/

set_option autoImplicit false

namespace SummaryInlining

/-- The text of a call stack, innermost location first. A frame without location is a question
mark. -/
def CallStack.text (stack : CallStack) : String :=
  match stack with
  | [] => "<top>"
  | frames => " <- ".intercalate (frames.map fun frame => (frame.map (·.text)).getD "?")

/-- The text of an assumption, which is empty when it is literally true. -/
def assumptionText (assuming : Term .bool) : String :=
  if assuming.isTrue then "" else " assuming " ++ assuming.text

/-- The texts of optional expressions, separated by commas. -/
def exprListText (exprs : List (Option Expr)) : String :=
  ", ".intercalate (exprs.map Expr.optionText)

/-- The text of a requirement without its location. -/
def Requirement.text {L : Type} (r : Requirement L) : String :=
  r.condition.text ++ assumptionText r.assuming
    ++ (if r.origin = .asserted then " [asserted]" else "")

/-- The text of a call without its location. -/
def Call.text {L : Type} (c : Call L) : String :=
  ((c.result.map fun v => v.text ++ " = ").getD "")
    ++ c.callee ++ "(" ++ exprListText c.args ++ ")" ++ assumptionText c.assuming

namespace Constraint

variable {L : Type}

/-- The text of a constraint without its location. -/
def text : Constraint L → String
  | .require r => r.text
  | .call c => c.text

/-- The text of a constraint with its location, as `showLocation` writes it. -/
def locatedText (showLocation : L → String) (c : Constraint L) : String :=
  c.text ++ " @ " ++ showLocation c.location

end Constraint

/-- The text of a constraint after inlining, with its call stack. -/
def Requirement.textWithStack (c : InstantiatedConstraint) : String :=
  (Constraint.require c).locatedText CallStack.text

namespace FunctionSummary

/-- The parameters and the result of a summary. -/
def signatureText (summary : FunctionSummary) : String :=
  "(" ++ exprListText summary.parameters ++ ") -> " ++ Expr.optionText summary.result

/-- The constraints of a summary in brackets, separated by `separator`, and its signature. -/
def textSeparatedBy (separator : String) (summary : FunctionSummary) : String :=
  if summary.constraints.isEmpty then summary.signatureText
  else
    "[" ++ separator.intercalate (summary.constraints.map Constraint.text) ++ "] => "
      ++ summary.signatureText

/-- The text of a summary on one line. -/
def text (summary : FunctionSummary) : String := summary.textSeparatedBy ", "

/-- The text of a summary, over several lines when it has more than four constraints. -/
def prettyText (summary : FunctionSummary) : String :=
  if summary.constraints.length ≤ 4 then summary.text else summary.textSeparatedBy ",\n "

end FunctionSummary

end SummaryInlining
