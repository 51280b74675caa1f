import SummaryInlining.Text.Units

/-!
# Syntax errors of JSON

A rule of the grammar that cannot go on answers a `Refusal`, which keeps the rest of the text from
that place on. Together with the whole text it is a `SyntaxError`, which can tell where the place is
and show the text around it. Places and the size of the context are measured in 16-bit units.
-/

set_option autoImplicit false

namespace SummaryInlining

namespace Json

/-- Why a rule cannot read a text, with the rest of the text from the place on where it cannot
go on. -/
inductive Refusal where
  /-- The text ends here, or a character stands here that the grammar does not allow. -/
  | unexpected (rest : List Char)
  /-- No digit stands here, behind a minus sign. -/
  | noDigit (rest : List Char)
  deriving DecidableEq

/-- Why a text is not JSON. -/
structure SyntaxError where
  text : List Char
  refusal : Refusal
  deriving DecidableEq

namespace SyntaxError

/-- The rest of the text from the place on where reading stops. -/
def rest (e : SyntaxError) : List Char :=
  match e.refusal with
  | .unexpected rest => rest
  | .noDigit rest => rest

/-- The text in front of the place where reading stops. -/
def front (e : SyntaxError) : List Char := e.text.take (e.text.length - e.rest.length)

/-- The number of units that are shown on either side of the place where reading stops. -/
def contextSize : Nat := 10

/-- The text around the place where reading stops, or the whole text if it is not longer. -/
def context (e : SyntaxError) : List Char :=
  let dots (cut : Bool) : List Char := if cut then ['.', '.', '.'] else []
  if Text.unitCount e.text ≤ 2 * contextSize then '"' :: e.text ++ ['"']
  else
    dots (contextSize ≤ Text.unitCount e.front)
      ++ '"' :: Text.takeLastUnits contextSize e.front ++ Text.takeUnits contextSize e.rest ++ ['"']
      ++ dots (contextSize < Text.unitCount e.rest)

/-- The place where reading stops: the number of units in front of it, and its line and column. -/
def placeText (e : SyntaxError) : String :=
  let line := (e.front.reverse.takeWhile (· ≠ '\n'))
  "position " ++ toString (Text.unitCount e.front) ++ " (line "
    ++ toString (e.front.count '\n' + 1) ++ " column " ++ toString (Text.unitCount line + 1) ++ ")"

def message (e : SyntaxError) : String :=
  match e.refusal with
  | .unexpected [] => "Unexpected end of JSON input"
  | .unexpected rest =>
    "Unexpected token '" ++ String.ofList (Text.takeUnits 1 rest) ++ "', "
      ++ String.ofList e.context ++ " is not valid JSON"
  | .noDigit _ => "No number after minus sign in JSON at " ++ e.placeText

end SyntaxError

end Json

end SummaryInlining
