import SummaryInlining.Text.Units

/-!
# Displayed paths

A path that an error shows stands between quotation marks, with escapes for what would not be
readable there. A long path is shown as a sum of quoted texts, one for each of its lines, and what
goes beyond a limit is cut off.
-/

set_option autoImplicit false

namespace SummaryInlining

namespace CommandLine

/-- Whether a text holds a dollar sign with an opening brace behind it. -/
def hasPlaceholder (text : List Char) : Bool :=
  (text.zip (text.drop 1)).any fun pair => pair.1 = '$' && pair.2 = '\x7b'

/-- The quotation mark for a text: the first of three kinds that can stand around it unescaped, and
the single one when there is none. -/
def quotationMark (text : List Char) : Char :=
  if !text.contains '\'' then '\''
  else if !text.contains '"' then '"'
  else if !text.contains '\x60' && !hasPlaceholder text then '\x60'
  else '\''

/-- How a character stands between quotation marks of the kind `mark`. -/
def escaped (mark c : Char) : List Char :=
  if c = '\\' then ['\\', '\\']
  else if c = '\'' ∧ mark = '\'' then ['\\', '\'']
  else if c = '\n' then ['\\', 'n']
  else if c = '\t' then ['\\', 't']
  else if c = '\r' then ['\\', 'r']
  else if c.toNat = 8 then ['\\', 'b']
  else if c.toNat = 12 then ['\\', 'f']
  else if c.toNat < 32 ∨ (127 ≤ c.toNat ∧ c.toNat < 160) then
    ['\\', 'x', (Nat.digitChar (c.toNat / 16)).toUpper, (Nat.digitChar (c.toNat % 16)).toUpper]
  else [c]

/-- A text between quotation marks. -/
def quoted (text : List Char) : List Char :=
  let mark := quotationMark text
  mark :: text.flatMap (escaped mark) ++ [mark]

/-- The lines of a text, each with the newline that ends it. -/
def linesOf : List Char → List (List Char)
  | [] => []
  | c :: rest =>
    if c = '\n' then [c] :: linesOf rest
    else
      match linesOf rest with
      | [] => [[c]]
      | line :: more => (c :: line) :: more

/-- The number of units up to which a path is shown on one line. -/
def oneLineLimit : Nat := 76

/-- The number of units after which the display of a path is cut off. -/
def displayLimit : Nat := 128

/-- A path as a sum of quoted texts: one text if it is short, and else one for each of its lines. -/
def pathSum (path : List Char) : List Char :=
  if Text.unitCount path ≤ oneLineLimit then quoted path
  else [' ', '+', '\n', ' ', ' '].intercalate ((linesOf path).map quoted)

/-- The display of a path, cut off if it is long. -/
def displayedPath (path : String) : String :=
  let shown := pathSum path.toList
  if Text.unitCount shown ≤ displayLimit then String.ofList shown
  else String.ofList (Text.takeUnits displayLimit shown) ++ "..."

end CommandLine

end SummaryInlining
