import SummaryInlining.Json.Basic
import SummaryInlining.Number.Text

/-!
# Printing JSON

`Json.compact` prints a value without any blanks and `Json.indented` with one member or item per
line, indented by tabs. Both share `Json.quoted`, which escapes the quotation mark, the backslash
and the control characters below U+0020, and nothing else. A number that is not finite has no JSON
text and is printed as `null`.
-/

set_option autoImplicit false

namespace SummaryInlining

namespace Json

/-- The lower-case hexadecimal digit of a number below sixteen. -/
def hexDigit (n : Nat) : Char := Nat.digitChar n

/-- How a character stands inside a quoted string. -/
def escaped (c : Char) : List Char :=
  if c = '"' then ['\\', '"']
  else if c = '\\' then ['\\', '\\']
  else if c = '\n' then ['\\', 'n']
  else if c = '\t' then ['\\', 't']
  else if c = '\r' then ['\\', 'r']
  else if c.toNat = 8 then ['\\', 'b']
  else if c.toNat = 12 then ['\\', 'f']
  else if c.toNat < 32 then ['\\', 'u', '0', '0', hexDigit (c.toNat / 16), hexDigit (c.toNat % 16)]
  else [c]

/-- A string in quotation marks. -/
def quoted (s : String) : String :=
  String.ofList ('"' :: s.toList.flatMap escaped ++ ['"'])

def numberText : Number → String
  | .finite q => Number.finiteText q
  | .infinite _ => "null"
  | .undetermined => "null"

mutual

/-- The text of a value without blanks. -/
def compact : Json → String
  | .null => "null"
  | .bool true => "true"
  | .bool false => "false"
  | .number n => numberText n
  | .string s => quoted s
  | .array items => "[" ++ ",".intercalate (compactItems items) ++ "]"
  | .object members => "\x7b" ++ ",".intercalate (compactMembers members) ++ "\x7d"

def compactItems : List Json → List String
  | [] => []
  | item :: rest => item.compact :: compactItems rest

def compactMembers : List (String × Json) → List String
  | [] => []
  | (name, value) :: rest => (quoted name ++ ":" ++ value.compact) :: compactMembers rest

end

/-- A line break followed by `depth` tabs. -/
def lineBreak (depth : Nat) : String := String.ofList ('\n' :: List.replicate depth '\t')

/-- Entries between brackets, each on a line of its own at `depth + 1`. Without entries the
brackets stand next to each other. -/
def bracketed (opening closing : String) (depth : Nat) (entries : List String) : String :=
  if entries.isEmpty then opening ++ closing
  else
    opening ++ lineBreak (depth + 1) ++ ("," ++ lineBreak (depth + 1)).intercalate entries
      ++ lineBreak depth ++ closing

mutual

/-- The text of a value that stands at `depth`, over several lines. -/
def indentedAt (depth : Nat) : Json → String
  | .null => "null"
  | .bool true => "true"
  | .bool false => "false"
  | .number n => numberText n
  | .string s => quoted s
  | .array items => bracketed "[" "]" depth (indentedItems (depth + 1) items)
  | .object members => bracketed "\x7b" "\x7d" depth (indentedMembers (depth + 1) members)

def indentedItems (depth : Nat) : List Json → List String
  | [] => []
  | item :: rest => indentedAt depth item :: indentedItems depth rest

def indentedMembers (depth : Nat) : List (String × Json) → List String
  | [] => []
  | (name, value) :: rest =>
    (quoted name ++ ": " ++ indentedAt depth value) :: indentedMembers depth rest

end

/-- The text of a value over several lines, indented by tabs. -/
def indented (value : Json) : String := indentedAt 0 value

end Json

end SummaryInlining
