import SummaryInlining.Json.Printer

/-!
# Traces

A trace is a tree: branches, which have a time of start and, unless they are still open, a time of
end, and events at one point of time. A title is a text or a list of JSON values, which are shown
side by side. `Trace.serialize` writes a trace as a JSON value, with times rounded to thousandths.
-/

set_option autoImplicit false

namespace SummaryInlining

/-- The title of a branch or an event. -/
inductive Title where
  /-- A text. -/
  | text (words : String)
  /-- Values to be shown side by side. -/
  | parts (values : List Json)
  deriving Inhabited

namespace Title

/-- A title of several texts. -/
def ofWords (words : List String) : Title := .parts (words.map Json.string)

/-- How one value of a title is shown: a string as it is, any other value in JSON. -/
def shownValue : Json → String
  | .string words => words
  | value => value.compact

/-- The texts that a title shows. -/
def shown : Title → List String
  | .text words => [words]
  | .parts values => values.map shownValue

/-- Whether two titles are the same text. A list of values is no text, whatever it shows. -/
def isSameText : Title → Title → Bool
  | .text words, .text other => words = other
  | _, _ => false

def encode : Title → Json
  | .text words => .string words
  | .parts values => .array values

end Title

/-- A recorded trace. -/
inductive Trace where
  /-- Something that happened at one point of time. -/
  | event (title : Title) (details : Option String) (time : Number)
  /-- Something that took time, with what happened during it. -/
  | branch (title : Title) (start : Number) (stop : Option Number) (children : List Trace)
  deriving Inhabited

namespace Trace

/-- A time in JSON. -/
def encodeTime (time : Number) : Json := .number time.toThousandths

/-- The members that branches and events have in common. -/
def commonMembers (title : Title) (time : Number) : List (String × Json) :=
  [("title", .array (title.shown.map Json.string)), ("start", encodeTime time)]

mutual

/-- A trace as a JSON value. -/
def serialize : Trace → Json
  | .event title details time =>
    .object (commonMembers title time ++ [("details", Json.ofOption Json.string details)])
  | .branch title start stop children =>
    .object (commonMembers title start ++
      [("end", Json.ofOption encodeTime stop), ("children", .array (serializeAll children))])

def serializeAll : List Trace → List Json
  | [] => []
  | child :: rest => child.serialize :: serializeAll rest

end

end Trace

end SummaryInlining
