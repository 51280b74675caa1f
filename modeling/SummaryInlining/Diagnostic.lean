import SummaryInlining.Json.Parser
import SummaryInlining.Json.Printer
import SummaryInlining.Summary.Basic

/-!
# Diagnostics

A `Diagnostic` is a problem with what was given to the analyzer: a summary file that does not fit
the data model, a function that two files summarize, or a function without a summary. The type
says what is wrong, and `Diagnostic.message` is the only place where it is put into words.
A `Warning` is a finding about the analyzed code, which does not stop anything.
-/

set_option autoImplicit false

namespace SummaryInlining

/-- One step from a JSON value to a part of it. -/
inductive PathStep where
  /-- To the member of this name. -/
  | key (name : String)
  /-- To the item at this position. -/
  | index (position : Number)
  deriving DecidableEq

def PathStep.text : PathStep → String
  | .key name => "." ++ name
  | .index position => "[" ++ position.text ++ "]"

/-- What should have stood at a place of a summary file. -/
inductive Expectation where
  | object
  | array
  | string
  | integer
  | boolean
  | oneOf (options : List String)
  | sortName (s : ValueSort)
  /-- The kind of a term of this sort. -/
  | termKind (s : ValueSort)
  /-- The kind of a term of any sort. -/
  | exprKind
  /-- The kind of a constraint. -/
  | constraintKind
  /-- A text that is JSON, which it is not for this reason. -/
  | json (reason : Json.SyntaxError)
  /-- Something that these words describe. -/
  | described (words : String)
  deriving DecidableEq

/-- A name between backquotes. -/
def ticked (name : String) : String := "`" ++ name ++ "`"

def Expectation.text : Expectation → String
  | .object => "an object"
  | .array => "an array"
  | .string => "a string"
  | .integer => "an integer"
  | .boolean => "a boolean"
  | .oneOf options => "one of " ++ ", ".intercalate (options.map ticked)
  | .sortName s => ticked s.name
  | .termKind .int => "an integer expression"
  | .termKind .list => "a list expression"
  | .termKind .bool => "a boolean expression"
  | .exprKind => "an expression"
  | .constraintKind => ticked "expr" ++ " or " ++ ticked "call"
  | .json reason => "valid JSON (" ++ reason.message ++ ")"
  | .described words => words

/-- A place of a JSON value that does not fit, and what should have stood there. -/
structure Malformation where
  path : List PathStep
  expected : Expectation
  deriving DecidableEq

namespace Malformation

/-- The value itself does not fit. -/
def here (expected : Expectation) : Malformation := ⟨[], expected⟩

/-- The malformation of a part, as one of the whole. -/
def within (step : PathStep) (m : Malformation) : Malformation := ⟨step :: m.path, m.expected⟩

/-- The text of the path, from the root on. -/
def pathText (m : Malformation) : String := "$" ++ String.join (m.path.map PathStep.text)

end Malformation

/-- A part of a message: a line of text, or a location to point at. -/
inductive MessageElement where
  | text (line : String)
  | location (location : SourceLocation)
  deriving DecidableEq

namespace MessageElement

/-- The line of a message that shows the element. -/
def lineText : MessageElement → String
  | .text line => line
  | .location place => "\tat " ++ place.text

/-- The element in JSON. -/
def encode : MessageElement → Json
  | .text line => .string line
  | .location place =>
    .object [("fileID", .string place.fileID), ("line", .ofInt place.line),
      ("column", .ofInt place.column)]

end MessageElement

/-- A problem with what was given to the analyzer. -/
inductive Diagnostic where
  /-- A summary file does not fit the data model. -/
  | malformed (fileID : String) (malformation : Malformation)
  /-- Two files summarize one function. -/
  | redefined (name firstFileID secondFileID : String)
  /-- A function has no summary. -/
  | missing (name : String)
  /-- Any other problem, in its own words. -/
  | general (message : List MessageElement)
  deriving DecidableEq

namespace Diagnostic

def message : Diagnostic → List MessageElement
  | .malformed fileID m =>
    [.text ("The summary file " ++ ticked fileID ++ " is malformed: expected " ++ m.expected.text
      ++ " at " ++ ticked m.pathText)]
  | .redefined name firstFileID secondFileID =>
    [.text ("The function " ++ ticked name ++ " was summarized for a second time in "
        ++ ticked secondFileID),
      .text ("The first summary was in " ++ ticked firstFileID)]
  | .missing name => [.text ("The function " ++ ticked name ++ " has no summary")]
  | .general message => message

/-- The message with every element on its own line. -/
def text (d : Diagnostic) : String :=
  "\n".intercalate (d.message.map MessageElement.lineText)

/-- The message as the text of a JSON array. -/
def jsonText (d : Diagnostic) : String :=
  (Json.array (d.message.map MessageElement.encode)).compact

end Diagnostic

/-- A finding about the analyzed code. -/
structure Warning where
  message : String
  location : SourceLocation
  deriving DecidableEq

namespace Warning

def text (w : Warning) : String := w.location.text ++ ": warning: " ++ w.message

end Warning

end SummaryInlining
