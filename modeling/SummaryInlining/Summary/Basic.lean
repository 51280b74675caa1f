import SummaryInlining.Data.Table
import SummaryInlining.Term.Basic

/-!
# Function summaries

A function summary abstracts one function: a term for each parameter, a term for its result, and
constraints, which either require a condition or record a call. Inside a summary a constraint is
located at a position of the source; after inlining it carries a whole call stack. `Constraint` is
the same type in both cases, with the kind of location as a parameter.
-/

set_option autoImplicit false

namespace SummaryInlining

/-- A position in the source of an analyzed function. -/
structure SourceLocation where
  fileID : String
  /-- The line, counted from one. -/
  line : Int
  /-- The column in characters, counted from one. -/
  column : Int
  deriving DecidableEq, Inhabited

/-- The text of a location, which also serves as its key. -/
def SourceLocation.text (location : SourceLocation) : String :=
  location.fileID ++ ":" ++ Number.integerText location.line ++ ":"
    ++ Number.integerText location.column

/-- The call sites between the root of an instantiation and the origin of a constraint, the
innermost one first. A call site without a known position is a frame without location. -/
abbrev CallStack := List (Option SourceLocation)

namespace CallStack

/-- The stack of the root, which has no frames. -/
def top : CallStack := []

/-- The stack below one more call site. -/
def push (location : Option SourceLocation) (caller : CallStack) : CallStack := location :: caller

/-- The location of the innermost frame, if there is one and it has a location. -/
def innermost? (stack : CallStack) : Option SourceLocation := stack.head?.join

end CallStack

/-- Whether a constraint was written as an assertion in the analyzed source. -/
inductive Origin where
  /-- It comes from an assertion. -/
  | asserted
  /-- It was derived automatically. -/
  | implied
  deriving DecidableEq

namespace Origin

/-- Both origins. -/
def all : List Origin := [.asserted, .implied]

/-- The name of an origin in summary files. -/
def name : Origin → String
  | .asserted => "asserted"
  | .implied => "implied"

end Origin

/-- States that `condition` holds whenever `assuming` holds. -/
structure Requirement (L : Type) where
  condition : Term .bool
  /-- When the condition is required. -/
  assuming : Term .bool
  /-- Where the requirement comes from. -/
  origin : Origin
  location : L

/-- Records that `callee` is called with `args` whenever `assuming` holds. -/
structure Call (L : Type) where
  callee : String
  /-- The arguments; an absent one is unconstrained. -/
  args : List (Option Expr)
  /-- The variable that the result is bound to, when it is captured. -/
  result : Option Var
  /-- When the function is called. -/
  assuming : Term .bool
  location : L

/-- A constraint of a summary. -/
inductive Constraint (L : Type) where
  | require (requirement : Requirement L)
  | call (call : Call L)

def Constraint.location {L : Type} : Constraint L → L
  | .require r => r.location
  | .call c => c.location

/-- A constraint inside a summary. -/
abbrev SummaryConstraint := Constraint (Option SourceLocation)

/-- A constraint after inlining: every call is gone and every requirement carries its stack. -/
abbrev InstantiatedConstraint := Requirement CallStack

/-- The abstraction of one function. -/
structure FunctionSummary where
  /-- One entry for each parameter; an absent one has no useful constraint. -/
  parameters : List (Option Expr)
  /-- The value that the function returns, if it returns a useful one. -/
  result : Option Expr
  constraints : List SummaryConstraint

/-- The summaries of the functions that are known, by name. -/
abbrev Environment := Table FunctionSummary

/-- A field of a struct. -/
structure StructField where
  name : String
  type : String
  deriving DecidableEq

/-- The layouts of the structs that are known, by name. -/
abbrev TypeEnvironment := Table (List StructField)

namespace Constraint

variable {L : Type}

/-- The variables that occur in a constraint, in the order in which a substitution meets them: of
a requirement those of its condition and then of its assumption, of a call those of its arguments,
its result and then its assumption. -/
def occurrences : Constraint L → List Var
  | .require r => r.condition.occurrences ++ r.assuming.occurrences
  | .call c => Expr.listOccurrences c.args ++ c.result.toList ++ c.assuming.occurrences

end Constraint

end SummaryInlining
