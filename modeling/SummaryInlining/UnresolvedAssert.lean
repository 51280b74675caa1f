import SummaryInlining.Diagnostic
import SummaryInlining.Summary.Substitution

/-!
# Unresolved assertions

An assertion whose condition could not be understood is abstracted as a boolean variable that
appears nowhere else. `unresolvedAsserts` looks for such variables in two passes. The first one
counts how often each variable occurs in the system, by a rewrite that replaces nothing and counts
what it is asked for. The second one warns about the asserted conditions that are nothing but a
variable that was counted once, and does so once for each location.
-/

set_option autoImplicit false

namespace SummaryInlining

/-- The message of a warning about an assertion that could not be understood. -/
def unresolvedAssertMessage : String := "Failed to parse the assert condition"

/-- How often each variable has been met so far. -/
abbrev UseCounts := List (Var × Nat)

namespace UseCounts

/-- How often a variable has been met; a variable that is not listed has not been met. -/
def of (counts : UseCounts) (v : Var) : Nat := (valueAt? v counts).getD 0

/-- Meets a variable once more. -/
def add (counts : UseCounts) (v : Var) : UseCounts := setEntry v (counts.of v + 1) counts

/-- The rewrite that counts what it is asked for, and replaces nothing. -/
def counting : Rewrite UseCounts := fun v => do
  modify (·.add v)
  return none

/-- Counts the variables of a constraint. -/
def addConstraint (counts : UseCounts) (c : Constraint CallStack) : UseCounts :=
  (Id.run (StateT.run (ExceptT.run (c.rewrite counting)) counts)).2

/-- How often each variable occurs in the constraints of a system. -/
def ofSystem (constraints : List (Constraint CallStack)) : UseCounts :=
  constraints.foldl addConstraint []

end UseCounts

namespace Constraint

/-- The variable that is the whole condition of an asserted requirement. -/
def assertedVar? : Constraint CallStack → Option Var
  | .require r =>
    match r.condition, r.origin with
    | .var _ id, .asserted => some ⟨.bool, id⟩
    | _, _ => none
  | .call _ => none

/-- The location at which a constraint asserts nothing but a variable that has been met once. -/
def locationOfSingleUse? (counts : UseCounts) (c : Constraint CallStack) : Option SourceLocation :=
  match c.assertedVar? with
  | none => none
  | some v => if counts.of v = 1 then c.location.innermost? else none

end Constraint

/-- Warns about the constraints that assert nothing but a variable that has been met once, and
remembers the locations that it has seen in order to warn about each of them once. -/
def warnOnce (counts : UseCounts) (seen : List SourceLocation) :
    List (Constraint CallStack) → List Warning
  | [] => []
  | c :: rest =>
    match c.locationOfSingleUse? counts with
    | none => warnOnce counts seen rest
    | some location =>
      if location ∈ seen then warnOnce counts seen rest
      else ⟨unresolvedAssertMessage, location⟩ :: warnOnce counts (location :: seen) rest

/-- The warnings about the unresolved assertions of a system, one for each location, in the order
of the first unresolved assertion there. -/
def unresolvedAsserts (constraints : List (Constraint CallStack)) : List Warning :=
  warnOnce (UseCounts.ofSystem constraints) [] constraints

end SummaryInlining
