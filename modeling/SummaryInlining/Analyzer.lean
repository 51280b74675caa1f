import SummaryInlining.Expansion.Instantiation
import SummaryInlining.UnresolvedAssert

/-!
# Analyzing a module

An analyzer builds the environment of a module, one function at a time, and checks entry functions
against it. How a function is abstracted is up to an `Abstractor`, which raises warnings and either
answers a summary or fails. A function that fails is left without a summary but keeps its
warnings.

The abstractor works in any monad. It sees the structs declared so far and nothing else of the
analyzer.
-/

set_option autoImplicit false

namespace SummaryInlining

/-- The abstraction of single functions: `F` is the type of functions and `ε` that of failures. -/
structure Abstractor (m : Type → Type) (F ε : Type) where
  nameOf : F → String
  /-- The warnings raised while abstracting a function, and its summary unless that fails. -/
  abstract : TypeEnvironment → F → m (List Warning × Except ε FunctionSummary)

/-- The state of an analysis. -/
structure Analyzer where
  /-- The summaries, in the order in which they were last made. -/
  environment : Environment
  /-- The layouts of the structs declared so far. -/
  types : TypeEnvironment
  /-- The warnings of each analyzed function, in the order of the first analysis. -/
  warnings : Table (List Warning)

/-- The constraints of an entry function, and the warnings about them. -/
structure CheckResult where
  constraints : List InstantiatedConstraint
  warnings : List Warning

/-- The constraints of a function with everything it calls, and the warnings about them. -/
def check (env : Environment) (entry : String) : Except ArityMismatch CheckResult :=
  let instantiated := instantiate env entry .new
  let constraints := instantiated.2.constraints.toList
  instantiated.1.map fun _ =>
    ⟨constraints, unresolvedAsserts (constraints.map .require)⟩

namespace Analyzer

def new : Analyzer := ⟨.empty, .empty, .empty⟩

/-- Makes the layout of a struct available to the functions analyzed afterwards. -/
def declareStruct (name : String) (fields : List StructField) (analyzer : Analyzer) : Analyzer :=
  { analyzer with types := analyzer.types.insert name fields }

/-- The analyzer after a function was abstracted with this outcome. -/
def record {ε : Type} (name : String) (warnings : List Warning)
    (outcome : Except ε FunctionSummary) (analyzer : Analyzer) : Analyzer :=
  let erased := analyzer.environment.erase name
  { analyzer with
    environment :=
      match outcome with
      | .ok summary => erased.insert name summary
      | .error _ => erased
    warnings := analyzer.warnings.insert name warnings }

variable {m : Type → Type} [Monad m] {F ε : Type}

/-- Abstracts a function and replaces its summary and its warnings. -/
def analyze (abstractor : Abstractor m F ε) (f : F) (analyzer : Analyzer) :
    m (Except ε Unit × Analyzer) := do
  let (warnings, outcome) ← abstractor.abstract analyzer.types f
  return (outcome.map fun _ => (), analyzer.record (abstractor.nameOf f) warnings outcome)

/-- Analyzes functions one after the other, up to the first one that fails. -/
def analyzeModule (abstractor : Abstractor m F ε) :
    List F → Analyzer → m (Except ε Unit × Analyzer)
  | [], analyzer => pure (.ok (), analyzer)
  | f :: rest, analyzer => do
    match ← analyzer.analyze abstractor f with
    | (.ok (), after) => analyzeModule abstractor rest after
    | (.error e, after) => return (.error e, after)

/-- Checks an entry function against the current environment. -/
def check (analyzer : Analyzer) (entry : String) : Except ArityMismatch CheckResult :=
  SummaryInlining.check analyzer.environment entry

end Analyzer

end SummaryInlining
