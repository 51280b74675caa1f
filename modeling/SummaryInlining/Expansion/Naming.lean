import SummaryInlining.Data.MemoTable
import SummaryInlining.Term.Substitution

/-!
# Fresh variables and renaming scopes

A `Supply` hands out variables that it has never handed out before. A renaming scope gives every
source variable a variable of its own from the supply, at the first time that it is met; within one
scope a source variable always has the same name, and no two scopes share one. All scopes of
a `Naming` draw from one supply, so whatever they name can be put side by side.

A term is renamed in two steps: its variables are named in the order of their occurrences
(`Naming.cover`), and then each of them is replaced by its name.
-/

set_option autoImplicit false

namespace SummaryInlining

/-- Hands out variables, each with the next number. -/
structure Supply where
  /-- How many variables have been handed out. -/
  count : Nat
  deriving DecidableEq

namespace Supply

def new : Supply := ⟨0⟩

/-- A variable that has not been handed out before. -/
def fresh (supply : Supply) (sort : ValueSort) : Var × Supply :=
  (⟨sort, supply.count⟩, ⟨supply.count + 1⟩)

end Supply

/-- A renaming scope: the source variables met so far, each with the variable it is renamed to. -/
abbrev Scope := MemoTable (fun v : Var => v) Var

/-- The number of a scope, which counts the scopes opened before it. -/
abbrev ScopeId := Nat

/-- A supply of variables, and all renaming scopes that draw from it. -/
structure Naming where
  /-- Where new names come from. -/
  supply : Supply
  /-- The scopes in the order in which they were opened. -/
  scopes : Array Scope

namespace Naming

/-- No variable has been handed out and no scope has been opened. -/
def new : Naming := ⟨.new, #[]⟩

/-- How many variables have been handed out. -/
def count (naming : Naming) : Nat := naming.supply.count

/-- Opens a scope in which nothing has been met. -/
def openScope (naming : Naming) : ScopeId × Naming :=
  (naming.scopes.size, { naming with scopes := naming.scopes.push .empty })

/-- What a scope maps a source variable to, if it has been met there. -/
def find? (naming : Naming) (scope : ScopeId) (v : Var) : Option Var :=
  naming.scopes[scope]?.bind (·.find? v)

/-- Meets a source variable in a scope: it is named if it has no name there yet. -/
def meet (scope : ScopeId) (naming : Naming) (v : Var) : Naming :=
  match naming.find? scope v with
  | some _ => naming
  | none =>
    let fresh := naming.supply.fresh v.sort
    ⟨fresh.2, naming.scopes.modify scope (·.push v fresh.1)⟩

/-- Meets source variables one after the other. -/
def cover (naming : Naming) (scope : ScopeId) (vs : List Var) : Naming :=
  vs.foldl (meet scope) naming

/-- The number of the variable that a source variable is renamed to. A variable that has not been
met keeps its own. -/
def numberOf (naming : Naming) (scope : ScopeId) (v : Var) : Int :=
  ((naming.find? scope v).getD v).id

/-- The variable that a scope renames a source variable to. -/
def renameVar (naming : Naming) (scope : ScopeId) (v : Var) : Var × Naming :=
  let met := naming.meet scope v
  (⟨v.sort, met.numberOf scope v⟩, met)

/-- Renames a term inside a scope. -/
def renameTerm (naming : Naming) (scope : ScopeId) {s : ValueSort} (e : Term s) :
    Term s × Naming :=
  let covered := naming.cover scope e.occurrences
  (e.rename (covered.numberOf scope), covered)

/-- Renames an expression inside a scope. -/
def renameExpr (naming : Naming) (scope : ScopeId) (e : Expr) : Expr × Naming :=
  let renamed := naming.renameTerm scope e.term
  (⟨e.sort, renamed.1⟩, renamed.2)

/-- Renames those of some optional expressions that are present, from left to right. -/
def renameExprs (naming : Naming) (scope : ScopeId) :
    List (Option Expr) → List (Option Expr) × Naming
  | [] => ([], naming)
  | none :: rest =>
    let others := naming.renameExprs scope rest
    (none :: others.1, others.2)
  | some e :: rest =>
    let first := naming.renameExpr scope e
    let others := first.2.renameExprs scope rest
    (some first.1 :: others.1, others.2)

end Naming

end SummaryInlining
