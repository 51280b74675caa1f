import SummaryInlining.Summary.Basic
import SummaryInlining.Term.Substitution

/-!
# Replacing variables in a constraint

A rewrite is carried out on every expression of a constraint and on the variable that captures the
result of a call. The expressions are visited in the order of `Constraint.occurrences`.
-/

set_option autoImplicit false

namespace SummaryInlining

section

variable {σ : Type} (r : Rewrite σ)

/-- Carries out a rewrite on each present argument of a call. -/
def rewriteArgs : List (Option Expr) → Rewriting σ (List (Option Expr))
  | [] => return []
  | none :: rest => do return none :: (← rewriteArgs rest)
  | some e :: rest => do return some (← e.rewrite r) :: (← rewriteArgs rest)

/-- Carries out a rewrite on the variable that captures a result. -/
def rewriteResult : Option Var → Rewriting σ (Option Var)
  | none => return none
  | some v => do return some (← v.rewrite r)

/-- Carries out a rewrite on every expression of a constraint and on the result that a call
captures. -/
def Constraint.rewrite {L : Type} : Constraint L → Rewriting σ (Constraint L)
  | .require q => do
    let condition ← q.condition.rewrite r
    let assuming ← q.assuming.rewrite r
    return .require { q with condition, assuming }
  | .call c => do
    let args ← rewriteArgs r c.args
    let result ← rewriteResult r c.result
    let assuming ← c.assuming.rewrite r
    return .call { c with args, result, assuming }

end

/-- Applies a substitution to every expression of a constraint and to the result that a call
captures. -/
def Constraint.substitute {L : Type} (θ : Substitution) (c : Constraint L) :
    Substituting (Constraint L) :=
  c.rewrite θ.recorded

end SummaryInlining
