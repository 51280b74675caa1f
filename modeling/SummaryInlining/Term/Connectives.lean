import SummaryInlining.Term.Basic

/-!
# Equating and conjoining

`Expr.equate?` states that two expressions are equal, which it can only do for expressions of one
sort. `Term.conjoin` builds the conjunction of two conditions and keeps it flat: a literal true is
dropped, and the operands of conjunctions are listed side by side in their order.
-/

set_option autoImplicit false

namespace SummaryInlining

namespace Term

/-- The condition that always holds. -/
def alwaysTrue : Term .bool := .truth true

/-- The equality of two terms of one sort. -/
def equate : {s : ValueSort} → Term s → Term s → Term .bool
  | .int, left, right => .compare .eq left right
  | .list, left, right => .listEq left right
  | .bool, left, right => .boolEq left right

/-- Whether a condition is literally true. -/
def isTrue : Term .bool → Bool
  | .truth value => value
  | _ => false

/-- The operands that a condition contributes to a conjunction. -/
def conjuncts : Term .bool → List (Term .bool)
  | .and operands => operands
  | p => [p]

/-- The conjunction of two conditions, without literally true operands at its top and without
conjunctions nested directly in it. -/
def conjoin (p q : Term .bool) : Term .bool :=
  if p.isTrue then q
  else if q.isTrue then p
  else .and (p.conjuncts ++ q.conjuncts)

end Term

/-- The equality of two expressions, unless their sorts differ. -/
def Expr.equate? (left right : Expr) : Option (Term .bool) :=
  (right.as? left.sort).map left.term.equate

end SummaryInlining
