import SummaryInlining.Term.Basic

/-!
# Replacing variables

`Term.mapVarsM` is the one traversal of terms that changes them: it replaces every variable by
a term of its own sort, which an effectful function chooses, and meets the occurrences from left to
right. Renaming is the traversal without effects.

A `Rewrite` chooses expressions of any sort, and may keep a state while it does. Carrying it out
fails when a replacement is of another sort than its variable. A `Substitution` is a rewrite without
a state of its own; carrying it out notes the variables whose replacements were asked for.
-/

set_option autoImplicit false

namespace SummaryInlining

namespace Term

mutual

/-- Replaces every variable of a term by the term of its sort that `f` answers. The occurrences
are met from left to right. -/
def mapVarsM {m : Type → Type} [Monad m] (f : (v : Var) → m (Term v.sort)) {s : ValueSort} :
    Term s → m (Term s)
  | .var s id => f ⟨s, id⟩
  | .literal n => pure (.literal n)
  | .length l => do return .length (← l.mapVarsM f)
  | .element i l => do return .element i (← l.mapVarsM f)
  | .arith op l r => do return .arith op (← l.mapVarsM f) (← r.mapVarsM f)
  | .list elements => do return .list (← mapElementsM f elements)
  | .broadcast l r => do return .broadcast (← l.mapVarsM f) (← r.mapVarsM f)
  | .truth b => pure (.truth b)
  | .not p => do return .not (← p.mapVarsM f)
  | .and operands => do return .and (← mapOperandsM f operands)
  | .or operands => do return .or (← mapOperandsM f operands)
  | .compare op l r => do return .compare op (← l.mapVarsM f) (← r.mapVarsM f)
  | .listEq l r => do return .listEq (← l.mapVarsM f) (← r.mapVarsM f)
  | .boolEq l r => do return .boolEq (← l.mapVarsM f) (← r.mapVarsM f)

def mapElementsM {m : Type → Type} [Monad m] (f : (v : Var) → m (Term v.sort)) :
    List (Option (Term .int)) → m (List (Option (Term .int)))
  | [] => pure []
  | none :: rest => do return none :: (← mapElementsM f rest)
  | some e :: rest => do return some (← e.mapVarsM f) :: (← mapElementsM f rest)

def mapOperandsM {m : Type → Type} [Monad m] (f : (v : Var) → m (Term v.sort)) :
    List (Term .bool) → m (List (Term .bool))
  | [] => pure []
  | p :: rest => do return (← p.mapVarsM f) :: (← mapOperandsM f rest)

end

/-- Gives every variable of a term the number that `f` chooses for it. -/
def rename (f : Var → Int) {s : ValueSort} (e : Term s) : Term s :=
  Id.run (e.mapVarsM fun v => pure (.var v.sort (f v)))

end Term

namespace Expr

/-- Replaces every variable of an expression by the term of its sort that `f` answers. -/
def mapVarsM {m : Type → Type} [Monad m] (f : (v : Var) → m (Term v.sort)) (e : Expr) :
    m Expr := do
  return ⟨e.sort, ← e.term.mapVarsM f⟩

/-- Gives every variable of an expression the number that `f` chooses for it. -/
def rename (f : Var → Int) (e : Expr) : Expr := ⟨e.sort, e.term.rename f⟩

end Expr

/-- The expression that each variable is to be replaced by, or none where it is to be left. -/
abbrev Substitution := Var → Option Expr

/-- Why a substitution cannot be carried out. -/
inductive SubstitutionError where
  /-- A variable of sort `expected` has a replacement of the sort `found`. -/
  | sortMismatch (expected found : ValueSort)
  /-- A variable that must stay a variable is replaced by a node of another kind. -/
  | notAVariable (v : Var) (kind : NodeKind)
  deriving DecidableEq

def SubstitutionError.message : SubstitutionError → String
  | .sortMismatch expected found =>
    "ICE: variable of sort `" ++ expected.name ++ "` rewritten to an expression of sort `"
      ++ found.name ++ "`"
  | .notAVariable v kind =>
    "ICE: variable `" ++ v.key ++ "` renamed to a non-variable `" ++ kind.name ++ "`"

/-- An answer to what a variable is to be replaced by, from a state that it may change. Without an
answer the variable is left. -/
abbrev Rewrite (σ : Type) := Var → StateM σ (Option Expr)

/-- Carrying out a rewrite: an answer or an error, together with the state that the rewrite is left
in. -/
abbrev Rewriting (σ : Type) := ExceptT SubstitutionError (StateM σ)

section

variable {σ : Type} (r : Rewrite σ)

/-- Asks for the replacement of a variable, which has to be of the sort of the variable. -/
def Rewrite.replacement? (v : Var) : Rewriting σ (Option (Term v.sort)) := do
  match ← r v with
  | none => return none
  | some e =>
    if h : e.sort = v.sort then return some (h ▸ e.term)
    else throw (.sortMismatch v.sort e.sort)

/-- Replaces every variable of a term that has a replacement. -/
def Term.rewrite {s : ValueSort} (e : Term s) : Rewriting σ (Term s) :=
  e.mapVarsM fun v => do return (← r.replacement? v).getD (.ofVar v)

def Expr.rewrite (e : Expr) : Rewriting σ Expr := do
  return ⟨e.sort, ← e.term.rewrite r⟩

/-- The variable that replaces `v`, which is `v` itself where it has no replacement. -/
def Var.rewrite (v : Var) : Rewriting σ Var := do
  match ← r.replacement? v with
  | none => return v
  | some (.var _ id) => return ⟨v.sort, id⟩
  | some other => throw (.notAVariable v other.kind)

end

/-- A substitution as a rewrite that notes what it is asked for. -/
def Substitution.recorded (θ : Substitution) : Rewrite (Array Var) := fun v => do
  modify (·.push v)
  return θ v

/-- Carrying out a substitution: an answer or an error, together with the variables whose
replacements were asked for, in order. -/
abbrev Substituting := Rewriting (Array Var)

/-- The outcome of a substitution, and the variables whose replacements were asked for. -/
def Substituting.outcome {α : Type} (action : Substituting α) :
    Except SubstitutionError α × Array Var :=
  Id.run (StateT.run (ExceptT.run action) #[])

/-- Replaces every variable of a term that has a replacement. -/
def Term.substitute (θ : Substitution) {s : ValueSort} (e : Term s) : Substituting (Term s) :=
  e.rewrite θ.recorded

def Expr.substitute (θ : Substitution) (e : Expr) : Substituting Expr := e.rewrite θ.recorded

/-- The variable that replaces `v`, which is `v` itself where it has no replacement. -/
def Var.substitute (θ : Substitution) (v : Var) : Substituting Var := v.rewrite θ.recorded

end SummaryInlining
