import SummaryInlining.Proofs.NamingGrowth
import SummaryInlining.Proofs.Outcomes

/-!
# Renaming with the checks of a substitution

A renaming scope serves as a substitution while a term is traversed: each occurrence is looked up in
the scope, which names it if it has no name there yet, and the replacement that comes back has to be
of the sort of the variable. So a traversal can break off in the middle, and leaves the names behind
that it has given until then.

It never does in a scope that keeps sorts (`Naming.KeepsSorts`). Every scope does when it is opened,
and it goes on to do so while the naming grows (`KeepsSorts.mono`). There the traversal names what
`renameTerm` names and answers the term that `renameTerm` answers (`outcomeIn_mapVarsM`).
-/

set_option autoImplicit false

namespace SummaryInlining

/-- The traversal of a term that renames its variables. It can be refused. -/
abbrev Renaming := ExceptT SubstitutionError (StateM Naming)

namespace Renaming

/-- The expression that a scope replaces a variable by. -/
def lookUp (scope : ScopeId) (v : Var) : Renaming Expr := do
  let met := (← get).meet scope v
  set met
  return Expr.ofVar ((met.find? scope v).getD v)

/-- The term that a scope replaces a variable by, which has to be of the sort of the variable. -/
def replacement (scope : ScopeId) (v : Var) : Renaming (Term v.sort) := do
  let e ← lookUp scope v
  if h : e.sort = v.sort then return h ▸ e.term
  else throw (.sortMismatch v.sort e.sort)

end Renaming

namespace Naming

/-- The scope has been opened, and renames variables to variables of the same sort. -/
structure KeepsSorts (naming : Naming) (scope : ScopeId) : Prop where
  opened : scope < naming.scopes.size
  sort_eq : ∀ {v w}, naming.find? scope v = some w → w.sort = v.sort

/-- A scope that keeps sorts still does when more names are handed out. -/
theorem KeepsSorts.mono {before after : Naming} {scope : ScopeId} (h : before.KeepsSorts scope)
    (hg : Grows before after) : after.KeepsSorts scope where
  opened := Nat.lt_of_lt_of_le h.opened hg.scopes_le
  sort_eq {v w} hw := by
    cases hb : before.find? scope v with
    | none => exact hg.sort_eq ⟨hb, hw⟩
    | some u =>
      have hu := hg.stable hb
      rw [hw] at hu
      cases hu
      exact h.sort_eq hb

/-- A scope in which nothing has been named keeps sorts. -/
theorem keepsSorts_openScope (naming : Naming) :
    naming.openScope.2.KeepsSorts naming.scopes.size where
  opened := by simp
  sort_eq hw := by
    rw [find?_openScope, find?_of_size_le (Nat.le_refl _)] at hw
    cases hw

section

variable {naming : Naming} {scope : ScopeId}

/-- Looking a variable up succeeds with the variable that it is renamed to. -/
theorem outcomeIn_lookUp (h : naming.KeepsSorts scope) (v : Var) :
    outcomeIn (Renaming.lookUp scope v) naming =
      (.ok (Expr.ofVar (naming.renameVar scope v).1), (naming.renameVar scope v).2) := by
  have hlt := h.opened
  obtain ⟨w, hw⟩ := knows_meet hlt v
  have hsort : w.sort = v.sort := (h.mono (grows_meet hlt)).sort_eq hw
  have hname : (naming.renameVar scope v).1 = w := by
    rw [renameVar, numberOf_of_find? hw, ← hsort]
  have hlook : outcomeIn (Renaming.lookUp scope v) naming =
      (.ok (Expr.ofVar (((naming.meet scope v).find? scope v).getD v)), naming.meet scope v) := rfl
  rw [hlook, hw, hname, Option.getD_some]
  rfl

/-- The variable that is looked up has the right sort, where sorts are kept. -/
theorem outcomeIn_replacement (h : naming.KeepsSorts scope) (v : Var) :
    outcomeIn (Renaming.replacement scope v) naming =
      (.ok (.var v.sort ((naming.meet scope v).numberOf scope v)), naming.meet scope v) := by
  rw [Renaming.replacement, outcomeIn_bind_of_ok (outcomeIn_lookUp h v)]
  rw [dif_pos (show (Expr.ofVar (naming.renameVar scope v).1).sort = v.sort from rfl)]
  rfl

/-- Traversing a term renames it, whatever has been named before. -/
def Traverses (scope : ScopeId) {s : ValueSort} (e : Term s) : Prop :=
  ∀ naming : Naming, naming.KeepsSorts scope →
    outcomeIn (e.mapVarsM (Renaming.replacement scope)) naming =
      (.ok (naming.renameTerm scope e).1, (naming.renameTerm scope e).2)

/-- A scope that keeps sorts still does when more variables are met. -/
theorem KeepsSorts.cover (h : naming.KeepsSorts scope) (vs : List Var) :
    (naming.cover scope vs).KeepsSorts scope :=
  h.mono (grows_cover h.opened vs)

/-- Two operands are renamed one after the other, and what the first one is renamed to is not
changed by what is named for the second one. -/
theorem outcomeIn_operands {s t u : ValueSort} {l : Term s} {r : Term t}
    (hl : Traverses scope l) (hr : Traverses scope r) (h : naming.KeepsSorts scope)
    (f : Term s → Term t → Term u) :
    let covered := naming.cover scope (l.occurrences ++ r.occurrences)
    outcomeIn (l.mapVarsM (Renaming.replacement scope) >>= fun a =>
        r.mapVarsM (Renaming.replacement scope) >>= fun b => pure (f a b)) naming =
      (.ok (f (l.rename (covered.numberOf scope)) (r.rename (covered.numberOf scope))),
        covered) := by
  have hcover := h.cover l.occurrences
  have hfirst := renameTerm_fst_of_grows h.opened l (grows_cover hcover.opened r.occurrences)
  dsimp only
  rw [cover_append, ← hfirst]
  exact outcomeIn_map₂_of_ok (hl naming h) (hr _ hcover) f

/-- Renaming the elements of a list with checks succeeds and meets their variables in order, if this
holds for each element. -/
theorem outcomeIn_mapElementsM {es : List (Option (Term .int))}
    (hes : ∀ e, some e ∈ es → Traverses scope e) (h : naming.KeepsSorts scope) :
    let covered := naming.cover scope (Term.elementOccurrences es)
    outcomeIn (Term.mapElementsM (Renaming.replacement scope) es) naming =
      (.ok (es.map (Option.map (Term.rename (covered.numberOf scope)))), covered) := by
  induction es generalizing naming with
  | nil => rfl
  | cons e rest ih =>
    have hrest : ∀ e, some e ∈ rest → Traverses scope e :=
      fun e he => hes e (List.mem_cons_of_mem _ he)
    cases e with
    | none => exact outcomeIn_map_of_ok (ih hrest h) _
    | some e =>
      have hcover := h.cover e.occurrences
      have hfirst := renameTerm_fst_of_grows h.opened e
        (grows_cover hcover.opened (Term.elementOccurrences rest))
      dsimp only
      rw [Term.elementOccurrences, cover_append, List.map_cons, Option.map_some, ← hfirst]
      exact outcomeIn_map₂_of_ok (hes e List.mem_cons_self naming h) (ih hrest hcover) _

/-- Renaming operands with checks succeeds and meets their variables in order, if this holds for
each operand. -/
theorem outcomeIn_mapOperandsM {ps : List (Term .bool)}
    (hps : ∀ p ∈ ps, Traverses scope p) (h : naming.KeepsSorts scope) :
    let covered := naming.cover scope (Term.operandOccurrences ps)
    outcomeIn (Term.mapOperandsM (Renaming.replacement scope) ps) naming =
      (.ok (ps.map (Term.rename (covered.numberOf scope))), covered) := by
  induction ps generalizing naming with
  | nil => rfl
  | cons p rest ih =>
    have hcover := h.cover p.occurrences
    have hfirst := renameTerm_fst_of_grows h.opened p
      (grows_cover hcover.opened (Term.operandOccurrences rest))
    dsimp only
    rw [Term.operandOccurrences, cover_append, List.map_cons, ← hfirst]
    exact outcomeIn_map₂_of_ok (hps p List.mem_cons_self naming h)
      (ih (fun q hq => hps q (List.mem_cons_of_mem _ hq)) hcover) _

/-- Traversing a term names what `renameTerm` names and answers what `renameTerm` answers. -/
theorem outcomeIn_mapVarsM {s : ValueSort} (e : Term s) : Traverses scope e := by
  induction e using Term.induction with
  | var s id => exact fun naming h => outcomeIn_replacement h ⟨s, id⟩
  | literal n => exact fun naming _ => rfl
  | length l ih => exact fun naming h => outcomeIn_map_of_ok (ih naming h) Term.length
  | element i l ih => exact fun naming h => outcomeIn_map_of_ok (ih naming h) (Term.element i)
  | arith op l r ihl ihr => exact fun naming h => outcomeIn_operands ihl ihr h (Term.arith op)
  | list es ih =>
    intro naming h
    rw [renameTerm, Term.rename_list]
    exact outcomeIn_map_of_ok (outcomeIn_mapElementsM ih h) Term.list
  | broadcast l r ihl ihr => exact fun naming h => outcomeIn_operands ihl ihr h Term.broadcast
  | truth b => exact fun naming _ => rfl
  | not p ih => exact fun naming h => outcomeIn_map_of_ok (ih naming h) Term.not
  | and ps ih =>
    intro naming h
    rw [renameTerm, Term.rename_and]
    exact outcomeIn_map_of_ok (outcomeIn_mapOperandsM ih h) Term.and
  | or ps ih =>
    intro naming h
    rw [renameTerm, Term.rename_or]
    exact outcomeIn_map_of_ok (outcomeIn_mapOperandsM ih h) Term.or
  | compare op l r ihl ihr => exact fun naming h => outcomeIn_operands ihl ihr h (Term.compare op)
  | listEq l r ihl ihr => exact fun naming h => outcomeIn_operands ihl ihr h Term.listEq
  | boolEq p q ihp ihq => exact fun naming h => outcomeIn_operands ihp ihq h Term.boolEq

/-- Renaming an expression with checks is renaming it, where sorts are kept. -/
theorem outcomeIn_mapVarsM_expr (h : naming.KeepsSorts scope) (e : Expr) :
    outcomeIn (e.mapVarsM (Renaming.replacement scope)) naming =
      (.ok (naming.renameExpr scope e).1, (naming.renameExpr scope e).2) :=
  outcomeIn_map_of_ok (outcomeIn_mapVarsM e.term naming h) (Expr.mk e.sort)

end

end Naming

end SummaryInlining
