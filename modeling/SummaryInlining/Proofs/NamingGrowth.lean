import SummaryInlining.Proofs.SessionSteps
import SummaryInlining.Proofs.TermRenaming

/-!
# How namings grow

A naming only ever grows: what it has named keeps its name, and a pair of a scope and a source
variable that is named later gets a variable of the sort of the source variable whose number has
not been handed out before. `Naming.Grows` says so, and that the new pairs and the new numbers
correspond one to one. It holds of every small step of an expansion, and composes, so it holds of
all of them together (`Session.Evolves.grows`).

Renaming a term covers the variables that occur in it, and a name never changes. So renaming it at
once and renaming it by any later naming is the same (`renameTerm_fst_of_grows`).
-/

set_option autoImplicit false

namespace SummaryInlining

namespace Naming

/-- The pair of the scope and the source variable `v` is renamed to `w` after, and had no name
before. -/
def NamedBetween (before after : Naming) (scope : ScopeId) (v w : Var) : Prop :=
  before.find? scope v = none ∧ after.find? scope v = some w

/-- The second naming comes out of the first one by opening scopes and naming source variables. -/
structure Grows (before after : Naming) : Prop where
  scopes_le : before.scopes.size ≤ after.scopes.size
  count_le : before.count ≤ after.count
  stable : ∀ {scope v w}, before.find? scope v = some w → after.find? scope v = some w
  sort_eq : ∀ {scope v w}, NamedBetween before after scope v w → w.sort = v.sort
  range : ∀ {scope v w}, NamedBetween before after scope v w →
    (before.count : Int) ≤ w.id ∧ w.id < after.count
  injective : ∀ {scope scope' v v' w w'}, NamedBetween before after scope v w →
    NamedBetween before after scope' v' w' → w.id = w'.id → scope = scope' ∧ v = v'
  /-- Every number that was handed out in between is the number of a new name. -/
  onto : ∀ i : Nat, before.count ≤ i → i < after.count →
    ∃ scope v w, NamedBetween before after scope v w ∧ w.id = i

namespace Grows

/-- A naming that names the same and has handed out as much has grown. -/
theorem of_find?_eq {before after : Naming} (hs : before.scopes.size ≤ after.scopes.size)
    (hc : after.count = before.count)
    (hf : ∀ scope v, after.find? scope v = before.find? scope v) : Grows before after := by
  have hnone : ∀ {scope v w}, ¬ NamedBetween before after scope v w := by
    rintro scope v w ⟨hb, ha⟩
    rw [hf, hb] at ha
    cases ha
  exact {
    scopes_le := hs
    count_le := Nat.le_of_eq hc.symm
    stable := fun h => (hf _ _).trans h
    sort_eq := fun h => absurd h hnone
    range := fun h => absurd h hnone
    injective := fun h => absurd h hnone
    onto := fun i h₁ h₂ => by omega }

/-- A naming grows into itself. -/
theorem refl (naming : Naming) : Grows naming naming :=
  of_find?_eq (Nat.le_refl _) rfl fun _ _ => rfl

/-- What is named between the ends of two growths is named in one of them. -/
theorem namedBetween_or {a b c : Naming} (hbc : Grows b c) {scope : ScopeId} {v w : Var}
    (h : NamedBetween a c scope v w) : NamedBetween a b scope v w ∨ NamedBetween b c scope v w := by
  cases hb : b.find? scope v with
  | none => exact .inr ⟨hb, h.2⟩
  | some u =>
    have hc := hbc.stable hb
    rw [h.2] at hc
    cases hc
    exact .inl ⟨h.1, hb⟩

/-- What grows in two stretches grows. -/
theorem trans {a b c : Naming} (hab : Grows a b) (hbc : Grows b c) : Grows a c where
  scopes_le := Nat.le_trans hab.scopes_le hbc.scopes_le
  count_le := Nat.le_trans hab.count_le hbc.count_le
  stable h := hbc.stable (hab.stable h)
  sort_eq h := by
    rcases hbc.namedBetween_or h with h | h
    · exact hab.sort_eq h
    · exact hbc.sort_eq h
  range h := by
    have := hab.count_le
    have := hbc.count_le
    rcases hbc.namedBetween_or h with h | h
    · have := hab.range h
      omega
    · have := hbc.range h
      omega
  injective h h' hid := by
    -- the numbers of the first growth are below those of the second one
    rcases hbc.namedBetween_or h with h | h <;> rcases hbc.namedBetween_or h' with h' | h'
    · exact hab.injective h h' hid
    · have := hab.range h
      have := hbc.range h'
      omega
    · have := hbc.range h
      have := hab.range h'
      omega
    · exact hbc.injective h h' hid
  onto i hlo hhi := by
    rcases Nat.lt_or_ge i b.count with hi | hi
    · obtain ⟨scope, v, w, hw, hid⟩ := hab.onto i hlo hi
      exact ⟨scope, v, w, ⟨hw.1, hbc.stable hw.2⟩, hid⟩
    · obtain ⟨scope, v, w, hw, hid⟩ := hbc.onto i hi hhi
      refine ⟨scope, v, w, ⟨?_, hw.2⟩, hid⟩
      cases ha : a.find? scope v with
      | none => rfl
      | some u =>
        have hb := hab.stable ha
        rw [hw.1] at hb
        cases hb

end Grows

/-! ## The steps of a naming -/

/-- A scope that is not open maps nothing. -/
theorem find?_of_size_le {naming : Naming} {scope : ScopeId} (h : naming.scopes.size ≤ scope)
    (v : Var) : naming.find? scope v = none := by
  simp [find?, Array.getElem?_eq_none h]

/-- Opening a scope changes nothing about what the other scopes map. -/
theorem find?_openScope (naming : Naming) (scope : ScopeId) (v : Var) :
    naming.openScope.2.find? scope v = naming.find? scope v := by
  unfold find? openScope
  rw [Array.getElem?_push]
  split
  · next h =>
    rw [h, Array.getElem?_eq_none (Nat.le_refl _)]
    rfl
  · rfl

/-- Opening a scope lets a naming grow. -/
theorem grows_openScope (naming : Naming) : Grows naming naming.openScope.2 :=
  .of_find?_eq (by simp) rfl (find?_openScope naming)

section

variable {naming : Naming} {scope : ScopeId} {v : Var}

/-- Meeting a variable again does nothing. -/
theorem meet_of_some {w : Var} (h : naming.find? scope v = some w) :
    naming.meet scope v = naming := by
  simp only [meet, h]

/-- Meeting a new variable hands out one number. -/
theorem count_meet_of_none (h : naming.find? scope v = none) :
    (naming.meet scope v).count = naming.count + 1 := by
  simp only [meet, h]
  rfl

/-- A new variable is mapped to the next number, with its own sort. -/
theorem find?_meet_of_none (hs : scope < naming.scopes.size) (h : naming.find? scope v = none) :
    (naming.meet scope v).find? scope v = some ⟨v.sort, naming.count⟩ := by
  have hget : naming.scopes[scope]? = some naming.scopes[scope] := Array.getElem?_eq_getElem hs
  have hfind : (naming.scopes[scope]).find? v = none := by simpa [find?, hget] using h
  simp only [meet, h]
  simp only [find?, Array.getElem?_modify, if_pos, hget, Option.map_some, Option.bind_some]
  exact MemoTable.find?_push_self _ _ _ hfind

/-- Meeting a variable in one scope changes nothing about other variables and other scopes. -/
theorem find?_meet_of_ne {other : ScopeId} {u : Var} (h : (other, u) ≠ (scope, v)) :
    (naming.meet scope v).find? other u = naming.find? other u := by
  unfold meet
  split
  · rfl
  · simp only [find?, Array.getElem?_modify]
    split
    · next hs =>
      subst hs
      have hne : u ≠ v := fun e => h (e ▸ rfl)
      cases naming.scopes[scope]? with
      | none => rfl
      | some table => exact MemoTable.find?_push_of_ne table _ hne
    · rfl

/-- Meeting a variable in an open scope lets a naming grow. -/
theorem grows_meet (hs : scope < naming.scopes.size) : Grows naming (naming.meet scope v) := by
  cases h : naming.find? scope v with
  | some w =>
    rw [meet_of_some h]
    exact .refl naming
  | none =>
    have hcount := count_meet_of_none h
    have hself := find?_meet_of_none hs h
    -- the met pair is the only new one
    have hnew : ∀ {other u w}, NamedBetween naming (naming.meet scope v) other u w →
        other = scope ∧ u = v ∧ w = ⟨v.sort, naming.count⟩ := by
      rintro other u w ⟨hb, ha⟩
      by_cases heq : (other, u) = (scope, v)
      · cases heq
        rw [hself] at ha
        cases ha
        exact ⟨rfl, rfl, rfl⟩
      · rw [find?_meet_of_ne heq, hb] at ha
        cases ha
    refine ⟨by simp, by omega, ?stable, ?sort_eq, ?range, ?injective, ?onto⟩
    case stable =>
      intro other u w hw
      rw [find?_meet_of_ne, hw]
      rintro heq
      cases heq
      rw [h] at hw
      cases hw
    case sort_eq =>
      intro other u w hw
      obtain ⟨-, rfl, rfl⟩ := hnew hw
      rfl
    case range =>
      intro other u w hw
      obtain ⟨-, -, rfl⟩ := hnew hw
      simp only
      omega
    case injective =>
      intro other other' u u' w w' hw hw' _
      obtain ⟨rfl, rfl, -⟩ := hnew hw
      obtain ⟨rfl, rfl, -⟩ := hnew hw'
      exact ⟨rfl, rfl⟩
    case onto =>
      intro i hlo hhi
      refine ⟨scope, v, _, ⟨h, hself⟩, ?_⟩
      simp only
      omega

end

/-- Meeting several variables in an open scope lets a naming grow. -/
theorem grows_cover {naming : Naming} {scope : ScopeId} (hs : scope < naming.scopes.size)
    (vs : List Var) : Grows naming (naming.cover scope vs) := by
  induction vs generalizing naming with
  | nil => exact .refl naming
  | cons v rest ih => exact (grows_meet hs).trans (ih (by simpa using hs))

/-! ## Renaming at once and renaming later -/

/-- The pair of a scope and a source variable has a name. -/
def Knows (naming : Naming) (scope : ScopeId) (v : Var) : Prop :=
  ∃ w, naming.find? scope v = some w

/-- A variable that has a name keeps having one. -/
theorem Knows.mono {before after : Naming} {scope : ScopeId} {v : Var}
    (h : before.Knows scope v) (hg : Grows before after) : after.Knows scope v :=
  h.imp fun _ hw => hg.stable hw

/-- A variable that has a name keeps its number. -/
theorem Knows.numberOf_eq {before after : Naming} {scope : ScopeId} {v : Var}
    (h : before.Knows scope v) (hg : Grows before after) :
    after.numberOf scope v = before.numberOf scope v := by
  obtain ⟨w, hw⟩ := h
  simp only [numberOf, hw, hg.stable hw]

/-- The number of a variable is that of the variable it is renamed to. -/
theorem numberOf_of_find? {naming : Naming} {scope : ScopeId} {v w : Var}
    (h : naming.find? scope v = some w) : naming.numberOf scope v = w.id := by
  rw [numberOf, h, Option.getD_some]

/-- A source variable that has a name now and had none before is named in between. -/
theorem Grows.namedBetween_of_knows {before after : Naming} {scope : ScopeId} {v : Var}
    (hg : Grows before after) (hnone : before.find? scope v = none) (h : after.Knows scope v) :
    NamedBetween before after scope v ⟨v.sort, after.numberOf scope v⟩ := by
  obtain ⟨w, hw⟩ := h
  have hnew : NamedBetween before after scope v w := ⟨hnone, hw⟩
  rw [numberOf_of_find? hw, ← hg.sort_eq hnew]
  exact hnew

/-- A variable that was met in an open scope has a name there. -/
theorem knows_meet {naming : Naming} {scope : ScopeId} (hs : scope < naming.scopes.size) (v : Var) :
    (naming.meet scope v).Knows scope v := by
  cases h : naming.find? scope v with
  | some w =>
    rw [meet_of_some h]
    exact ⟨w, h⟩
  | none => exact ⟨_, find?_meet_of_none hs h⟩

/-- Every variable that was met in an open scope has a name there. -/
theorem knows_cover {naming : Naming} {scope : ScopeId} (hs : scope < naming.scopes.size)
    {vs : List Var} {v : Var} (hv : v ∈ vs) : (naming.cover scope vs).Knows scope v := by
  induction vs generalizing naming with
  | nil => cases hv
  | cons u rest ih =>
    have hs' : scope < (naming.meet scope u).scopes.size := by simpa using hs
    rcases List.mem_cons.mp hv with rfl | hr
    · exact (knows_meet hs v).mono (grows_cover hs' rest)
    · exact ih hs' hr

section

variable {naming later : Naming} {scope : ScopeId}

/-- Renaming a term at once is renaming it by any later naming. -/
theorem renameTerm_fst_of_grows (hs : scope < naming.scopes.size) {s : ValueSort} (e : Term s)
    (hg : Grows (naming.cover scope e.occurrences) later) :
    (naming.renameTerm scope e).1 = e.rename (later.numberOf scope) :=
  Term.rename_congr fun _ hv => ((knows_cover hs hv).numberOf_eq hg).symm

/-- An expression is renamed by the numbers that its variables have at any later time. -/
theorem renameExpr_fst_of_grows (hs : scope < naming.scopes.size) (e : Expr)
    (hg : Grows (naming.cover scope e.occurrences) later) :
    (naming.renameExpr scope e).1 = e.rename (later.numberOf scope) :=
  congrArg (Expr.mk e.sort) (renameTerm_fst_of_grows hs e.term hg)

/-- Arguments are renamed by the numbers that their variables have at any later time. -/
theorem renameExprs_fst_of_grows (hs : scope < naming.scopes.size) (es : List (Option Expr))
    (hg : Grows (naming.cover scope (Expr.listOccurrences es)) later) :
    (naming.renameExprs scope es).1 = es.map (Option.map (Expr.rename (later.numberOf scope))) := by
  induction es generalizing naming with
  | nil => rfl
  | cons e rest ih =>
    cases e with
    | none => exact congrArg (List.cons none) (ih hs hg)
    | some e =>
      rw [Expr.listOccurrences, List.flatMap_cons, cover_append] at hg
      have hs' : scope < (naming.cover scope e.occurrences).scopes.size := by simpa using hs
      have hfirst := renameExpr_fst_of_grows hs e ((grows_cover hs' _).trans hg)
      have hrest := ih hs' hg
      exact congrArg₂ (fun e es => some e :: es) hfirst hrest

end

end Naming

namespace Session

/-- The names of an evolving session grow. -/
theorem Evolves.grows {a b : Session} (h : Evolves a b) : Naming.Grows a.naming b.naming := by
  refine h.keeps (R := fun s t => Naming.Grows s.naming t.naming) (fun _ => .refl _) .trans ?_
  intro s t hstep
  cases hstep with
  | log => exact .refl _
  | emit => exact .refl _
  | openScope => exact Naming.grows_openScope s.naming
  | meet scope v hs => exact Naming.grows_meet hs

end Session

end SummaryInlining
