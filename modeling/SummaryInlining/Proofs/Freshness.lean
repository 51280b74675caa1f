import Mathlib.Data.Set.Card
import Mathlib.Order.Interval.Finset.Nat
import SummaryInlining.Proofs.Workspace

/-!
# Fresh names

In a workspace in which nothing has been named before, every pair of a scope and a source variable
gets a variable of its own, whatever is done and in whatever order: the renaming is injective over
all scopes, keeps sorts, never changes, and hands out one number for each new pair
(`Naming.Fresh`, `Naming.Grows.count_eq`). So an instantiation has only variables that were handed
out while it ran, and two expansions share a variable only where it was handed to one of them
(`names_are_fresh`).
-/

set_option autoImplicit false

namespace SummaryInlining

namespace Naming

/-- All names are different, of the sort of their source variables, and have been handed out since
the supply stood at `start`. -/
structure Fresh (start : Nat) (naming : Naming) : Prop where
  injective : ∀ {scope scope' v v' w w'}, naming.find? scope v = some w →
    naming.find? scope' v' = some w' → w.id = w'.id → scope = scope' ∧ v = v'
  sort_eq : ∀ {scope v w}, naming.find? scope v = some w → w.sort = v.sort
  range : ∀ {scope v w}, naming.find? scope v = some w →
    (start : Int) ≤ w.id ∧ w.id < naming.count

/-- The pairs of a scope and a source variable that have a name after but not before. -/
def newPairs (before after : Naming) : Set (ScopeId × Var) :=
  {pair | ∃ w, NamedBetween before after pair.1 pair.2 w}

/-- What grows out of a naming without names is fresh. -/
theorem Grows.fresh {before after : Naming} (hg : Grows before after)
    (hempty : ∀ scope v, before.find? scope v = none) : Fresh before.count after where
  injective h h' hid := hg.injective ⟨hempty _ _, h⟩ ⟨hempty _ _, h'⟩ hid
  sort_eq h := hg.sort_eq ⟨hempty _ _, h⟩
  range h := hg.range ⟨hempty _ _, h⟩

/-- Variables that have been named in one number are the same variable of the same scope. -/
theorem Fresh.eq_of_numberOf_eq {naming : Naming} {start : Nat} (h : Fresh start naming)
    {scope scope' : ScopeId} {u v : Var} (hu : naming.Knows scope u) (hv : naming.Knows scope' v)
    (heq : naming.numberOf scope u = naming.numberOf scope' v) : scope = scope' ∧ u = v := by
  obtain ⟨x, hx⟩ := hu
  obtain ⟨y, hy⟩ := hv
  rw [numberOf_of_find? hx, numberOf_of_find? hy] at heq
  exact h.injective hx hy heq

/-- The numbers handed out between two namings are those of the new pairs, one for each. -/
theorem Grows.bijOn_newPairs {before after : Naming} (hg : Grows before after) :
    Set.BijOn (fun pair => (after.numberOf pair.1 pair.2).toNat) (newPairs before after)
      (Set.Ico before.count after.count) := by
  refine ⟨?_, ?_, ?_⟩
  · rintro ⟨scope, v⟩ ⟨w, hw⟩
    have hrange := hg.range hw
    simp only [numberOf_of_find? hw.2, Set.mem_Ico]
    omega
  · rintro ⟨scope, v⟩ ⟨w, hw⟩ ⟨scope', v'⟩ ⟨w', hw'⟩ heq
    have hrange := hg.range hw
    have hrange' := hg.range hw'
    simp only [numberOf_of_find? hw.2, numberOf_of_find? hw'.2] at heq
    obtain ⟨rfl, rfl⟩ := hg.injective hw hw' (by omega)
    rfl
  · rintro i ⟨hlo, hhi⟩
    obtain ⟨scope, v, w, hw, hid⟩ := hg.onto i hlo hhi
    refine ⟨(scope, v), ⟨w, hw⟩, ?_⟩
    simp only [numberOf_of_find? hw.2, hid, Int.toNat_natCast]

/-- One number is handed out for each new pair. -/
theorem Grows.count_eq {before after : Naming} (hg : Grows before after) :
    (newPairs before after).Finite ∧
      after.count = before.count + (newPairs before after).ncard := by
  have hbij := hg.bijOn_newPairs
  have hle := hg.count_le
  refine ⟨hbij.finite_iff_finite.mpr (Set.finite_Ico _ _), ?_⟩
  rw [hbij.ncard_eq, ← Finset.coe_Ico, Set.ncard_coe_finset, Nat.card_Ico]
  omega

end Naming

section

variable {env : Environment} {entry : String} {naming : Naming}

/-- Every variable in the constraints of an instantiation is a name that was given while it ran. -/
theorem namedBetween_of_mem_instantiate {c : InstantiatedConstraint} {v : Var}
    (hc : c ∈ (instantiate env entry naming).2.constraints)
    (hv : v ∈ (Constraint.require c).occurrences) :
    ∃ scope u, Naming.NamedBetween naming (instantiate env entry naming).2.naming scope u v := by
  have hgrows := grows_instantiate env entry naming
  cases hs : env.find? entry with
  | none =>
    rw [instantiate, hs] at hc
    exact absurd hc (Array.not_mem_empty c)
  | some summary =>
    have hperforms := performs_instantiate naming hs
    obtain ⟨-, -, hroot, -⟩ := rootSession_named env naming entry summary
    have hfollows := hperforms.follows
    have hsession := hfollows.grows
    rw [← Array.mem_toList_iff, hfollows.constraints_eq] at hc
    obtain ⟨source, hsource, rfl⟩ := List.mem_map.mp hc
    obtain ⟨visit, -, hmem⟩ := List.mem_flatMap.mp hsource
    rcases Source.mem_reads_or_given (mem_sources_iff.mp hmem).2 hv with hname | harg | hguard
    · obtain ⟨read, hread, rfl⟩ := List.mem_map.mp hname
      have hsize := Nat.le_of_succ_le
        (CallPath.le_scope env [] (naming.scopes.size + 1) read.1)
      exact ⟨_, _, hgrows.namedBetween_of_knows (Naming.find?_of_size_le hsize _)
        (hfollows.covers source hsource read hread)⟩
    · rw [rootSite, Expr.listOccurrences_rename] at harg
      obtain ⟨u, hu, rfl⟩ := List.mem_map.mp harg
      exact ⟨_, _, hgrows.namedBetween_of_knows (Naming.find?_of_size_le (Nat.le_refl _) _)
        ((hroot u hu).mono hsession)⟩
    · cases hguard

end

/-- The constraints of different expansions share a variable only where it was handed to one of
them: the other one would have named it in a scope of its own, and no number is given in two
scopes. -/
theorem Workspace.mem_handed_of_shared (w : Workspace) (actions : List Action) {first : Nat}
    (hfresh : (w.run actions).naming.Fresh first) {e f : Emission}
    (he : e ∈ w.emissionsBy 0 actions) (hf : f ∈ w.emissionsBy 0 actions)
    (hne : (e.turn, e.source.owner) ≠ (f.turn, f.source.owner))
    {v : Var} (hev : v ∈ e.source.occurrences e.site (w.run actions).naming)
    (hfv : v ∈ f.source.occurrences f.site (w.run actions).naming) :
    v ∈ e.source.handed e.site (w.run actions).naming ∨
      v ∈ f.source.handed f.site (w.run actions).naming := by
  rcases Source.mem_own_or_handed hev with heown | hhanded
  · rcases Source.mem_own_or_handed hfv with hfown | hhanded
    · obtain ⟨u, hu, rfl⟩ := List.mem_map.mp heown
      obtain ⟨u', hu', heq⟩ := List.mem_map.mp hfown
      have hscope := Workspace.scope_ne_of_mem_emissionsBy he hf hu hu' hne
      have hknows := (Workspace.of_mem_emissionsBy he).2.2 _ (Source.mem_reads_of_mem_own hu)
      have hknows' := (Workspace.of_mem_emissionsBy hf).2.2 _ (Source.mem_reads_of_mem_own hu')
      have hnumber := (congrArg Var.id heq).symm
      exact absurd (hfresh.eq_of_numberOf_eq hknows hknows' hnumber).1 hscope
    · exact .inr hhanded
  · exact .inl hhanded

/-- The names of a workspace are fresh. -/
theorem names_are_fresh (supply : Supply) (before actions : List Action) :
    let w := (Workspace.new supply).run before
    let final := w.run actions
    final.naming.Fresh supply.count ∧
      (∀ scope v u, w.naming.find? scope v = some u → final.naming.find? scope v = some u) ∧
      (Naming.newPairs w.naming final.naming).Finite ∧
      final.naming.count = w.naming.count + (Naming.newPairs w.naming final.naming).ncard ∧
      (∀ env entry, ∀ c ∈ (instantiate env entry w.naming).2.constraints,
        ∀ v ∈ (Constraint.require c).occurrences,
          (w.naming.count : Int) ≤ v.id ∧ v.id < (instantiate env entry w.naming).2.naming.count ∧
          ∃ scope u,
            Naming.NamedBetween w.naming (instantiate env entry w.naming).2.naming scope u v) ∧
      w.emittedBy actions = (w.emissionsBy 0 actions).map
        (fun e => e.source.constraint e.site final.naming) ∧
      ∀ e ∈ w.emissionsBy 0 actions, ∀ f ∈ w.emissionsBy 0 actions,
        (e.turn, e.source.owner) ≠ (f.turn, f.source.owner) →
          ∀ v ∈ e.source.occurrences e.site final.naming,
            v ∈ f.source.occurrences f.site final.naming →
              v ∈ e.source.handed e.site final.naming ∨
                v ∈ f.source.handed f.site final.naming := by
  intro w final
  have hempty : ∀ scope v, (Workspace.new supply).naming.find? scope v = none :=
    fun scope v => Naming.find?_of_size_le (Nat.zero_le _) v
  have hbefore := (Workspace.new supply).grows_run before
  have hgrows := w.grows_run actions
  have hfresh : final.naming.Fresh supply.count := (hbefore.trans hgrows).fresh hempty
  refine ⟨hfresh, fun _ _ _ => hgrows.stable, hgrows.count_eq.1, hgrows.count_eq.2, ?_,
    w.emittedBy_eq 0 actions, ?_⟩
  · intro env entry c hc v hv
    obtain ⟨scope, u, hnamed⟩ := namedBetween_of_mem_instantiate hc hv
    have hrange := (grows_instantiate env entry w.naming).range hnamed
    exact ⟨hrange.1, hrange.2, scope, u, hnamed⟩
  · exact fun e he f hf hne v hev hfv => w.mem_handed_of_shared actions hfresh he hf hne hev hfv

end SummaryInlining
