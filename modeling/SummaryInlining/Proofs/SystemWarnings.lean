import SummaryInlining.Proofs.Warnings

/-!
# Warnings about merged systems

Whether an assertion is warned about depends on how often its variable occurs in the system, and on
nothing else that other constraints say. When systems that share no variable are merged, each
constraint is judged as in its own system, and the warnings are those of the systems one after the
other, without those at a location that a warning in front of them has already
(`unresolvedAsserts_flatten`).
-/

set_option autoImplicit false

namespace SummaryInlining

namespace Constraint

variable {system other : List (Constraint CallStack)} {c : Constraint CallStack} {v : Var}

/-- A variable occurs in two systems as often as in each of them together. -/
theorem totalUses_append (system other : List (Constraint CallStack)) (v : Var) :
    totalUses (system ++ other) v = totalUses system v + totalUses other v := by
  rw [totalUses, totalUses, totalUses, List.flatMap_append, List.count_append]

/-- A variable that occurs nowhere in a system has no uses. -/
theorem totalUses_eq_zero (h : v ∉ system.flatMap occurrences) : totalUses system v = 0 :=
  List.count_eq_zero.mpr h

/-- A constraint is judged by the other constraints that have its variable. -/
theorem unresolvedLocation?_congr
    (h : ∀ v ∈ c.occurrences, totalUses system v = totalUses other v) :
    unresolvedLocation? system c = unresolvedLocation? other c := by
  unfold unresolvedLocation?
  cases hv : c.assertedVar? with
  | none => rfl
  | some v => simp only [h v (mem_occurrences_of_assertedVar? hv)]

/-- Of two systems that share no variable, each is flagged as it is alone. -/
theorem filterMap_unresolvedLocation?_append
    (h : List.Disjoint (system.flatMap occurrences) (other.flatMap occurrences)) :
    (system ++ other).filterMap (unresolvedLocation? (system ++ other)) =
      system.filterMap (unresolvedLocation? system) ++
        other.filterMap (unresolvedLocation? other) := by
  rw [List.filterMap_append]
  apply congrArg₂
  · apply List.filterMap_congr
    intro c hc
    apply unresolvedLocation?_congr
    intro v hv
    have hmem : v ∈ system.flatMap occurrences := List.mem_flatMap_of_mem hc hv
    rw [totalUses_append, totalUses_eq_zero (h hmem), Nat.add_zero]
  · apply List.filterMap_congr
    intro c hc
    apply unresolvedLocation?_congr
    intro v hv
    have hmem : v ∈ other.flatMap occurrences := List.mem_flatMap_of_mem hc hv
    rw [totalUses_append, totalUses_eq_zero fun hsystem => h hsystem hmem, Nat.zero_add]

/-- Of systems of which no two share a variable, each is flagged as it is alone. -/
theorem filterMap_unresolvedLocation?_flatten {systems : List (List (Constraint CallStack))}
    (h : systems.Pairwise fun system other =>
      List.Disjoint (system.flatMap occurrences) (other.flatMap occurrences)) :
    systems.flatten.filterMap (unresolvedLocation? systems.flatten) =
      systems.flatMap fun system => system.filterMap (unresolvedLocation? system) := by
  induction systems with
  | nil => rfl
  | cons system rest ih =>
    obtain ⟨hsystem, hrest⟩ := List.pairwise_cons.mp h
    have hdisjoint : List.Disjoint (system.flatMap occurrences)
        (rest.flatten.flatMap occurrences) := by
      intro v hv hv'
      obtain ⟨c, hc, hvc⟩ := List.mem_flatMap.mp hv'
      obtain ⟨other, hother, hmem⟩ := List.mem_flatten.mp hc
      exact hsystem other hother hv (List.mem_flatMap_of_mem hmem hvc)
    rw [List.flatten_cons, List.flatMap_cons, filterMap_unresolvedLocation?_append hdisjoint,
      ih hrest]

end Constraint

/-- Drops the warnings at a location that a warning in front of them has already. -/
def onePerLocation (warnings : List Warning) : List Warning :=
  warnings.eraseDupsBy fun later earlier => later.location = earlier.location

/-- Of warnings with one message, those with repeated locations are dropped. -/
theorem onePerLocation_map (message : String) (locations : List SourceLocation) :
    onePerLocation (locations.map (Warning.mk message)) =
      locations.eraseDups.map (Warning.mk message) :=
  eraseDupsBy_map (Warning.mk message)
    (fun later earlier => later.location = earlier.location) locations

/-- The warnings of merged systems that share no variable are the warnings of the systems, once for
each location. -/
theorem unresolvedAsserts_flatten {systems : List (List (Constraint CallStack))}
    (h : systems.Pairwise fun system other =>
      List.Disjoint (system.flatMap Constraint.occurrences)
        (other.flatMap Constraint.occurrences)) :
    unresolvedAsserts systems.flatten = onePerLocation (systems.flatMap unresolvedAsserts) := by
  have hwarnings : systems.flatMap unresolvedAsserts =
      (systems.flatMap fun system =>
        (system.filterMap (Constraint.unresolvedLocation? system)).eraseDups).map
          (Warning.mk unresolvedAssertMessage) := by
    rw [List.map_flatMap]
    exact List.flatMap_congr fun system _ => unresolvedAsserts_eq system
  rw [hwarnings, onePerLocation_map, eraseDups_flatMap_eraseDups,
    ← Constraint.filterMap_unresolvedLocation?_flatten h, unresolvedAsserts_eq]

end SummaryInlining
