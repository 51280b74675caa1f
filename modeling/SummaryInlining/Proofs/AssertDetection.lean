import SummaryInlining.Proofs.SubstitutionLaws
import SummaryInlining.Proofs.SummaryRenaming
import SummaryInlining.UnresolvedAssert

/-!
# Which assertions are warned about

A constraint is flagged when it asserts nothing but a variable that has a single occurrence in the
system, and its innermost frame has a location (`Constraint.FlaggedAt`). The two passes of
`unresolvedAsserts` find exactly these constraints.

A rewrite that answers nothing goes through every occurrence and changes nothing. So the first pass
counts the occurrences (`UseCounts.of_ofSystem`). What the second pass has seen already are the
locations that it does not warn about again, so its warnings are at the locations of the flagged
constraints without repetitions (`unresolvedAsserts_eq`), and each comes from the first constraint
that is flagged there (`warnOnce_in_order`). How often a variable occurs does not depend on the
order of the constraints, nor on the names of the variables (`unresolvedAsserts_rename`).
-/

set_option autoImplicit false

namespace SummaryInlining

namespace Constraint

variable {system other : List (Constraint CallStack)} {c : Constraint CallStack} {v : Var}

/-- How often a variable occurs in all constraints of a system. -/
def totalUses (system : List (Constraint CallStack)) (v : Var) : Nat :=
  (system.flatMap occurrences).count v

/-- The constraint asserts nothing but a variable that has a single occurrence in the system, and
its innermost frame has this location. -/
def FlaggedAt (system : List (Constraint CallStack)) (c : Constraint CallStack)
    (location : SourceLocation) : Prop :=
  ∃ q id, c = .require q ∧ q.origin = .asserted ∧ q.condition = .var .bool id ∧
    totalUses system ⟨.bool, id⟩ = 1 ∧ q.location.innermost? = some location

/-- The location at which a constraint of a system is flagged. -/
def unresolvedLocation? (system : List (Constraint CallStack)) (c : Constraint CallStack) :
    Option SourceLocation :=
  match c.assertedVar? with
  | none => none
  | some v => if totalUses system v = 1 then c.location.innermost? else none

/-- A constraint asserts a variable if it is an assertion and its condition is this boolean
variable. -/
theorem assertedVar?_eq_some_iff {c : InstantiatedConstraint} {v : Var} :
    (require c).assertedVar? = some v ↔
      ∃ id, c.condition = .var .bool id ∧ c.origin = .asserted ∧ v = ⟨.bool, id⟩ := by
  constructor
  · intro h
    simp only [assertedVar?] at h
    split at h
    · next id hcondition horigin =>
      cases h
      exact ⟨id, hcondition, horigin, rfl⟩
    · cases h
  · rintro ⟨id, hcondition, horigin, rfl⟩
    simp only [assertedVar?, hcondition, horigin]

/-- An asserted variable occurs in its constraint. -/
theorem mem_occurrences_of_assertedVar? (h : c.assertedVar? = some v) : v ∈ c.occurrences := by
  cases c with
  | call _ => cases h
  | require r =>
    obtain ⟨id, hcondition, -, rfl⟩ := assertedVar?_eq_some_iff.mp h
    simp only [occurrences, hcondition]
    exact List.mem_cons_self

/-- A constraint has the location at which it is flagged. -/
theorem unresolvedLocation?_eq_some_iff {location : SourceLocation} :
    unresolvedLocation? system c = some location ↔ c.FlaggedAt system location := by
  unfold unresolvedLocation? FlaggedAt
  cases c with
  | call _ => simp [assertedVar?]
  | require q =>
    cases hv : (require q).assertedVar? with
    | none =>
      simp only [reduceCtorEq, false_iff, not_exists, not_and]
      rintro q' id ⟨⟩ horigin hcondition
      rw [assertedVar?_eq_some_iff.mpr ⟨id, hcondition, horigin, rfl⟩] at hv
      cases hv
    | some v =>
      obtain ⟨id, hcondition, horigin, rfl⟩ := assertedVar?_eq_some_iff.mp hv
      simp only [Option.ite_none_right_eq_some]
      constructor
      · rintro ⟨htotal, hlocation⟩
        exact ⟨q, id, rfl, horigin, hcondition, htotal, hlocation⟩
      · rintro ⟨q', id', ⟨⟩, -, hcondition', htotal, hlocation⟩
        rw [hcondition] at hcondition'
        cases hcondition'
        exact ⟨htotal, hlocation⟩

end Constraint

/-! ## The first pass -/

namespace UseCounts

/-- Counting a variable adds one to its own count and nothing to the others. -/
theorem of_add (counts : UseCounts) (v w : Var) :
    (counts.add v).of w = counts.of w + if v = w then 1 else 0 := by
  unfold add of
  by_cases h : v = w
  · rw [if_pos h, ← h, valueAt?_setEntry_self]
    rfl
  · rw [if_neg h, valueAt?_setEntry_of_ne _ _ (Ne.symm h)]
    rfl

/-- Counting variables one after the other counts their copies. -/
theorem of_foldl_add (counts : UseCounts) (vs : List Var) (w : Var) :
    (vs.foldl add counts).of w = counts.of w + vs.count w := by
  induction vs generalizing counts with
  | nil => rfl
  | cons v rest ih =>
    rw [List.foldl_cons, ih, of_add, List.count_cons]
    simp only [beq_iff_eq]
    omega

/-- The traversal of a constraint meets its occurrences. -/
theorem addConstraint_eq (counts : UseCounts) (c : Constraint CallStack) :
    counts.addConstraint c = c.occurrences.foldl add counts := by
  have htraversal : outcomeIn (c.rewrite counting) counts =
      (.ok c, c.occurrences.foldl add counts) :=
    (constraints CallStack).lawful.identity counting (fun _ _ => rfl) c counts
  exact congrArg Prod.snd htraversal

/-- What has been counted in a system is how often a variable occurs in it. -/
theorem of_ofSystem (system : List (Constraint CallStack)) (v : Var) :
    (ofSystem system).of v = Constraint.totalUses system v := by
  have hmeets : ∀ counts : UseCounts,
      system.foldl addConstraint counts =
        (system.flatMap Constraint.occurrences).foldl add counts := by
    induction system with
    | nil => exact fun _ => rfl
    | cons c rest ih =>
      intro counts
      rw [List.foldl_cons, List.flatMap_cons, List.foldl_append, addConstraint_eq, ih]
  rw [ofSystem, hmeets, of_foldl_add, Constraint.totalUses]
  exact Nat.zero_add _

end UseCounts

/-- The second pass finds the constraints that are flagged. -/
theorem Constraint.locationOfSingleUse?_ofSystem (system : List (Constraint CallStack)) :
    locationOfSingleUse? (.ofSystem system) = unresolvedLocation? system := by
  funext c
  unfold locationOfSingleUse? unresolvedLocation?
  cases c.assertedVar? with
  | none => rfl
  | some v => simp only [UseCounts.of_ofSystem]

/-! ## The second pass -/

/-- The second pass warns about the locations that it has not seen, once for each. -/
theorem warnOnce_eq (counts : UseCounts) (seen : List SourceLocation)
    (system : List (Constraint CallStack)) :
    warnOnce counts seen system =
      ((system.filterMap (Constraint.locationOfSingleUse? counts)).eraseDups.filter
        (· ∉ seen)).map (Warning.mk unresolvedAssertMessage) := by
  induction system generalizing seen with
  | nil => rfl
  | cons c rest ih =>
    unfold warnOnce
    cases hc : c.locationOfSingleUse? counts with
    | none =>
      rw [List.filterMap_cons_none hc]
      exact ih seen
    | some location =>
      rw [List.filterMap_cons_some hc, List.eraseDups_cons, eraseDups_filter]
      simp only
      by_cases hseen : location ∈ seen
      · -- no later warning is at a location that has been seen, so none is dropped
        have hdropped :
            (fun other : SourceLocation => decide (other ∉ seen) && !other == location) =
              fun other => decide (other ∉ seen) := by
          funext other
          by_cases heq : other = location
          · simp [heq, hseen]
          · simp [heq]
        rw [if_pos hseen, List.filter_cons_of_neg (by simpa using hseen), List.filter_filter,
          hdropped]
        exact ih seen
      · have hkept : (fun other : SourceLocation => decide (other ∉ seen) && !other == location) =
            fun other => decide (other ∉ location :: seen) := by
          funext other
          by_cases heq : other = location
          · simp [heq]
          · simp [heq]
        rw [if_neg hseen, List.filter_cons_of_pos (by simpa using hseen), List.filter_filter, hkept,
          List.map_cons, ih (location :: seen)]

/-- Every warning is about the first constraint that has its location, and these constraints stand
in the order of the warnings. -/
theorem warnOnce_in_order (counts : UseCounts) (seen : List SourceLocation)
    (system : List (Constraint CallStack)) :
    (warnOnce counts seen system).Pairwise fun earlier later =>
      ∃ before c behind, system = before ++ c :: behind ∧
        c.locationOfSingleUse? counts = some earlier.location ∧
        ∀ d ∈ before, d.locationOfSingleUse? counts ≠ some earlier.location ∧
          d.locationOfSingleUse? counts ≠ some later.location := by
  induction system generalizing seen with
  | nil => exact List.Pairwise.nil
  | cons c rest ih =>
    -- what has been seen is not warned about again
    have hunseen : ∀ seen : List SourceLocation, ∀ w ∈ warnOnce counts seen rest,
        w.location ∉ seen := by
      intro seen w hw
      rw [warnOnce_eq] at hw
      obtain ⟨location, hlocation, rfl⟩ := List.mem_map.mp hw
      simpa using (List.mem_filter.mp hlocation).2
    -- the later warnings keep their order if the first constraint is at none of their locations
    have hlater : ∀ seen : List SourceLocation,
        (∀ w ∈ warnOnce counts seen rest, c.locationOfSingleUse? counts ≠ some w.location) →
        (warnOnce counts seen rest).Pairwise fun earlier later =>
          ∃ before d behind, c :: rest = before ++ d :: behind ∧
            d.locationOfSingleUse? counts = some earlier.location ∧
            ∀ x ∈ before, x.locationOfSingleUse? counts ≠ some earlier.location ∧
              x.locationOfSingleUse? counts ≠ some later.location := by
      intro seen hother
      refine (ih seen).imp_of_mem fun {earlier later} hearlier hlater h => ?_
      obtain ⟨before, d, behind, rfl, hd, hbefore⟩ := h
      exact ⟨c :: before, d, behind, rfl, hd, List.forall_mem_cons.mpr
        ⟨⟨hother earlier hearlier, hother later hlater⟩, hbefore⟩⟩
    unfold warnOnce
    cases hc : c.locationOfSingleUse? counts with
    | none =>
      rw [hc] at hlater
      exact hlater seen fun _ _ h => by cases h
    | some location =>
      have hne : ∀ seen : List SourceLocation, location ∈ seen →
          ∀ w ∈ warnOnce counts seen rest, c.locationOfSingleUse? counts ≠ some w.location := by
        intro seen hseen w hw heq
        rw [hc] at heq
        cases heq
        exact hunseen seen w hw hseen
      simp only
      by_cases hseen : location ∈ seen
      · rw [if_pos hseen]
        exact hlater seen (hne seen hseen)
      · rw [if_neg hseen]
        refine List.pairwise_cons.mpr ⟨fun w hw => ?_, hlater _ (hne _ List.mem_cons_self)⟩
        exact ⟨[], c, rest, rfl, hc, fun d hd => absurd hd List.not_mem_nil⟩

/-- The warnings are at the locations of the flagged constraints, without repetitions. -/
theorem unresolvedAsserts_eq (system : List (Constraint CallStack)) :
    unresolvedAsserts system =
      (system.filterMap (Constraint.unresolvedLocation? system)).eraseDups.map
        (Warning.mk unresolvedAssertMessage) := by
  have hnothing : ∀ locations : List SourceLocation,
      locations.filter (fun location => decide (location ∉ ([] : List SourceLocation))) =
        locations := by
    intro locations
    exact List.filter_eq_self.mpr fun _ _ => by simp
  rw [unresolvedAsserts, warnOnce_eq, Constraint.locationOfSingleUse?_ofSystem, hnothing]

/-- The locations of the warnings are those of the flagged constraints, without repetitions. -/
theorem map_location_unresolvedAsserts (system : List (Constraint CallStack)) :
    (unresolvedAsserts system).map (·.location) =
      (system.filterMap (Constraint.unresolvedLocation? system)).eraseDups := by
  rw [unresolvedAsserts_eq, List.map_map]
  exact List.map_id _

/-- No two warnings have the same location. -/
theorem nodup_map_location_unresolvedAsserts (system : List (Constraint CallStack)) :
    ((unresolvedAsserts system).map (·.location)).Nodup := by
  rw [map_location_unresolvedAsserts]
  exact nodup_eraseDups _

/-- There is a warning at a location exactly when a constraint is flagged there. -/
theorem mem_map_location_unresolvedAsserts {system : List (Constraint CallStack)}
    {location : SourceLocation} :
    location ∈ (unresolvedAsserts system).map (·.location) ↔
      ∃ c ∈ system, c.FlaggedAt system location := by
  rw [map_location_unresolvedAsserts, List.mem_eraseDups, List.mem_filterMap]
  simp only [Constraint.unresolvedLocation?_eq_some_iff]

/-! ## Other orders and other names -/

namespace Constraint

variable {system other : List (Constraint CallStack)} {f : Var → Int}

/-- How often a variable occurs does not depend on the order of the constraints. -/
theorem totalUses_perm (h : other.Perm system) (v : Var) :
    totalUses other v = totalUses system v :=
  (h.flatMap_right occurrences).count_eq v

/-- Whether a constraint is flagged does not depend on the order of the constraints. -/
theorem FlaggedAt.perm {c : Constraint CallStack} {location : SourceLocation}
    (hflagged : c.FlaggedAt system location) (h : other.Perm system) :
    c.FlaggedAt other location := by
  obtain ⟨q, id, hq, horigin, hcondition, htotal, hlocation⟩ := hflagged
  exact ⟨q, id, hq, horigin, hcondition, (totalUses_perm h _).trans htotal, hlocation⟩

/-- A renamed constraint asserts the renamed variable. -/
theorem assertedVar?_rename (f : Var → Int) (c : Constraint CallStack) :
    (c.rename f).assertedVar? = c.assertedVar?.map (Var.rename f) := by
  cases c with
  | call _ => rfl
  | require r =>
    apply Option.ext
    intro v
    rw [Option.map_eq_some_iff]
    constructor
    · intro h
      obtain ⟨id, hcondition, horigin, rfl⟩ := assertedVar?_eq_some_iff.mp h
      obtain ⟨source, hsource, rfl⟩ := Term.rename_eq_var hcondition
      exact ⟨⟨.bool, source⟩, assertedVar?_eq_some_iff.mpr ⟨source, hsource, horigin, rfl⟩, rfl⟩
    · rintro ⟨u, hu, rfl⟩
      obtain ⟨id, hcondition, horigin, rfl⟩ := assertedVar?_eq_some_iff.mp hu
      refine assertedVar?_eq_some_iff.mpr ⟨f ⟨.bool, id⟩, ?_, horigin, rfl⟩
      simp only [Requirement.rename, hcondition]
      rfl

/-- A variable of the system occurs as often as its new name does. -/
theorem totalUses_rename (hf : Set.InjOn (Var.rename f) {v | v ∈ system.flatMap occurrences})
    {v : Var} (hv : v ∈ system.flatMap occurrences) :
    totalUses (system.map (rename f)) (v.rename f) = totalUses system v := by
  have hoccurrences : (system.map (rename f)).flatMap occurrences =
      (system.flatMap occurrences).map (Var.rename f) := by
    rw [List.flatMap_map, List.map_flatMap]
    exact List.flatMap_congr fun c _ => occurrences_rename f c
  rw [totalUses, totalUses, hoccurrences, List.count, List.count, List.countP_map]
  refine List.countP_congr fun u hu => ?_
  simp only [Function.comp_apply, beq_iff_eq]
  exact hf.eq_iff hu hv

/-- A renaming keeps the location of a constraint. -/
theorem location_rename (f : Var → Int) (c : Constraint CallStack) :
    (c.rename f).location = c.location := by
  cases c <;> rfl

/-- A renaming that confuses no variables of the system flags the same constraints. -/
theorem unresolvedLocation?_rename
    (hf : Set.InjOn (Var.rename f) {v | v ∈ system.flatMap occurrences})
    {c : Constraint CallStack} (hc : c ∈ system) :
    unresolvedLocation? (system.map (rename f)) (c.rename f) = unresolvedLocation? system c := by
  unfold unresolvedLocation?
  rw [assertedVar?_rename, location_rename]
  cases hv : c.assertedVar? with
  | none => rfl
  | some v =>
    have hmem : v ∈ system.flatMap occurrences :=
      List.mem_flatMap_of_mem hc (mem_occurrences_of_assertedVar? hv)
    simp only [Option.map_some, totalUses_rename hf hmem]

end Constraint

/-- A renaming that makes no two variables of the system the same leaves the warnings as they
are. -/
theorem unresolvedAsserts_rename {f : Var → Int} {system : List (Constraint CallStack)}
    (hf : Set.InjOn (Var.rename f) {v | v ∈ system.flatMap Constraint.occurrences}) :
    unresolvedAsserts (system.map (Constraint.rename f)) = unresolvedAsserts system := by
  have hlocations : (system.map (Constraint.rename f)).filterMap
        (Constraint.unresolvedLocation? (system.map (Constraint.rename f))) =
      system.filterMap (Constraint.unresolvedLocation? system) := by
    rw [List.filterMap_map]
    exact List.filterMap_congr fun c hc => Constraint.unresolvedLocation?_rename hf hc
  rw [unresolvedAsserts_eq, unresolvedAsserts_eq, hlocations]

/-- The warnings of a system all have the same message. There is one at each location at which a
constraint is flagged and none elsewhere, in the order of the first constraints that are flagged
there. The second pass does the same without a constraint that is not flagged. The locations do not
depend on the order of the constraints, and the warnings do not depend on the names of the
variables. -/
theorem assert_detection_is_exact (system : List (Constraint CallStack)) :
    (∀ w ∈ unresolvedAsserts system, w.message = unresolvedAssertMessage) ∧
    ((unresolvedAsserts system).map (·.location)).Nodup ∧
    (∀ location, location ∈ (unresolvedAsserts system).map (·.location) ↔
      ∃ c ∈ system, c.FlaggedAt system location) ∧
    ((unresolvedAsserts system).Pairwise fun earlier later =>
      ∃ before c behind, system = before ++ c :: behind ∧
        c.FlaggedAt system earlier.location ∧
        ∀ d ∈ before, ¬ d.FlaggedAt system earlier.location ∧
          ¬ d.FlaggedAt system later.location) ∧
    (∀ before c behind, system = before ++ c :: behind →
      (∀ location, ¬ c.FlaggedAt system location) →
      warnOnce (.ofSystem system) [] (before ++ behind) = unresolvedAsserts system) ∧
    (∀ other : List (Constraint CallStack), other.Perm system →
      ∀ location, location ∈ (unresolvedAsserts other).map (·.location) ↔
        location ∈ (unresolvedAsserts system).map (·.location)) ∧
    ∀ f : Var → Int,
      Set.InjOn (Var.rename f) {v | v ∈ system.flatMap Constraint.occurrences} →
      unresolvedAsserts (system.map (Constraint.rename f)) = unresolvedAsserts system := by
  have hflagged : ∀ (c : Constraint CallStack) (location : SourceLocation),
      c.locationOfSingleUse? (.ofSystem system) = some location ↔ c.FlaggedAt system location := by
    intro c location
    rw [Constraint.locationOfSingleUse?_ofSystem, Constraint.unresolvedLocation?_eq_some_iff]
  refine ⟨?message, nodup_map_location_unresolvedAsserts system,
    fun _ => mem_map_location_unresolvedAsserts, ?order, ?unflagged, ?permuted,
    fun f hf => unresolvedAsserts_rename hf⟩
  case message =>
    intro w hw
    rw [unresolvedAsserts_eq] at hw
    obtain ⟨location, -, rfl⟩ := List.mem_map.mp hw
    rfl
  case order =>
    have hpass := warnOnce_in_order (.ofSystem system) [] system
    simp only [ne_eq, hflagged] at hpass
    exact hpass
  case unflagged =>
    intro before c behind hsystem hc
    have hnone : c.locationOfSingleUse? (.ofSystem system) = none :=
      Option.eq_none_iff_forall_ne_some.mpr fun location h =>
        hc location ((hflagged c location).mp h)
    -- the counts are those of the whole system on both sides, so they may be any counts here
    have hsame : system.filterMap (Constraint.locationOfSingleUse? (.ofSystem system)) =
        (before ++ behind).filterMap (Constraint.locationOfSingleUse? (.ofSystem system)) := by
      generalize UseCounts.ofSystem system = counts at hnone
      rw [hsystem, List.filterMap_append, List.filterMap_append, List.filterMap_cons_none hnone]
    rw [unresolvedAsserts, warnOnce_eq, warnOnce_eq, hsame]
  case permuted =>
    intro other hperm location
    rw [mem_map_location_unresolvedAsserts, mem_map_location_unresolvedAsserts]
    constructor
    · rintro ⟨c, hc, hlocation⟩
      exact ⟨c, hperm.mem_iff.mp hc, hlocation.perm hperm.symm⟩
    · rintro ⟨c, hc, hlocation⟩
      exact ⟨c, hperm.mem_iff.mpr hc, hlocation.perm hperm⟩

end SummaryInlining
