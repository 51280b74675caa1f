import SummaryInlining.Proofs.ConstraintVariables
import SummaryInlining.Proofs.SummaryRenaming

/-!
# Translating the names of one run into those of another

Two runs that come to the same source give its variables different names, in different scopes. When
their scopes correspond one to one, some renaming takes the names of the first run to those of the
second one, and it can be had for all variables at once without confusing any two
(`Naming.exists_renaming`). A renaming that translates all names that a source reads (`Translates`)
takes the constraint that the first run emits for it to that of the second one
(`constraint_retarget`). Only the arguments that the expansions begin with are in the names of
a run already, so they are renamed in the source (`Source.retarget`).
-/

set_option autoImplicit false

namespace SummaryInlining

/-! ## Renamings of all variables -/

/-- New numbers below a bound for some variables can be completed to new numbers for all. -/
theorem exists_injective_extension {vars : Set Var} {g : Var → Int} {bound : Nat}
    (hg : Set.InjOn (Var.rename g) vars) (hrange : ∀ v ∈ vars, 0 ≤ g v ∧ g v < bound) :
    ∃ f : Var → Int, Function.Injective (Var.rename f) ∧ Set.EqOn f g vars := by
  classical
  -- the other variables get the numbers that are negative or not below the bound
  let f : Var → Int := fun v =>
    if v ∈ vars then g v else if v.id < 0 then v.id else v.id + bound
  have hin : ∀ {v}, v ∈ vars → f v = g v := fun hv => if_pos hv
  have hout : ∀ {v}, v ∉ vars → f v = if v.id < 0 then v.id else v.id + bound :=
    fun hv => if_neg hv
  refine ⟨f, fun u v huv => ?_, fun v hv => hin hv⟩
  obtain ⟨hsort, hid⟩ := Var.mk.inj huv
  by_cases hu : u ∈ vars
  · by_cases hv : v ∈ vars
    · rw [hin hu, hin hv] at hid
      exact hg hu hv (congrArg₂ Var.mk hsort hid)
    · have hbound := hrange u hu
      rw [hin hu, hout hv] at hid
      split at hid <;> omega
  · by_cases hv : v ∈ vars
    · have hbound := hrange v hv
      rw [hin hv, hout hu] at hid
      split at hid <;> omega
    · rw [hout hu, hout hv] at hid
      have hsame : u.id = v.id := by
        split at hid <;> split at hid <;> omega
      exact congrArg₂ Var.mk hsort hsame

namespace Naming

/-- When the scopes of two runs correspond one to one, a renaming of all variables takes the names
of the first run to those that the second one gives to the same variables in the corresponding
scopes. -/
theorem exists_renaming {a a' b b' : Naming} (ha : Grows a a') (hb : Grows b b')
    {T : ScopeId → ScopeId → Prop}
    (hnew : ∀ {s t}, T s t → a.scopes.size ≤ s ∧ b.scopes.size ≤ t)
    (hright : ∀ {s t t'}, T s t → T s t' → t = t') (hleft : ∀ {s s' t}, T s t → T s' t → s = s') :
    ∃ f : Var → Int, Function.Injective (Var.rename f) ∧
      ∀ {s t v}, T s t → a'.Knows s v → b'.Knows t v →
        f ⟨v.sort, a'.numberOf s v⟩ = b'.numberOf t v := by
  have hnamed : ∀ {s t v}, T s t → a'.Knows s v →
      NamedBetween a a' s v ⟨v.sort, a'.numberOf s v⟩ :=
    fun hst hv => ha.namedBetween_of_knows (find?_of_size_le (hnew hst).1 _) hv
  have hnamed' : ∀ {s t v}, T s t → b'.Knows t v →
      NamedBetween b b' t v ⟨v.sort, b'.numberOf t v⟩ :=
    fun hst hv => hb.namedBetween_of_knows (find?_of_size_le (hnew hst).2 _) hv
  -- a name of the first run belongs to one variable of one scope, and so has one translation
  have htranslation : ∀ u : Var, ∃ n : Int, ∀ {s t v}, T s t → a'.Knows s v → b'.Knows t v →
      u = ⟨v.sort, a'.numberOf s v⟩ → n = b'.numberOf t v := by
    intro u
    by_cases h : ∃ s t v, T s t ∧ a'.Knows s v ∧ u = ⟨v.sort, a'.numberOf s v⟩
    · obtain ⟨s, t, v, hst, hv, rfl⟩ := h
      refine ⟨b'.numberOf t v, fun {s' t' v'} hst' hv' _ heq => ?_⟩
      obtain ⟨rfl, rfl⟩ := ha.injective (hnamed hst hv) (hnamed hst' hv') (congrArg Var.id heq)
      rw [hright hst hst']
    · exact ⟨0, fun {s t v} hst hv _ heq => absurd ⟨s, t, v, hst, hv, heq⟩ h⟩
  choose g hg using htranslation
  let vars : Set Var := {u | ∃ s t v, T s t ∧ a'.Knows s v ∧ b'.Knows t v ∧
    u = ⟨v.sort, a'.numberOf s v⟩}
  have hinjOn : Set.InjOn (Var.rename g) vars := by
    rintro _ ⟨s, t, v, hst, hv, hv', rfl⟩ _ ⟨r, q, u, hrq, hu, hu', rfl⟩ heq
    have hid : b'.numberOf t v = b'.numberOf q u := by
      rw [← hg _ hst hv hv' rfl, ← hg _ hrq hu hu' rfl]
      exact congrArg Var.id heq
    obtain ⟨rfl, rfl⟩ := hb.injective (hnamed' hst hv') (hnamed' hrq hu') hid
    rw [hleft hst hrq]
  have hrange : ∀ u ∈ vars, 0 ≤ g u ∧ g u < b'.count := by
    rintro _ ⟨s, t, v, hst, hv, hv', rfl⟩
    have hbetween := hb.range (hnamed' hst hv')
    rw [hg _ hst hv hv' rfl]
    simp only at hbetween
    omega
  obtain ⟨f, hf, hext⟩ := exists_injective_extension hinjOn hrange
  refine ⟨f, hf, fun {s t v} hst hv hv' => ?_⟩
  exact (hext ⟨s, t, v, hst, hv, hv', rfl⟩).trans (hg _ hst hv hv' rfl)

end Naming

/-! ## Translated constraints -/

/-- The renaming takes the names of what is read to those of the second run. -/
def Translates (f : Var → Int) (site : CallSite) (names : Naming) (site' : CallSite)
    (names' : Naming) (reads : List (CallPath × Var)) : Prop :=
  ∀ read ∈ reads, (nameOf site names read).rename f = nameOf site' names' read

/-- A term of the caller of the function at the end of a path, for the second run. What the
expansion begins with is in the names of the first run and is renamed. -/
def CallPath.retarget (f : Var → Int) {s : ValueSort} (e : Term s) : CallPath → Term s
  | root _ _ => e.rename f
  | step _ _ _ _ => e

/-- The source in the second run. -/
def Source.retarget (f : Var → Int) : Source → Source
  | parameter p position sort formal actual =>
    parameter p position sort formal (p.retarget f actual)
  | source => source

/-- A source reads the same variables in both runs. -/
theorem Source.reads_retarget (f : Var → Int) (source : Source) :
    (source.retarget f).reads = source.reads := by
  cases source with
  | parameter p position sort formal actual => cases p <;> rfl
  | _ => rfl

section

variable {f : Var → Int} {site site' : CallSite} {names names' : Naming}

/-- A renaming translates two parts of what is read if it translates each of them. -/
theorem translates_append {reads others : List (CallPath × Var)} :
    Translates f site names site' names' (reads ++ others) ↔
      Translates f site names site' names' reads ∧ Translates f site names site' names' others :=
  List.forall_mem_append

/-- The renaming takes a term in the names of the first run to the term in those of the second one.
-/
theorem rename_of_translates {p : CallPath} {s : ValueSort} {e : Term s}
    (h : Translates f site names site' names' (e.occurrences.map (p, ·))) :
    (e.rename (p.number site names)).rename f = e.rename (p.number site' names') := by
  rw [Term.rename_rename]
  exact Term.rename_congr fun v hv => congrArg Var.id (h (p, v) (List.mem_map_of_mem hv))

/-- The renaming takes the guard of a path in the first run to its guard in the second one. -/
theorem guard_of_translates (hguard : site.guard.rename f = site'.guard) {p : CallPath}
    (h : Translates f site names site' names' p.reads) :
    (p.guard site names).rename f = p.guard site' names' := by
  induction p with
  | root name summary => exact hguard
  | step caller position call callee ih =>
    rw [CallPath.reads, List.map_append] at h
    obtain ⟨hcaller, hcall⟩ := translates_append.mp h
    obtain ⟨hassuming, -⟩ := translates_append.mp hcall
    rw [CallPath.guard, CallPath.guard, Term.rename_conjoin, ih hcaller,
      rename_of_translates hassuming]

/-- The renaming takes a term of a caller in the names of the first run to the term in those of the
second one. -/
theorem fromCaller_of_translates {p : CallPath} {s : ValueSort} {e : Term s}
    (h : Translates f site names site' names' (p.callerReads e.occurrences)) :
    (p.fromCaller site names e).rename f = p.fromCaller site' names' (p.retarget f e) := by
  cases p with
  | root name summary => rfl
  | step caller position call callee => exact rename_of_translates h

/-- The stack of a path is the same in both runs. -/
theorem stack_congr (hstack : site'.stack = site.stack) (p : CallPath) :
    p.stack site' = p.stack site := by
  induction p with
  | root name summary => exact hstack
  | step caller position call callee ih => rw [CallPath.stack, CallPath.stack, ih]

/-- The second run emits what the first one emits for a source, with the names translated. -/
theorem constraint_retarget (hguard : site.guard.rename f = site'.guard)
    (hstack : site'.stack = site.stack) {source : Source}
    (h : Translates f site names site' names' source.reads) :
    (source.retarget f).constraint site' names' = (source.constraint site names).rename f := by
  cases source with
  | requirement p position r =>
    rw [Source.reads, List.map_append] at h
    obtain ⟨hp, hr⟩ := translates_append.mp h
    obtain ⟨hcondition, hassuming⟩ := translates_append.mp hr
    simp only [Source.retarget, Source.constraint, Requirement.rename, Term.rename_conjoin,
      guard_of_translates hguard hp, rename_of_translates hcondition,
      rename_of_translates hassuming, stack_congr hstack]
  | parameter p position sort formal actual =>
    obtain ⟨hleft, hactual⟩ := translates_append.mp h
    obtain ⟨hp, hformal⟩ := translates_append.mp hleft
    simp only [Source.retarget, Source.constraint, Requirement.rename, Term.rename_equate,
      guard_of_translates hguard hp, rename_of_translates hformal,
      fromCaller_of_translates hactual, stack_congr hstack]
  | result caller position call callee captured value =>
    obtain ⟨hleft, hcaptured⟩ := translates_append.mp h
    obtain ⟨hp, hvalue⟩ := translates_append.mp hleft
    have hnumber : f ⟨captured.sort, caller.number site names captured⟩ =
        caller.number site' names' captured :=
      congrArg Var.id (hcaptured _ (List.mem_singleton_self _))
    simp only [Source.retarget, Source.constraint, Requirement.rename, Term.rename_equate,
      Term.rename_var, hnumber, guard_of_translates hguard hp, rename_of_translates hvalue,
      stack_congr hstack]

end

/-! ## The sources of the second run -/

namespace CallPath

/-- The arguments at the end of a path are those of the first run, put into the names of the second
one where they come from outside. -/
theorem givenArgs_retarget {f : Var → Int} {site site' : CallSite}
    (hargs : site'.args = Expr.renameAll f site.args) (p : CallPath) :
    p.givenArgs site' = (p.givenArgs site).map
      (Option.map fun actual => ⟨actual.sort, p.retarget f actual.term⟩) := by
  cases p with
  | root name summary => exact hargs
  | step caller position call callee =>
    have hsame : (fun actual : Expr =>
        Expr.mk actual.sort ((step caller position call callee).retarget f actual.term)) = id := rfl
    rw [hsame, Option.map_id, List.map_id]
    rfl

/-- A parameter is a source of the second run if it is one of the first run. -/
theorem parameterSource?_retarget (f : Var → Int) (p : CallPath) (formal actual : Option Expr)
    (position : Nat) :
    p.parameterSource? ((formal,
        actual.map fun actual => ⟨actual.sort, p.retarget f actual.term⟩), position) =
      (p.parameterSource? ((formal, actual), position)).map (Source.retarget f) := by
  cases formal with
  | none => rfl
  | some formal =>
    cases actual with
    | none => rfl
    | some actual =>
      obtain ⟨sort, formal⟩ := formal
      obtain ⟨sort', actual⟩ := actual
      by_cases hsort : sort = sort'
      · subst hsort
        rw [Option.map_some, parameterSource?_eq_some_iff.mpr ⟨sort, formal, _, rfl, rfl⟩,
          parameterSource?_eq_some_iff.mpr ⟨sort, formal, actual, rfl, rfl⟩]
        rfl
      · rw [Option.map_some, parameterSource?_of_ne p position hsort,
          parameterSource?_of_ne p position hsort, Option.map_none]

/-- A result is the same source in both runs. -/
theorem resultSource?_retarget (f : Var → Int) (p : CallPath) :
    p.resultSource?.map (Source.retarget f) = p.resultSource? := by
  cases hsource : p.resultSource? with
  | none => rfl
  | some source =>
    obtain ⟨_, _, _, _, _, _, -, -, -, rfl⟩ := resultSource?_eq_some_iff.mp hsource
    rfl

end CallPath

/-- The sources at a visit in the second run are those of the first run. -/
theorem Visit.sources_retarget {f : Var → Int} {site site' : CallSite}
    (hargs : site'.args = Expr.renameAll f site.args) (visit : Visit) :
    visit.sources site' = (visit.sources site).map (Source.retarget f) := by
  cases visit with
  | require p position r => rfl
  | leave p =>
    rw [sources, sources, ← Option.toList_map, CallPath.resultSource?_retarget]
  | enter p =>
    rw [sources, sources, CallPath.givenArgs_retarget hargs, List.zip_map_right, List.zipIdx_map,
      List.filterMap_map, List.map_filterMap]
    apply List.filterMap_congr
    rintro ⟨⟨formal, actual⟩, position⟩ _
    exact CallPath.parameterSource?_retarget f p formal actual position

end SummaryInlining
